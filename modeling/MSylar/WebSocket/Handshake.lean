import MSylar.Http.RoundTrip
import MSylar.WebSocket.Base64
import MSylar.WebSocket.Sha1

/-!
# The opening handshake (WebSocket.cc:21-155, wsserver.cc:319-334)

`parseHandshake` is given the text that `raw` writes for the request, and `answerHandshake` makes
the response from the key and the protocol. A frame is shorter than `2^31`, so that a position is an
`int`. `none` is a write behind the message block of the hash.
-/

namespace MSylar.Handshake
open MSylar.Http MSylar.Lines MSylar.Sha1 MSylar.WebSocket

/-- The frame types that `parseHandshake` returns. -/
inductive WebSocketFrameType where
  | incompleteFrame
  | openingFrame
  deriving DecidableEq

structure WebSocket where
  resource : List Char
  host : List Char
  origin : List Char
  protocol : List Char
  key : List Char
  deriving DecidableEq

namespace WebSocket

def new : WebSocket := ⟨[], [], [], [], []⟩

def isSpace (c : Char) : Bool := c = ' ' || c = '\t' || c = '\r' || c = '\n'

def trim (str : List Char) : List Char := (str.rdropWhile isSpace).dropWhile isSpace

/-- The rounds of the loop of `explode`. At the end `length` is `(int)npos`, which is not positive, so
that the last piece is left out with the empty ones. -/
def explodeLoop (theDelimiter : List Char) (theIncludeEmptyStrings : Bool) :
    ℕ → List Char → List (List Char)
  | 0, _ => []
  | fuel + 1, theString =>
    match cut theDelimiter theString with
    | some (piece, rest) =>
      let pieces := explodeLoop theDelimiter theIncludeEmptyStrings fuel rest
      if theIncludeEmptyStrings ∨ piece ≠ [] then piece :: pieces else pieces
    | none => if theIncludeEmptyStrings then [theString] else []

def explode (theString theDelimiter : List Char) : List (List Char) :=
  explodeLoop theDelimiter false (theString.length + 1) theString

/-- One round of the loop over the rows. -/
def parseRow (ws : WebSocket) (header : List Char) : WebSocket :=
  if "GET".toList <+: header then
    let get_tokens := explode header " ".toList
    if 2 ≤ get_tokens.length then { ws with resource := get_tokens.getD 1 [] } else ws
  else
    match cut ":".toList header with
    | none => ws
    | some (header_key, header_value) =>
      let header_value := trim header_value
      if header_key = "Host".toList then { ws with host := header_value }
      else if header_key = "Origin".toList then { ws with origin := header_value }
      else if header_key = "Sec-WebSocket-Key".toList then { ws with key := header_value }
      else if header_key = "Sec-WebSocket-Protocol".toList then
        { ws with protocol := header_value }
      else ws

/-- `"\r\n\r\n"` -/
def headersEnd : List Char := ['\r', '\n', '\r', '\n']

def parseHandshake (ws : WebSocket) (input_frame : List Char) : WebSocketFrameType × WebSocket :=
  match cut headersEnd input_frame with
  | none => (.incompleteFrame, ws)
  | some (headers, _) => (.openingFrame, (explode headers headerDelimiter).foldl parseRow ws)

def bytesOf (s : List Char) : List UInt8 := s.map fun c => UInt8.ofNat c.toNat

def magicKey : List Char := "258EAFA5-E914-47DA-95CA-C5AB0DC85B11".toList

/-- The array that `Result` is given, as the bytes of the memory it is in. -/
def storeDigest (digest : List UInt8) : Option Words → List UInt8
  | none => digest
  | some w => [w.a, w.b, w.c, w.d, w.e].flatMap fun x =>
      [0, 8, 16, 24].map fun i => (x >>> i).toUInt8

def toBigEndian : List UInt8 → List UInt8
  | a :: b :: c :: d :: digest => d :: c :: b :: a :: toBigEndian digest
  | digest => digest

/-- `memory` and `digest` are what the arrays hold before they are written. -/
def acceptKey (memory : Vector UInt8 64) (digest : List UInt8) (key : List Char) :
    Option (List Char) :=
  ((SHA1.new memory).input (bytesOf (key ++ magicKey))).bind fun sha =>
    sha.result.map fun res => base64Encode (toBigEndian (storeDigest digest res.1))

def answerHandshake (ws : WebSocket) (memory : Vector UInt8 64) (digest : List UInt8) :
    Option (List Char) :=
  let answer := "HTTP/1.1 101 Switching Protocols\r\n".toList ++ "Upgrade: WebSocket\r\n".toList ++
    "Connection: Upgrade\r\n".toList
  let answer := if ws.key = [] then some answer
    else (acceptKey memory digest ws.key).map fun accept_key =>
      answer ++ ("Sec-WebSocket-Accept: ".toList ++ accept_key ++ headerDelimiter)
  let answer := if ws.protocol = [] then answer
    else answer.map (· ++ ("Sec-WebSocket-Protocol: ".toList ++ ws.protocol ++ headerDelimiter))
  answer.map (· ++ headerDelimiter)

end WebSocket

/-- `WsServer::handShake` as far as the response; `some none` is the result -1 before it. -/
def handShakeAnswer (memory : Vector UInt8 64) (digest : List UInt8) (r : Request) :
    Option (Option (List Char)) :=
  let (state, ws) := WebSocket.new.parseHandshake r.raw
  if state = .openingFrame then (ws.answerHandshake memory digest).map some else some none

/-! ### What the handshake is -/

/-- The key that a client expects in the answer. -/
def accept (key : List Char) : List Char :=
  base64 (Sha1.digest (WebSocket.bytesOf (key ++ WebSocket.magicKey))).bytes

/-- The header `name`, in this spelling, without whitespace at its ends; it is lost where it is the
last one. -/
def field (r : Request) (name : List Char) : List Char :=
  match r.headers.entries.find? (·.1 = name) with
  | none => []
  | some e => if ∃ e' ∈ r.headers.entries, ciKey name < ciKey e'.1 then WebSocket.trim e.2 else []

/-- The answer for a key and a protocol. -/
def switching (key protocol : List Char) : List Char :=
  "HTTP/1.1 101 Switching Protocols\r\nUpgrade: WebSocket\r\nConnection: Upgrade\r\n".toList ++
    ((if key = [] then [] else "Sec-WebSocket-Accept: ".toList ++ accept key ++ headerDelimiter) ++
      ((if protocol = [] then []
        else "Sec-WebSocket-Protocol: ".toList ++ protocol ++ headerDelimiter) ++ headerDelimiter))

namespace WebSocket

/-! ### The digest -/

theorem toBigEndian_storeDigest (digest : List UInt8) (w : Words) :
    toBigEndian (storeDigest digest (some w)) = w.bytes := rfl

theorem acceptKey_eq {key : List Char} (hkey : key.length < 2^60) (memory : Vector UInt8 64)
    (digest : List UInt8) : acceptKey memory digest key = some (accept key) := by
  have hlength : (bytesOf (key ++ magicKey)).length = key.length + 36 := by
    rw [bytesOf, List.length_map, List.length_append]
    rfl
  obtain ⟨x, bytes, hbytes⟩ : ∃ x bytes, bytesOf (key ++ magicKey) = x :: bytes :=
    List.exists_cons_of_length_pos (by omega)
  have htaking : (Hashing.taking []).input (bytesOf (key ++ magicKey)) =
      .taking (bytesOf (key ++ magicKey)) := by
    have hshort : (bytesOf (key ++ magicKey)).length < 2^61 := by omega
    rw [hbytes] at hshort ⊢
    exact if_pos hshort
  obtain ⟨sha, hinput, hsha⟩ := SHA1.Represents.input (.taking (SHA1.reset_taken _))
    (s := SHA1.new memory) (bytesOf (key ++ magicKey))
  rw [htaking] at hsha
  obtain ⟨sha', hresult, -⟩ := hsha.result
  rw [acceptKey, hinput, Option.bind_some, hresult, Option.map_some, Hashing.result,
    toBigEndian_storeDigest, base64Encode_eq]
  rfl

theorem answerHandshake_eq {ws : WebSocket} (hkey : ws.key.length < 2^60)
    (memory : Vector UInt8 64) (digest : List UInt8) :
    ws.answerHandshake memory digest = some (switching ws.key ws.protocol) := by
  have hstart : "HTTP/1.1 101 Switching Protocols\r\n".toList ++ "Upgrade: WebSocket\r\n".toList ++
      "Connection: Upgrade\r\n".toList =
      "HTTP/1.1 101 Switching Protocols\r\nUpgrade: WebSocket\r\nConnection: Upgrade\r\n".toList :=
    by decide
  unfold answerHandshake switching
  dsimp only
  rw [hstart, acceptKey_eq hkey]
  split_ifs <;> simp only [Option.map_some, List.append_assoc, List.nil_append]

/-! ### The rows -/

/-- The blank line is not in a line and not between a line and the next one. -/
theorem blank_not_in {line : List Char} (h : '\n' ∉ line) {rest u v : List Char} (huv : line = u ++ v)
    (hv : v ≠ []) : ¬ headersEnd <+: v ++ '\r' :: rest := by
  have hnot : '\n' ∉ v := fun hmem => h (huv ▸ List.mem_append_right u hmem)
  intro hprefix
  match v, hv with
  | [c], _ =>
    have hhead := (List.cons_prefix_cons.mp hprefix).2
    exact absurd (List.cons_prefix_cons.mp hhead).1 (by decide)
  | c :: d :: v, _ =>
    have hhead := (List.cons_prefix_cons.mp (List.cons_prefix_cons.mp hprefix).2).1
    exact hnot (hhead ▸ List.mem_cons_of_mem c List.mem_cons_self)

/-- A row has two characters at least, and no `\n`. -/
def Row (row : List Char) : Prop := '\n' ∉ row ∧ 2 ≤ row.length

theorem blank_not_before {row : List Char} (hrow : Row row) {line : List Char} (h : '\n' ∉ line)
    {rest u v : List Char} (huv : line ++ headerDelimiter = u ++ v) (hv : v ≠ []) :
    ¬ headersEnd <+: v ++ (row ++ rest) := by
  obtain ⟨hnewline, hlength⟩ := hrow
  obtain ⟨c, d, row', rfl⟩ : ∃ c d row', row = c :: d :: row' := by
    match row, hlength with
    | c :: d :: row', _ => exact ⟨c, d, row', rfl⟩
  have hd : '\n' ≠ d := fun heq =>
    hnewline (heq ▸ List.mem_cons_of_mem c List.mem_cons_self)
  rcases List.append_eq_append_iff.mp huv with ⟨w, hu, hw⟩ | ⟨w, hline, hw⟩
  · intro hprefix
    match w, hw with
    | [], hw =>
      rw [List.nil_append] at hw
      rw [← hw] at hprefix
      have htail := (List.cons_prefix_cons.mp (List.cons_prefix_cons.mp hprefix).2).2
      exact hd (List.cons_prefix_cons.mp (List.cons_prefix_cons.mp htail).2).1
    | ['\r'], hw =>
      have hv' : v = ['\n'] := (List.cons.inj hw).2.symm
      rw [hv'] at hprefix
      exact absurd (List.cons_prefix_cons.mp hprefix).1 (by decide)
    | _ :: _ :: w, hw =>
      have htail := (List.cons.inj (List.cons.inj hw).2).2
      exact hv (List.append_eq_nil_iff.mp htail.symm).2
  · by_cases hempty : w = []
    · rw [hw, hempty]
      intro hprefix
      have htail := (List.cons_prefix_cons.mp (List.cons_prefix_cons.mp hprefix).2).2
      exact hd (List.cons_prefix_cons.mp (List.cons_prefix_cons.mp htail).2).1
    · rw [hw, List.append_assoc]
      exact blank_not_in h hline hempty

/-- The head ends at the blank line. -/
theorem cut_head {line : List Char} (h : '\n' ∉ line) {rows : List (List Char)}
    (hrows : ∀ row ∈ rows, Row row) (after : List Char) :
    cut headersEnd (line ++ (rows.flatMap (headerDelimiter ++ ·) ++
      (headerDelimiter ++ (headerDelimiter ++ after)))) =
        some (line ++ rows.flatMap (headerDelimiter ++ ·), after) := by
  induction rows generalizing line with
  | nil =>
    have hpass : cut headersEnd (line ++ (headersEnd ++ after)) =
        (cut headersEnd (headersEnd ++ after)).map fun r => (line ++ r.1, r.2) :=
      cut_pass fun u v huv hv => blank_not_in h huv hv
    rw [List.flatMap_nil, List.append_nil, List.nil_append]
    refine hpass.trans ?_
    rw [show cut headersEnd (headersEnd ++ after) = some ([], after) from rfl, Option.map_some,
      List.append_nil]
  | cons row rows ih =>
    have hrow := hrows row List.mem_cons_self
    have hrest := ih hrow.1 fun row' h' => hrows row' (List.mem_cons_of_mem row h')
    rw [List.flatMap_cons, List.append_assoc, List.append_assoc, ← List.append_assoc line,
      cut_pass fun u v huv hv => blank_not_before hrow h huv hv, hrest, Option.map_some]
    simp only [List.append_assoc]

/-- The last row is lost. -/
theorem explode_rows {line : List Char} (h : '\n' ∉ line ∧ line ≠ []) {rows : List (List Char)}
    (hrows : ∀ row ∈ rows, Row row) {fuel : ℕ} (hfuel : rows.length < fuel) :
    explodeLoop headerDelimiter false fuel (line ++ rows.flatMap (headerDelimiter ++ ·)) =
      (line :: rows).dropLast := by
  induction rows generalizing line fuel with
  | nil =>
    have hnone : cut headerDelimiter line = none :=
      cut_of_not_mem (List.mem_cons_of_mem _ List.mem_cons_self) h.1
    cases fuel with
    | zero => exact absurd hfuel (Nat.not_lt_zero _)
    | succ fuel =>
      rw [List.flatMap_nil, List.append_nil, explodeLoop, hnone]
      rfl
  | cons row rows ih =>
    have hrow := hrows row List.mem_cons_self
    have hne : row ≠ [] := List.ne_nil_of_length_pos (by have := hrow.2; omega)
    have hrest := @ih row ⟨hrow.1, hne⟩ fun row' h' => hrows row' (List.mem_cons_of_mem row h')
    cases fuel with
    | zero => exact absurd hfuel (Nat.not_lt_zero _)
    | succ fuel =>
      rw [List.flatMap_cons, List.append_assoc, explodeLoop, cut_line h.1]
      dsimp only
      rw [if_pos (.inr h.2), hrest (Nat.lt_of_succ_lt_succ hfuel),
        List.dropLast_cons_of_ne_nil (List.cons_ne_nil row rows)]

theorem length_le_flatMap (rows : List (List Char)) :
    rows.length ≤ (rows.flatMap (headerDelimiter ++ ·)).length := by
  induction rows with
  | nil => exact Nat.le_refl 0
  | cons row rows ih =>
    rw [List.flatMap_cons, List.length_append, List.length_append, List.length_cons,
      show headerDelimiter.length = 2 from rfl]
    omega

/-! ### The headers -/

theorem trim_blank (val : List Char) : trim (' ' :: val) = trim val := by
  have hdrop : (' ' :: val).rdropWhile isSpace =
      if val.rdropWhile isSpace = [] then [] else ' ' :: val.rdropWhile isSpace := by
    unfold List.rdropWhile
    rw [List.reverse_cons, List.dropWhile_append]
    cases hval : val.reverse.dropWhile isSpace with
    | nil => rfl
    | cons c rest => simp
  unfold trim
  rw [hdrop]
  split_ifs with hempty
  · rw [hempty]
  · rfl

/-- The row of a header. -/
def row (e : List Char × List Char) : List Char := e.1 ++ (": ".toList ++ e.2)

theorem parseRow_row (ws : WebSocket) {e : List Char × List Char}
    (hkey : e.1.all isTokenChar = true) :
    (ws.parseRow (row e)).key =
        (if e.1 = "Sec-WebSocket-Key".toList then trim e.2 else ws.key) ∧
      (ws.parseRow (row e)).protocol =
        (if e.1 = "Sec-WebSocket-Protocol".toList then trim e.2 else ws.protocol) := by
  obtain ⟨key, val⟩ := e
  dsimp only at hkey ⊢
  unfold parseRow
  by_cases hget : "GET".toList <+: row (key, val)
  · have hne : ∀ name : List Char, name.head? = some 'S' → key ≠ name := by
      rintro name hname rfl
      match key, hname with
      | c :: key, hname =>
        have hc : 'G' = c := (List.cons_prefix_cons.mp hget).1
        rw [← hc] at hname
        exact absurd (Option.some.inj hname) (by decide)
    rw [if_pos hget, if_neg (hne _ rfl), if_neg (hne _ rfl)]
    dsimp only
    split_ifs <;> exact ⟨rfl, rfl⟩
  · have hcut : cut ":".toList (row (key, val)) = some (key, ' ' :: val) :=
      cut_colon (not_mem_of_token hkey (by decide)) (' ' :: val)
    rw [if_neg hget, hcut]
    dsimp only
    rw [trim_blank]
    by_cases hhost : key = "Host".toList
    · subst hhost
      exact ⟨rfl, rfl⟩
    · by_cases horigin : key = "Origin".toList
      · subst horigin
        exact ⟨rfl, rfl⟩
      · rw [if_neg hhost, if_neg horigin]
        by_cases hname : key = "Sec-WebSocket-Key".toList
        · subst hname
          exact ⟨rfl, rfl⟩
        · rw [if_neg hname, if_neg hname]
          split_ifs <;> exact ⟨rfl, rfl⟩

/-- The request line is neither the key nor the protocol. -/
theorem parseRow_requestLine (ws : WebSocket) {method : List Char}
    (hmethod : method.all isTokenChar = true) (rest : List Char) :
    (ws.parseRow (method ++ ' ' :: rest)).key = ws.key ∧
      (ws.parseRow (method ++ ' ' :: rest)).protocol = ws.protocol := by
  unfold parseRow
  split_ifs
  · dsimp only
    split_ifs <;> exact ⟨rfl, rfl⟩
  · cases hcut : cut ":".toList (method ++ ' ' :: rest) with
    | none => exact ⟨rfl, rfl⟩
    | some pieces =>
      obtain ⟨key, val⟩ := pieces
      have hblank : ' ' ∈ key := by
        rcases List.append_eq_append_iff.mp (cut_eq_some hcut) with ⟨w, hkey, hw⟩ | ⟨w, hm, hw⟩
        · cases w with
          | nil => exact absurd (List.cons.inj hw).1 (by decide)
          | cons c w =>
            rw [hkey, ← (List.cons.inj hw).1]
            exact List.mem_append_right method List.mem_cons_self
        · cases w with
          | nil => exact absurd (List.cons.inj hw).1 (by decide)
          | cons c w =>
            have hcolon : ':' ∈ method := by
              rw [hm, ← (List.cons.inj hw).1]
              exact List.mem_append_right key List.mem_cons_self
            exact absurd hcolon (not_mem_of_token hmethod (by decide))
      have hne : ∀ name : List Char, ' ' ∉ name → key ≠ name :=
        fun name hname heq => hname (heq ▸ hblank)
      dsimp only
      rw [if_neg (hne _ (by decide)), if_neg (hne _ (by decide)), if_neg (hne _ (by decide)),
        if_neg (hne _ (by decide))]
      exact ⟨rfl, rfl⟩

/-- What `parseRow` keeps for the header `name` is what the rows have for it. -/
theorem foldl_rows {get : WebSocket → List Char} {name : List Char}
    (hget : ∀ ws e, e.1.all isTokenChar = true →
      get (parseRow ws (row e)) = if e.1 = name then trim e.2 else get ws)
    {es : List (List Char × List Char)} (hsorted : es.Pairwise fun a b => ciKey a.1 < ciKey b.1)
    (hkeys : ∀ e ∈ es, e.1.all isTokenChar = true) (ws : WebSocket) :
    get ((es.map row).foldl parseRow ws) =
      ((es.find? (·.1 = name)).map fun e => trim e.2).getD (get ws) := by
  induction es generalizing ws with
  | nil => rfl
  | cons e es ih =>
    obtain ⟨hfirst, hrest⟩ := List.pairwise_cons.mp hsorted
    rw [List.map_cons, List.foldl_cons, ih hrest fun e' he' =>
      hkeys e' (List.mem_cons_of_mem e he'), hget ws e (hkeys e List.mem_cons_self)]
    by_cases hname : e.1 = name
    · have hnone : es.find? (·.1 = name) = none := by
        rw [List.find?_eq_none]
        intro e' he'
        have hlt := hfirst e' he'
        rw [hname] at hlt
        exact fun heq => hlt.ne (congrArg ciKey (of_decide_eq_true heq).symm)
      rw [hnone, if_pos hname, List.find?_cons_of_pos (by simpa using hname)]
      rfl
    · rw [if_neg hname, List.find?_cons_of_neg (by simpa using hname)]

end WebSocket

/-! ### The answer -/

/-- The rows that `explode` gives are those of all headers but the last one. -/
theorem field_eq (r : Request) (name : List Char) : field r name =
    ((r.headers.entries.dropLast.find? (·.1 = name)).map fun e => WebSocket.trim e.2).getD [] := by
  unfold field
  rcases List.eq_nil_or_concat' r.headers.entries with hempty | ⟨es, last, hes⟩
  · rw [hempty]
    rfl
  · have hsorted := r.headers.sorted
    rw [hes] at hsorted ⊢
    obtain ⟨-, -, hlast⟩ := List.pairwise_append.mp hsorted
    rw [List.dropLast_concat, List.find?_append]
    cases hfind : es.find? (·.1 = name) with
    | some e =>
      have hname : e.1 = name := by simpa using List.find?_some hfind
      have hlater : ∃ e' ∈ es ++ [last], ciKey name < ciKey e'.1 :=
        ⟨last, List.mem_append_right es List.mem_cons_self,
          hname ▸ hlast e (List.mem_of_find?_eq_some hfind) last List.mem_cons_self⟩
      exact if_pos hlater
    | none =>
      rw [Option.none_or]
      by_cases hname : last.1 = name
      · have hlater : ¬ ∃ e' ∈ es ++ [last], ciKey name < ciKey e'.1 := by
          rintro ⟨e', he', hlt⟩
          rcases List.mem_append.mp he' with hmem | hmem
          · exact lt_asymm hlt (hname ▸ hlast e' hmem last List.mem_cons_self)
          · rw [List.mem_singleton.mp hmem, hname] at hlt
            exact lt_irrefl _ hlt
        rw [List.find?_cons_of_pos (by simpa using hname)]
        exact if_neg hlater
      · rw [List.find?_cons_of_neg (by simpa using hname)]
        rfl

theorem rawHead_rows (r : Request) : r.rawHead =
    r.method ++ ' ' :: (r.uri ++ ' ' :: r.version) ++
      ((r.headers.entries.map WebSocket.row).flatMap (headerDelimiter ++ ·) ++
        (headerDelimiter ++ headerDelimiter)) := by
  have hrows : ∀ es : List (List Char × List Char), headerDelimiter ++ es.flatMap Parser.rawHeader =
      (es.map WebSocket.row).flatMap (headerDelimiter ++ ·) ++ headerDelimiter := by
    intro es
    induction es with
    | nil => rfl
    | cons e es ih =>
      rw [List.map_cons, List.flatMap_cons, List.flatMap_cons, List.append_assoc _ _ headerDelimiter,
        ← ih]
      simp only [Parser.rawHeader, WebSocket.row, List.append_assoc]
  have hline := hrows r.headers.entries
  unfold Request.rawHead Parser.rawHeaders
  simp only [List.append_assoc, List.cons_append]
  rw [← List.append_assoc headerDelimiter, hline, List.append_assoc]

theorem parseHandshake_raw {r : Request} (h : r.Sendable) :
    ∃ ws, WebSocket.new.parseHandshake r.raw = (.openingFrame, ws) ∧
      ws.key = field r "Sec-WebSocket-Key".toList ∧
      ws.protocol = field r "Sec-WebSocket-Protocol".toList := by
  have hnewline : '\n' ∉ r.method ++ ' ' :: (r.uri ++ ' ' :: r.version) := by
    simp only [List.mem_append, List.mem_cons, not_or]
    exact ⟨not_mem_of_token h.token (by decide), by decide, h.uri.2, by decide, h.version⟩
  have hrows : ∀ row ∈ r.headers.entries.map WebSocket.row, WebSocket.Row row := by
    intro row hrow
    obtain ⟨e, he, rfl⟩ := List.mem_map.mp hrow
    refine ⟨?_, ?_⟩
    · simp only [WebSocket.row, List.mem_append, not_or]
      exact ⟨not_mem_of_token (h.keys e he) (by decide), by decide, (h.values e he).newline⟩
    · simp only [WebSocket.row, List.length_append, show (": ".toList).length = 2 from rfl]
      omega
  have hraw : r.raw = r.method ++ ' ' :: (r.uri ++ ' ' :: r.version) ++
      ((r.headers.entries.map WebSocket.row).flatMap (headerDelimiter ++ ·) ++
        (headerDelimiter ++ (headerDelimiter ++ r.body))) := by
    rw [Request.raw, rawHead_rows]
    simp only [List.append_assoc]
  have hentries : r.headers.entries.map WebSocket.row ≠ [] := by
    intro hnil
    have hfind : r.headers.find "Host".toList = none := by
      rw [OrderedMap.find, List.map_eq_nil_iff.mp hnil]
      rfl
    exact h.host (by rw [Parser.getHeader, hfind]; rfl)
  have hfuel : (r.headers.entries.map WebSocket.row).length <
      (r.method ++ ' ' :: (r.uri ++ ' ' :: r.version) ++
        (r.headers.entries.map WebSocket.row).flatMap (headerDelimiter ++ ·)).length + 1 := by
    have hle := WebSocket.length_le_flatMap (r.headers.entries.map WebSocket.row)
    rw [List.length_append]
    omega
  have hkeys : ∀ e ∈ r.headers.entries.dropLast, e.1.all isTokenChar = true :=
    fun e he => h.keys e (List.mem_of_mem_dropLast he)
  have hsorted := r.headers.sorted.sublist (List.dropLast_sublist _)
  have hline := WebSocket.new.parseRow_requestLine h.token (r.uri ++ ' ' :: r.version)
  rw [WebSocket.parseHandshake, hraw, WebSocket.cut_head hnewline hrows]
  dsimp only
  rw [WebSocket.explode, WebSocket.explode_rows ⟨hnewline, by simp⟩ hrows hfuel,
    List.dropLast_cons_of_ne_nil hentries, List.foldl_cons, ← List.map_dropLast]
  refine ⟨_, rfl, ?_, ?_⟩
  · rw [field_eq, WebSocket.foldl_rows (fun ws e he => (ws.parseRow_row he).1) hsorted hkeys, hline.1]
    rfl
  · rw [field_eq, WebSocket.foldl_rows (fun ws e he => (ws.parseRow_row he).2) hsorted hkeys, hline.2]
    rfl

theorem length_trim_le (val : List Char) : (WebSocket.trim val).length ≤ val.length :=
  (List.length_dropWhile_le _ _).trans (List.rdropWhile_prefix _ _).length_le

theorem length_field_le (r : Request) (name : List Char) : (field r name).length ≤ r.headCost := by
  unfold field
  split
  · exact Nat.zero_le _
  · rename_i e hfind
    obtain ⟨s, t, hentries⟩ := List.append_of_mem (List.mem_of_find?_eq_some hfind)
    have hval : e.2.length ≤ r.headCost := by
      simp only [Request.headCost, Request.rawHead, Parser.rawHeaders, Parser.rawHeader, hentries,
        List.flatMap_append, List.flatMap_cons, List.length_append]
      omega
    split_ifs
    · exact (length_trim_le e.2).trans hval
    · exact Nat.zero_le _

/-- A handshake that is sent, however the stream is cut, is answered for its key and its protocol,
where another header follows each of them. -/
theorem handshake_answered {r : Request} (h : r.Sendable) {chunks : List (List Char)}
    (hne : chunks ≠ []) (after : List Char) (hchunks : chunks.flatten = r.raw ++ after)
    (hlimit : r.headCost + 3 * chunks.length ≤ maxHeaderSize) (memory : Vector UInt8 64)
    (digest : List UInt8) :
    ∃ r', Request.init.feed chunks = (.ok r.raw.length, r') ∧
      handShakeAnswer memory digest r' = some (some (switching
        (field r "Sec-WebSocket-Key".toList) (field r "Sec-WebSocket-Protocol".toList))) := by
  obtain ⟨hres, hstate⟩ := Request.feed_raw h hne hchunks hlimit
  have hraw : (Request.init.feed chunks).2.uncounted.raw = r.received.uncounted.raw :=
    congrArg Request.raw hstate
  change (Request.init.feed chunks).2.raw = r.raw at hraw
  obtain ⟨ws, hparse, hkey, hprotocol⟩ := parseHandshake_raw h
  have hshort : ws.key.length < 2^60 := by
    have hle := length_field_le r "Sec-WebSocket-Key".toList
    have hmax : maxHeaderSize < 2^60 := by decide
    rw [hkey]
    omega
  refine ⟨(Request.init.feed chunks).2, Prod.ext hres rfl, ?_⟩
  rw [handShakeAnswer, hraw, hparse]
  dsimp only
  rw [if_pos rfl, WebSocket.answerHandshake_eq hshort, hkey, hprotocol, Option.map_some]

def chatRequest : Request :=
  { Request.init with
    method := "GET".toList
    uri := "/chat".toList
    version := "HTTP/1.1".toList
    headers := ((OrderedMap.empty.set "Host".toList "a".toList).set "Sec-WebSocket-Key".toList
      "dGhlIHNhbXBsZSBub25jZQ==".toList).set "Upgrade".toList "websocket".toList }

theorem chatRequest_sendable : chatRequest.Sendable := by
  have hentries : chatRequest.headers.entries = [("Host".toList, "a".toList),
      ("Sec-WebSocket-Key".toList, "dGhlIHNhbXBsZSBub25jZQ==".toList),
      ("Upgrade".toList, "websocket".toList)] := by decide
  refine ⟨by decide, by decide, by decide, by decide, fun e he => ?_, fun e he => ?_, by decide,
    .inl ⟨by decide, rfl⟩⟩
  · rw [hentries] at he
    simp only [List.mem_cons, List.not_mem_nil, or_false] at he
    rcases he with rfl | rfl | rfl <;> decide
  · rw [hentries] at he
    simp only [List.mem_cons, List.not_mem_nil, or_false] at he
    rcases he with rfl | rfl | rfl <;> exact .of_ends (by decide) rfl rfl

theorem accept_chat : accept "dGhlIHNhbXBsZSBub25jZQ==".toList =
    "s3pPLMBiTxaQ9kYGzzhZRbK+xOo=".toList := by
  have hexec : WebSocket.acceptKey (Vector.replicate 64 0) [] "dGhlIHNhbXBsZSBub25jZQ==".toList =
      some "s3pPLMBiTxaQ9kYGzzhZRbK+xOo=".toList := by decide +kernel
  rw [WebSocket.acceptKey_eq (by decide)] at hexec
  exact Option.some.inj hexec

theorem chat_answered : ∃ r', Request.init.feed [chatRequest.raw.take 20, chatRequest.raw.drop 20] =
      (.ok chatRequest.raw.length, r') ∧
    handShakeAnswer (Vector.replicate 64 0) [] r' = some (some
      ("HTTP/1.1 101 Switching Protocols\r\nUpgrade: WebSocket\r\nConnection: Upgrade\r\n".toList ++
        "Sec-WebSocket-Accept: s3pPLMBiTxaQ9kYGzzhZRbK+xOo=\r\n\r\n".toList)) := by
  have hpieces : [chatRequest.raw.take 20, chatRequest.raw.drop 20].flatten =
      chatRequest.raw ++ [] := by
    simp only [List.flatten_cons, List.flatten_nil, List.append_nil, List.take_append_drop]
  have hkey : field chatRequest "Sec-WebSocket-Key".toList = "dGhlIHNhbXBsZSBub25jZQ==".toList := by
    decide
  have hprotocol : field chatRequest "Sec-WebSocket-Protocol".toList = [] := by decide
  have hswitching : switching "dGhlIHNhbXBsZSBub25jZQ==".toList [] =
      "HTTP/1.1 101 Switching Protocols\r\nUpgrade: WebSocket\r\nConnection: Upgrade\r\n".toList ++
        "Sec-WebSocket-Accept: s3pPLMBiTxaQ9kYGzzhZRbK+xOo=\r\n\r\n".toList := by
    unfold switching
    rw [if_neg (by decide), if_pos rfl, accept_chat]
    rfl
  obtain ⟨r', hfeed, hanswer⟩ := handshake_answered chatRequest_sendable (List.cons_ne_nil _ _) []
    hpieces (by decide +kernel) (Vector.replicate 64 0) []
  refine ⟨r', hfeed, hanswer.trans ?_⟩
  rw [hkey, hprotocol, hswitching]

end MSylar.Handshake
