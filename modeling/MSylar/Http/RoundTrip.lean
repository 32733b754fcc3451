import Mathlib.Data.List.DropRight
import MSylar.Http.Cuts

/-!
# Requests that are sent and received (protocol/http/impl/request.hpp, impl/parser.hpp)

`raw` writes a request and `consume` reads it back: a request line without blanks in its parts,
headers in the order of the map with values that have no blanks at their ends, and a body whose
length is that of the `Content-Length` header.
-/

namespace MSylar.Http
open MSylar.Lines MSylar.Text MSylar.Word

/-! ### Linear whitespace -/

/-- A header value that is read as it is written. -/
structure Trimmed (v : List Char) : Prop where
  newline : '\n' ∉ v
  first : ∀ c ∈ v.head?, isWhitespaceChar c = false
  last : ∀ c ∈ v.getLast?, isWhitespaceChar c = false

theorem Trimmed.of_ends {v : List Char} (hnewline : '\n' ∉ v)
    (hfirst : v.head?.any isWhitespaceChar = false)
    (hlast : v.getLast?.any isWhitespaceChar = false) : Trimmed v where
  newline := hnewline
  first := fun c hc => by rwa [Option.mem_def.mp hc] at hfirst
  last := fun c hc => by rwa [Option.mem_def.mp hc] at hlast

theorem extractLws_eq {s : List Char} (h : '\n' ∉ s) :
    extractLws s = s.dropWhile isWhitespaceChar := by
  unfold extractLws
  split
  · exact absurd (List.mem_cons_of_mem _ List.mem_cons_self) h
  · rfl

theorem extractAllLws_eq {s : List Char} (h : '\n' ∉ s) :
    extractAllLws s = s.dropWhile isWhitespaceChar := by
  have hdrop : '\n' ∉ s.dropWhile isWhitespaceChar :=
    fun hmem => h (List.dropWhile_sublist _ |>.subset hmem)
  have hagain : extractLws (s.dropWhile isWhitespaceChar) = s.dropWhile isWhitespaceChar := by
    rw [extractLws_eq hdrop, List.dropWhile_idempotent]
  unfold extractAllLws
  rw [extractAllLwsLoop, extractLws_eq h]
  split_ifs
  · cases s.length with
    | zero => rfl
    | succ n =>
      rw [extractAllLwsLoop, hagain]
      exact if_neg fun hne => hne.2 rfl
  · rfl

theorem dropWhile_head {p : Char → Bool} {v : List Char} (h : ∀ c ∈ v.head?, p c = false) :
    v.dropWhile p = v := by
  cases v with
  | nil => rfl
  | cons c v => exact List.dropWhile_cons_of_neg (by simp [h c rfl])

theorem stripLws_trimmed {v : List Char} (h : Trimmed v) {w : List Char}
    (hw : ∀ c ∈ w, isWhitespaceChar c = true) (hnewline : '\n' ∉ w) : stripLws (w ++ v) = v := by
  have hmem : '\n' ∉ w ++ v := by
    rw [List.mem_append]
    exact fun hmem => hmem.elim hnewline h.newline
  have hmem' : '\n' ∉ (w ++ v).reverse := by rwa [List.mem_reverse]
  have hfront : extractAllLws (w ++ v) = v := by
    rw [extractAllLws_eq hmem, List.dropWhile_append_of_pos hw, dropWhile_head h.first]
  have hend : v ≠ [] → extractAllLws (w ++ v).reverse = (w ++ v).reverse := by
    intro hempty
    rw [extractAllLws_eq hmem', dropWhile_head]
    rw [List.head?_reverse, List.getLast?_append_of_ne_nil w hempty]
    exact h.last
  unfold stripLws
  dsimp only
  rw [hfront]
  split_ifs with hempty hback
  · exact hempty.symm
  · rw [hend hempty] at hback
    exact absurd (List.append_eq_nil_iff.mp (List.reverse_eq_nil_iff.mp hback)).2 hempty
  · rw [hend hempty, List.length_reverse, List.take_length, List.length_append, Nat.add_sub_cancel,
      List.drop_left]

/-! ### One line -/

/-- What may stand in a line: the lines that `raw` writes contain no `\n` but the last one. -/
theorem cut_line {line : List Char} (h : '\n' ∉ line) (after : List Char) :
    cut headerDelimiter (line ++ (headerDelimiter ++ after)) = some (line, after) :=
  cut_pair (by decide) (cut_of_not_mem (List.mem_cons_of_mem _ List.mem_cons_self) h) after

theorem isTokenChar_ne {c d : Char} (hc : isTokenChar c = true) (hd : isTokenChar d = false) :
    c ≠ d := by
  rintro rfl
  rw [hc] at hd
  cases hd

theorem not_mem_of_token {s : List Char} (h : s.all isTokenChar = true) {d : Char}
    (hd : isTokenChar d = false) : d ∉ s := by
  intro hmem
  exact isTokenChar_ne (List.all_eq_true.mp h d hmem) hd rfl

theorem whitespace_not_token {c : Char} (h : isWhitespaceChar c = true) :
    isTokenChar c = false := by
  simp only [isWhitespaceChar, Bool.or_eq_true, decide_eq_true_eq] at h
  rcases h with rfl | rfl <;> decide

theorem token_trimmed {s : List Char} (h : s.all isTokenChar = true) : Trimmed s := by
  have hnot : ∀ c ∈ s, isWhitespaceChar c = false := by
    intro c hc
    by_contra hspace
    rw [Bool.not_eq_false] at hspace
    exact isTokenChar_ne (List.all_eq_true.mp h c hc) (whitespace_not_token hspace) rfl
  exact ⟨not_mem_of_token h (by decide), fun c hc => hnot c (List.mem_of_mem_head? hc),
    fun c hc => hnot c (List.mem_of_mem_getLast? hc)⟩

theorem cut_colon {key : List Char} (h : ':' ∉ key) (val : List Char) :
    cut [':'] (key ++ ':' :: val) = some (key, val) := by
  induction key with
  | nil => simp [cut]
  | cons c key ih =>
    have hc : ':' ≠ c := fun heq => h (heq ▸ List.mem_cons_self)
    have hkey := ih fun hmem => h (List.mem_cons_of_mem c hmem)
    rw [List.cons_append, cut, hkey, if_neg]
    · rfl
    · simpa using hc

theorem headerLine_raw {headers : HeaderList} {key val : List Char}
    (hkey : key.all isTokenChar = true) (hval : Trimmed val) (hnew : headers.find key = none) :
    Parser.headerLine headers (key ++ (": ".toList ++ val)) = (none, headers.set key val) := by
  have hcut : cut [':'] (key ++ (": ".toList ++ val)) = some (key, ' ' :: val) :=
    cut_colon (not_mem_of_token hkey (by decide)) (' ' :: val)
  have hstrip : stripLws key = key :=
    stripLws_trimmed (token_trimmed hkey) (w := []) (fun c hc => by cases hc) List.not_mem_nil
  have hstrip' : stripLws (' ' :: val) = val :=
    stripLws_trimmed hval (w := [' ']) (List.forall_mem_singleton.mpr rfl) (by decide)
  simp only [Parser.headerLine, Parser.processHeader, hcut, hstrip, hstrip', Parser.appendHeader,
    hkey, if_true, Parser.getHeader, hnew, Option.getD_none]

/-! ### Header lines -/

/-- A reader that takes headers, where `f` is the state with these headers. -/
structure ReadsHeaders {σ : Type*} (R : Reader σ Fault Char) (f : HeaderList → σ) : Prop where
  pat : R.pat = headerDelimiter
  fee : R.fee = 3
  limit : R.limit = maxHeaderSize
  process : ∀ headers line, R.process (f headers) line =
    ((Parser.headerLine headers line).1, f (Parser.headerLine headers line).2)

/-- What the lines of some headers cost. -/
def headersCost (es : List (List Char × List Char)) : ℕ :=
  (es.map fun e => (Parser.rawHeader e).length + 1).sum

theorem headersCost_eq (es : List (List Char × List Char)) :
    headersCost es = (es.flatMap Parser.rawHeader).length + es.length := by
  induction es with
  | nil => rfl
  | cons e es ih =>
    rw [headersCost, List.map_cons, List.sum_cons] at *
    rw [ih, List.flatMap_cons, List.length_append, List.length_cons]
    omega

section Headers
variable {σ : Type*} {R : Reader σ Fault Char} {f : HeaderList → σ}

theorem ReadsHeaders.read_header (h : ReadsHeaders R f) {count : ℕ} {headers : HeaderList}
    {key val : List Char} (hkey : key.all isTokenChar = true) (hval : Trimmed val)
    (hnew : headers.find key = none)
    (hlimit : count + ((Parser.rawHeader (key, val)).length + 1) ≤ maxHeaderSize)
    (after : List Char) :
    R.read count (f headers) (Parser.rawHeader (key, val) ++ after) =
      R.read (count + ((Parser.rawHeader (key, val)).length + 1)) (f (headers.set key val)) after := by
  have hnewline : '\n' ∉ key ++ (": ".toList ++ val) := by
    simp only [List.mem_append, not_or]
    exact ⟨not_mem_of_token hkey (by decide), by decide, hval.newline⟩
  have hraw : Parser.rawHeader (key, val) ++ after =
      (key ++ (": ".toList ++ val)) ++ (headerDelimiter ++ after) := by
    simp only [Parser.rawHeader, List.append_assoc]
  have hlength : (Parser.rawHeader (key, val)).length + 1 =
      (key ++ (": ".toList ++ val)).length + 3 := by
    simp only [Parser.rawHeader, headerDelimiter, List.length_append, List.length_cons,
      List.length_nil]
    omega
  have hcut : cut R.pat (Parser.rawHeader (key, val) ++ after) =
      some (key ++ (": ".toList ++ val), after) := by
    rw [h.pat, hraw]
    exact cut_line hnewline after
  have hline : R.process (f headers) (key ++ (": ".toList ++ val)) =
      (none, f (headers.set key val)) := by
    rw [h.process, headerLine_raw hkey hval hnew]
  have hlimit' : count + ((key ++ (": ".toList ++ val)).length + R.fee) ≤ R.limit := by
    rw [h.fee, h.limit, ← hlength]
    exact hlimit
  rw [R.read_line hcut (by simp) hlimit' hline, h.fee, hlength]

theorem ReadsHeaders.read (h : ReadsHeaders R f) {es : List (List Char × List Char)}
    {headers : HeaderList}
    (hsorted : (headers.entries ++ es).Pairwise fun a b => ciKey a.1 < ciKey b.1)
    (hkeys : ∀ e ∈ es, e.1.all isTokenChar = true) (hvalues : ∀ e ∈ es, Trimmed e.2) {count : ℕ}
    (hlimit : count + (headersCost es + 3) ≤ maxHeaderSize) (after : List Char) :
    R.read count (f headers) (es.flatMap Parser.rawHeader ++ (headerDelimiter ++ after)) =
      .blank (count + (headersCost es + 3)) (f ⟨headers.entries ++ es, hsorted⟩) after := by
  induction es generalizing headers count with
  | nil =>
    have hcut : cut R.pat (headerDelimiter ++ after) = some ([], after) := by
      rw [h.pat]
      exact cut_line List.not_mem_nil after
    have hlimit' : count + R.fee ≤ R.limit := by
      rw [h.fee, h.limit]
      exact hlimit
    have hread := R.read_blank hcut hlimit' (f headers)
    rw [h.fee] at hread
    simp only [List.append_nil]
    exact hread
  | cons e es ih =>
    obtain ⟨key, val⟩ := e
    have hkey : key.all isTokenChar = true := hkeys _ List.mem_cons_self
    have hval : Trimmed val := hvalues _ List.mem_cons_self
    have hbefore : ∀ e ∈ headers.entries, ciKey e.1 < ciKey key :=
      fun e he => (List.pairwise_append.mp hsorted).2.2 e he _ List.mem_cons_self
    have hset : (headers.set key val).entries = headers.entries ++ [(key, val)] :=
      OrderedMap.entries_set_last hbefore val
    have hcost : headersCost ((key, val) :: es) =
        (Parser.rawHeader (key, val)).length + 1 + headersCost es := by
      simp only [headersCost, List.map_cons, List.sum_cons]
    have hsorted' : ((headers.set key val).entries ++ es).Pairwise
        fun a b => ciKey a.1 < ciKey b.1 := by
      rw [hset, List.append_assoc]
      exact hsorted
    have hheaders : (⟨(headers.set key val).entries ++ es, hsorted'⟩ : HeaderList) =
        ⟨headers.entries ++ (key, val) :: es, hsorted⟩ := by
      refine OrderedMap.ext ?_
      dsimp only
      rw [hset, List.append_assoc, List.singleton_append]
    rw [hcost] at hlimit ⊢
    rw [List.flatMap_cons, List.append_assoc,
      h.read_header hkey hval (OrderedMap.find_of_forall_lt hbefore) (by omega),
      ih hsorted' (fun e he => hkeys e (List.mem_cons_of_mem _ he))
        (fun e he => hvalues e (List.mem_cons_of_mem _ he)) (by omega), hheaders]
    congr 1
    omega

end Headers

/-! ### A request -/

namespace Request

/-- A request that `raw` writes so that it can be read back. -/
structure Sendable (r : Request) : Prop where
  method : r.method ≠ []
  token : r.method.all isTokenChar = true
  uri : ' ' ∉ r.uri ∧ '\n' ∉ r.uri
  version : '\n' ∉ r.version
  keys : ∀ e ∈ r.headers.entries, e.1.all isTokenChar = true
  values : ∀ e ∈ r.headers.entries, Trimmed e.2
  host : r.getHeader "Host".toList ≠ []
  body : r.getHeader "Content-Length".toList = [] ∧ r.body = [] ∨
    r.getHeader "Content-Length".toList ≠ [] ∧
      strtoul (r.getHeader "Content-Length".toList) = r.body.length ∧ r.body.length ≤ maxBodySize

theorem process_raw {r : Request} (h : r.Sendable) {s : Request} (hs : s.method = []) :
    s.processLine (r.method ++ ' ' :: (r.uri ++ ' ' :: r.version)) =
      (none, { s with method := r.method, uri := r.uri, version := r.version }) := by
  have hspace : ' ' ∉ r.method := not_mem_of_token h.token (by decide)
  rw [processLine, if_pos hs, process_of_mem (by simp), before_append_cons hspace,
    after_append_cons hspace, if_pos h.token, if_pos (by simp), before_append_cons h.uri.1,
    after_append_cons h.uri.1]

theorem read_raw_line {count : ℕ} {s s' : Request} {line : List Char} (hnewline : '\n' ∉ line)
    (hne : line ≠ []) (hlimit : count + (line.length + 3) ≤ maxHeaderSize)
    (hline : s.processLine line = (none, s')) (after : List Char) :
    reader.read count s (line ++ (headerDelimiter ++ after)) =
      reader.read (count + (line.length + 3)) s' after :=
  reader.read_line (cut_line hnewline after) hne hlimit hline

theorem readsHeaders {s : Request} (hmethod : s.method ≠ []) :
    ReadsHeaders reader fun headers => { s with headers := headers } where
  pat := rfl
  fee := rfl
  limit := rfl
  process headers line := by
    change processLine _ line = _
    rw [processLine, if_neg hmethod, Parser.processHeader_eq]

/-- What `consume` charges for the head of `r`. -/
def headCost (r : Request) : ℕ := r.rawHead.length + r.headers.entries.length + 2

/-- The request that is read back. -/
def received (r : Request) : Request :=
  { r with
    headerBytes := r.headCost
    bodyBytesNeeded := 0
    bodyBytesMax := maxBodySize
    bodyEncoding := if r.getHeader "Content-Length".toList = [] then .unknown else .plain
    buf := none
    ready := true }

theorem read_raw {r : Request} (h : r.Sendable) (hcost : r.headCost ≤ maxHeaderSize)
    (after : List Char) : reader.read 0 init (r.rawHead ++ after) =
      .blank r.headCost { init with
        method := r.method, uri := r.uri, version := r.version, headers := r.headers } after := by
  have hnewline : '\n' ∉ r.method ++ ' ' :: (r.uri ++ ' ' :: r.version) := by
    simp only [List.mem_append, List.mem_cons, not_or]
    exact ⟨not_mem_of_token h.token (by decide), by decide, h.uri.2, by decide, h.version⟩
  have hraw : r.rawHead ++ after = (r.method ++ ' ' :: (r.uri ++ ' ' :: r.version)) ++
      (headerDelimiter ++ (r.headers.entries.flatMap Parser.rawHeader ++
        (headerDelimiter ++ after))) := by
    simp only [rawHead, Parser.rawHeaders, List.append_assoc, List.cons_append]
  have hsum : r.headCost = (r.method ++ ' ' :: (r.uri ++ ' ' :: r.version)).length + 3 +
      (headersCost r.headers.entries + 3) := by
    simp only [headCost, headersCost_eq, rawHead, Parser.rawHeaders, headerDelimiter,
      List.length_append, List.length_cons, List.length_nil]
    omega
  rw [hsum] at hcost ⊢
  rw [hraw, read_raw_line hnewline (by simp) (by omega) (process_raw h rfl),
    Nat.zero_add]
  exact @ReadsHeaders.read _ _ _
    (readsHeaders (s := { init with method := r.method, uri := r.uri, version := r.version }) h.method)
    _ .empty r.headers.sorted h.keys h.values _ hcost after

/-- The request after its head. -/
def opened (r : Request) : Request :=
  { init with
    headerBytes := r.headCost, buf := none
    method := r.method, uri := r.uri, version := r.version, headers := r.headers }

theorem consume_rawHead {r : Request} (h : r.Sendable) (hcost : r.headCost ≤ maxHeaderSize)
    (bytes : List Char) : init.consume (r.rawHead ++ bytes) =
      if r.getHeader "Content-Length".toList = [] then
        (.ok r.rawHead.length, { r.opened with ready := true })
      else
        (.ok (r.rawHead.length + min r.body.length bytes.length),
          takeBody { r.opened with bodyBytesNeeded := r.body.length, bodyEncoding := .plain }
            bytes) := by
  have hhost : ¬ (r.method = [] ∨ r.getHeader "Host".toList = []) :=
    fun hor => hor.elim h.method h.host
  have hsuffix := List.suffix_append r.rawHead bytes
  have hlength : (r.rawHead ++ bytes).length - bytes.length = r.rawHead.length := by
    rw [List.length_append, Nat.add_sub_cancel]
  have hconsume := init_waiting.consume_eq rfl (r.rawHead ++ bytes)
  rw [show init.buf.getD [] = [] from rfl, List.nil_append,
    show init.headerBytes = 0 from rfl, read_raw h hcost bytes] at hconsume
  rw [hconsume]
  let s : Request := r.opened.recount r.headCost (some (r.rawHead ++ bytes))
  change s.blankLine (r.rawHead ++ bytes) bytes = _
  rcases h.body with ⟨hnone, _⟩ | ⟨hsome, hstrtoul, hmax⟩
  · rw [if_pos hnone, blankLine_complete (r := s) hhost hnone hsuffix.length_le, hlength]
    rfl
  · have hneeded : strtoul (s.getHeader "Content-Length".toList) = r.body.length := hstrtoul
    have hle : strtoul (s.getHeader "Content-Length".toList) ≤ s.bodyBytesMax :=
      hneeded.trans_le hmax
    rw [if_neg hsome, blankLine_body (r := s) hhost hsome hle hsuffix, hlength, hneeded]
    rfl

/-- A request that was written is read back, however much follows it, and nothing of what follows is
used. -/
theorem consume_raw {r : Request} (h : r.Sendable) (hcost : r.headCost ≤ maxHeaderSize)
    (after : List Char) : init.consume (r.raw ++ after) = (.ok r.raw.length, r.received) := by
  have hraw : r.raw ++ after = r.rawHead ++ (r.body ++ after) := List.append_assoc _ _ _
  rw [hraw, consume_rawHead h hcost]
  rcases h.body with ⟨hnone, hbody⟩ | ⟨hsome, _, _⟩
  · rw [if_pos hnone, raw, received, if_pos hnone, hbody, List.append_nil]
    rfl
  · have hmin : min r.body.length (r.body ++ after).length = r.body.length :=
      Nat.min_eq_left (by simp)
    rw [if_neg hsome, hmin, received, if_neg hsome, raw, List.length_append, takeBody]
    dsimp only
    rw [List.take_left, List.length_append, Nat.sub_add_eq, Nat.sub_self, Nat.zero_sub,
      decide_eq_true (Nat.le_add_right _ _)]
    rfl

theorem charge_raw {r : Request} (h : r.Sendable) (hcost : r.headCost ≤ maxHeaderSize)
    (after : List Char) : init.charge (r.raw ++ after) = r.headCost := by
  have hraw : r.raw ++ after = r.rawHead ++ (r.body ++ after) := List.append_assoc _ _ _
  have hread := read_raw h hcost (r.body ++ after)
  rw [← hraw] at hread
  change (reader.read 0 init ([] ++ (r.raw ++ after))).charged = r.headCost
  rw [List.nil_append, hread]
  rfl

theorem feed_raw {r : Request} (h : r.Sendable) {chunks : List (List Char)} (hne : chunks ≠ [])
    {after : List Char} (hchunks : chunks.flatten = r.raw ++ after)
    (hlimit : r.headCost + 3 * chunks.length ≤ maxHeaderSize) :
    (init.feed chunks).1 = .ok r.raw.length ∧
      (init.feed chunks).2.uncounted = r.received.uncounted := by
  have hcost : r.headCost ≤ maxHeaderSize := (Nat.le_add_right _ _).trans hlimit
  have hwithin : (init.feed chunks).1 ≠ .error headerLimit := by
    refine feed_within init_waiting ?_
    rw [hchunks, charge_raw h hcost]
    exact hlimit
  obtain ⟨hres, hstate⟩ := feed_agrees init_waiting hne hwithin
  rw [hchunks, consume_raw h hcost] at hres hstate
  exact ⟨hres.symm, (hstate _ rfl).symm⟩

/-- A request that is sent arrives, however the stream is cut and whatever follows it, where its head
leaves room for the separators that the calls are charged with. -/
theorem sent_received {r : Request} (h : r.Sendable) {chunks : List (List Char)} (hne : chunks ≠ [])
    (after : List Char) (hchunks : chunks.flatten = r.raw ++ after)
    (hlimit : r.headCost + 3 * chunks.length ≤ maxHeaderSize) :
    ∃ r', init.feed chunks = (.ok r.raw.length, r') ∧ r'.uncounted = r.received.uncounted := by
  obtain ⟨hres, hstate⟩ := feed_raw h hne hchunks hlimit
  exact ⟨(init.feed chunks).2, Prod.ext hres rfl, hstate⟩

/-! ### Bodies that are set -/

theorem digit_ne {n : ℕ} {c d : Char} (hc : c ∈ Nat.toDigits 10 n) (hd : d.isDigit = false) :
    c ≠ d := by
  rintro rfl
  have hdigit := Nat.isDigit_of_mem_toDigits (by decide) (by decide) hc
  rw [hd] at hdigit
  cases hdigit

theorem digit_not_space {n : ℕ} {c : Char} (hc : c ∈ Nat.toDigits 10 n) :
    (c = ' ' || ('\t' ≤ c && c ≤ '\r')) = false := by
  have hdigit := Nat.isDigit_of_mem_toDigits (by decide) (by decide) hc
  have hlarge : ¬ c ≤ '\r' := by
    simp only [Char.isDigit, Bool.and_eq_true, decide_eq_true_eq] at hdigit
    exact fun hle => absurd (hdigit.1.trans hle) (by decide)
  rw [decide_eq_false (digit_ne hc (by decide)), decide_eq_false hlarge, Bool.and_false,
    Bool.or_false]

theorem head_toDigits_ne {n : ℕ} {d : Char} (hd : d.isDigit = false) :
    ¬ (Nat.toDigits 10 n).head? = some d :=
  fun hsome => digit_ne (List.mem_of_mem_head? hsome) hd rfl

theorem dropWhile_toDigits (n : ℕ) : ((Nat.toDigits 10 n).dropWhile
    fun c => c = ' ' || ('\t' ≤ c && c ≤ '\r')) = Nat.toDigits 10 n :=
  dropWhile_head fun _ hc => digit_not_space (List.mem_of_mem_head? hc)

theorem takeWhile_toDigits (n : ℕ) :
    (Nat.toDigits 10 n).takeWhile Char.isDigit = Nat.toDigits 10 n :=
  List.takeWhile_eq_self_iff.mpr fun _ hc =>
    Nat.isDigit_of_mem_toDigits (by decide) (by decide) hc

theorem strtoul_toDigits {n : ℕ} (h : n < 2^64) : strtoul (Nat.toDigits 10 n) = n := by
  have hminus := @head_toDigits_ne n '-' (by decide)
  have hplus := @head_toDigits_ne n '+' (by decide)
  have hle : ¬ uint64Max < n := by
    unfold uint64Max
    omega
  unfold strtoul
  rw [dropWhile_toDigits]
  simp only [hminus, hplus, takeWhile_toDigits, Nat.ofDigitChars_ten_toDigits, hle, or_self,
    if_false]

theorem toDigits_trimmed (n : ℕ) : Trimmed (Nat.toDigits 10 n) := by
  have hnot : ∀ c ∈ Nat.toDigits 10 n, isWhitespaceChar c = false := by
    intro c hc
    rw [isWhitespaceChar, decide_eq_false (digit_ne hc (by decide)),
      decide_eq_false (digit_ne hc (by decide)), Bool.or_false]
  exact ⟨fun hmem => digit_ne hmem (by decide) rfl, fun c hc => hnot c (List.mem_of_mem_head? hc),
    fun c hc => hnot c (List.mem_of_mem_getLast? hc)⟩

end Request

namespace Parser

theorem setBody_body (p : Parser) (value : List Char) : (p.setBody value).body = value := by
  unfold setBody
  split_ifs with hempty
  · exact hempty.symm
  · rfl

theorem setBody_version (p : Parser) (value : List Char) :
    (p.setBody value).version = p.version := by
  unfold setBody
  split_ifs <;> rfl

theorem setBody_keys (p : Parser) (h : ∀ e ∈ p.headers.entries, e.1.all isTokenChar = true)
    (value : List Char) : ∀ e ∈ (p.setBody value).headers.entries, e.1.all isTokenChar = true := by
  intro e he
  unfold setBody at he
  split_ifs at he
  · exact h e (List.mem_filter.mp he).1
  · rcases OrderedMap.mem_assign_value he with hold | ⟨_, hkey | ⟨val, hold⟩⟩
    · exact h e hold
    · rw [hkey]
      decide
    · exact h (e.1, val) hold

theorem setBody_values (p : Parser) (h : ∀ e ∈ p.headers.entries, Trimmed e.2)
    (value : List Char) : ∀ e ∈ (p.setBody value).headers.entries, Trimmed e.2 := by
  intro e he
  unfold setBody at he
  split_ifs at he
  · exact h e (List.mem_filter.mp he).1
  · rcases OrderedMap.mem_assign_value he with hold | ⟨hval, _⟩
    · exact h e hold
    · rw [hval]
      exact Request.toDigits_trimmed _

theorem setBody_length (p : Parser) (value : List Char) :
    (p.setBody value).getHeader "Content-Length".toList =
      if value = [] then [] else Nat.toDigits 10 value.length := by
  unfold setBody
  split_ifs
  · rw [getHeader, removeHeader, OrderedMap.find_erase, if_pos rfl]
    rfl
  · rw [getHeader, replaceHeader, OrderedMap.find_set, if_pos rfl]
    rfl

theorem getHeader_setBody (p : Parser) {key : List Char}
    (hother : ciKey "Content-Length".toList ≠ ciKey key) (value : List Char) :
    (p.setBody value).getHeader key = p.getHeader key := by
  unfold setBody
  split_ifs
  · rw [getHeader, removeHeader, OrderedMap.find_erase, if_neg hother, ← getHeader]
  · rw [getHeader, replaceHeader, OrderedMap.find_set, if_neg hother, ← getHeader]

end Parser

namespace Request

/-- `set_body` makes a request that can be sent. -/
theorem Sendable.setBody {r : Request} (h : r.Sendable) {value : List Char}
    (hmax : value.length ≤ maxBodySize) :
    Sendable { r with toParser := r.toParser.setBody value } := by
  refine ⟨h.method, h.token, h.uri, ?_, r.toParser.setBody_keys h.keys value,
    r.toParser.setBody_values h.values value, ?_, ?_⟩
  · change '\n' ∉ (r.toParser.setBody value).version
    rw [Parser.setBody_version]
    exact h.version
  · change (r.toParser.setBody value).getHeader _ ≠ []
    rw [r.toParser.getHeader_setBody (by decide)]
    exact h.host
  · change (r.toParser.setBody value).getHeader _ = [] ∧ (r.toParser.setBody value).body = [] ∨
      (r.toParser.setBody value).getHeader _ ≠ [] ∧ strtoul ((r.toParser.setBody value).getHeader _) =
        (r.toParser.setBody value).body.length ∧ (r.toParser.setBody value).body.length ≤ maxBodySize
    rw [Parser.setBody_length, Parser.setBody_body]
    by_cases hempty : value = []
    · rw [if_pos hempty]
      exact .inl ⟨rfl, hempty⟩
    · rw [if_neg hempty]
      exact .inr ⟨Nat.toDigits_ne_nil, strtoul_toDigits (lt_of_le_of_lt hmax (by decide)), hmax⟩

def simplePost : Request :=
  { init with
    method := "POST".toList
    uri := "/form".toList
    version := "HTTP/1.1".toList
    headers := OrderedMap.empty.set "Host".toList "a".toList }

theorem simplePost_sendable : simplePost.Sendable := by
  have hentries : ∀ e ∈ simplePost.headers.entries, e = ("Host".toList, "a".toList) := by
    intro e he
    exact List.mem_singleton.mp he
  refine ⟨by decide, by decide, by decide, by decide, fun e he => ?_, fun e he => ?_, by decide,
    .inl ⟨by decide, rfl⟩⟩
  · rw [hentries e he]
    decide
  · rw [hentries e he]
    exact .of_ends (by decide) rfl rfl

theorem post_received_in_pieces :
    let r : Request := { simplePost with toParser := simplePost.setBody "hello".toList }
    ∃ r', init.feed [r.raw.take 20, r.raw.drop 20 ++ "GET".toList] = (.ok r.raw.length, r') ∧
      r'.uncounted = r.received.uncounted := by
  intro r
  have hsend : r.Sendable := simplePost_sendable.setBody (by decide)
  refine sent_received hsend (List.cons_ne_nil _ _) "GET".toList ?_ ?_
  · simp only [List.flatten_cons, List.flatten_nil, List.append_nil]
    rw [← List.append_assoc, List.take_append_drop]
  · decide +kernel

end Request

end MSylar.Http
