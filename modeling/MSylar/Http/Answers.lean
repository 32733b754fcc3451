import MSylar.Http.Response

/-!
# Responses that are written and read back (impl/response.hpp, http.hpp:90-146, httpServer.cc:119-139)

A client reads what `co_sendResp` writes. A piece that ends inside the head leaves the reader where
the rest of the head leads to the blank line (`Awaits`), and one that ends inside the body leaves it
with the rest of the body to read (`InBody`).
-/

namespace MSylar.Http
open MSylar.Lines MSylar.Text MSylar.Word

/-! ### Headers that are read as they are written -/

structure Parser.Legible (p : Parser) : Prop where
  keys : ∀ e ∈ p.headers.entries, e.1.all isTokenChar = true
  values : ∀ e ∈ p.headers.entries, Trimmed e.2
  length : p.getHeader "Content-Length".toList =
    if p.body = [] then [] else Nat.toDigits 10 p.body.length
  small : p.body.length < 2^64

namespace Parser

theorem Legible.set {p : Parser} (h : p.Legible) {key val : List Char}
    (hkey : key.all isTokenChar = true) (hother : ciKey key ≠ ciKey "Content-Length".toList)
    (hval : Trimmed val) : Legible { p with headers := p.headers.set key val } := by
  refine ⟨fun e he => ?_, fun e he => ?_, ?_, h.small⟩
  · rcases OrderedMap.mem_assign_value he with hold | ⟨_, rfl | ⟨val', hold⟩⟩
    · exact h.keys e hold
    · exact hkey
    · exact h.keys (e.1, val') hold
  · rcases OrderedMap.mem_assign_value he with hold | ⟨hval', _⟩
    · exact h.values e hold
    · rw [hval']
      exact hval
  · rw [← h.length, getHeader, getHeader, OrderedMap.find_set, if_neg hother]

theorem Legible.removeHeader {p : Parser} (h : p.Legible) {key : List Char}
    (hother : ciKey key ≠ ciKey "Content-Length".toList) : (p.removeHeader key).Legible := by
  have hentries : ∀ e ∈ (p.removeHeader key).headers.entries, e ∈ p.headers.entries :=
    fun e he => (List.mem_filter.mp he).1
  refine ⟨fun e he => h.keys e (hentries e he), fun e he => h.values e (hentries e he), ?_, h.small⟩
  change _ = if p.body = [] then [] else Nat.toDigits 10 p.body.length
  rw [← h.length, getHeader, getHeader, Parser.removeHeader, OrderedMap.find_erase, if_neg hother]

theorem Legible.setBody {p : Parser} (h : p.Legible) {value : List Char}
    (hsmall : value.length < 2^64) : (p.setBody value).Legible := by
  refine ⟨p.setBody_keys h.keys value, p.setBody_values h.values value, ?_, ?_⟩
  · rw [p.setBody_length, p.setBody_body]
  · rw [p.setBody_body]
    exact hsmall

theorem Legible.getHeader_trimmed {p : Parser} (h : p.Legible) {key : List Char}
    (hne : p.getHeader key ≠ []) : Trimmed (p.getHeader key) := by
  unfold getHeader at hne ⊢
  cases hfind : p.headers.find key with
  | none =>
    rw [hfind] at hne
    exact absurd rfl hne
  | some val =>
    obtain ⟨e, he, rfl⟩ := Option.map_eq_some_iff.mp hfind
    exact h.values e (List.mem_of_find?_eq_some he)

/-- A value that is added to another one. -/
theorem trimmed_join {old val : List Char} (hold : Trimmed old) (hne : old ≠ []) (hval : Trimmed val)
    (hne' : val ≠ []) : Trimmed (old ++ (", ".toList ++ val)) where
  newline := by
    simp only [List.mem_append, not_or]
    exact ⟨hold.newline, by decide, hval.newline⟩
  first := by
    rw [List.head?_append_of_ne_nil old hne]
    exact hold.first
  last := by
    rw [← List.append_assoc, List.getLast?_append_of_ne_nil _ hne']
    exact hval.last

theorem Legible.appendHeader {p : Parser} (h : p.Legible) {key val : List Char}
    (hother : ciKey key ≠ ciKey "Content-Length".toList) (hval : Trimmed val) (hne : val ≠ []) :
    (p.appendHeader key val).2.Legible := by
  unfold Parser.appendHeader
  split_ifs with hkey hold
  · exact h.set hkey hother hval
  · exact h.set hkey hother (trimmed_join (h.getHeader_trimmed hold) hold hval hne)
  · exact h

end Parser

namespace Response

/-! ### The head -/

/-- A response that `raw` writes so that it can be read back. -/
structure Sendable (r : Response) : Prop where
  version : ' ' ∉ r.version ∧ '\n' ∉ r.version
  code : -2^31 ≤ r.statusCode ∧ r.statusCode < 2^31
  msg : '\n' ∉ r.statusMsg
  legible : r.toParser.Legible

/-- `s` after the head of `r`. -/
def opened (r s : Response) : Response :=
  { s with
    version := r.version, statusCode := r.statusCode, statusMsg := r.statusMsg
    headers := r.headers, state := .headers }

theorem process_eq (r : Response) (line : List Char) : r.process line =
    if ' ' ∈ line then
      if ' ' ∈ after ' ' line then
        match extractInt (before ' ' (after ' ' line)) with
        | none => (some (.exception "Unable to parse response code" .badRequest),
            { r with version := before ' ' line })
        | some code => (none, { r with version := before ' ' line, statusCode := code
                                       statusMsg := after ' ' (after ' ' line) })
      else
        (some (.exception "Invalid request line" .badRequest), { r with version := before ' ' line })
    else (some (.exception "Invalid response line" .badRequest), r) := rfl

theorem process_raw {r : Response} (h : r.Sendable) {s : Response} (hs : s.state = .responseLine) :
    s.processLine (r.version ++ ' ' :: (intText r.statusCode ++ ' ' :: r.statusMsg)) =
      (none, { s with version := r.version, statusCode := r.statusCode, statusMsg := r.statusMsg
                      state := .headers }) := by
  have hspace : ' ' ∉ intText r.statusCode := not_mem_intText (by decide) (by decide)
  rw [processLine, if_pos hs, process, if_pos (by simp), before_append_cons h.version.1,
    after_append_cons h.version.1]
  dsimp only
  rw [if_pos (by simp), before_append_cons hspace, after_append_cons hspace,
    extractInt_intText h.code]
  rfl

theorem readsHeaders {s : Response} (hs : s.state = .headers) :
    ReadsHeaders reader fun headers => { s with headers := headers } where
  pat := rfl
  fee := rfl
  limit := rfl
  process headers line := by
    have hstate : ¬ s.state = .responseLine := by
      rw [hs]
      decide
    change processLine _ line = _
    rw [processLine, if_neg hstate, Parser.processHeader_eq]

/-- What `consume` charges for the head of `r`. -/
def headCost (r : Response) : ℕ := r.rawHead.length + r.headers.entries.length + 2

theorem read_raw {r : Response} (h : r.Sendable) {s : Response} (hs : s.state = .responseLine)
    (hheaders : s.headers = .empty) {count : ℕ} (hcost : count + r.headCost ≤ maxHeaderSize)
    (after : List Char) :
    reader.read count s (r.rawHead ++ after) = .blank (count + r.headCost) (opened r s) after := by
  have hspace : '\n' ∉ r.version ++ ' ' :: (intText r.statusCode ++ ' ' :: r.statusMsg) := by
    simp only [List.mem_append, List.mem_cons, not_or]
    exact ⟨h.version.2, by decide, not_mem_intText (by decide) (by decide), by decide, h.msg⟩
  have hraw : r.rawHead ++ after =
      (r.version ++ ' ' :: (intText r.statusCode ++ ' ' :: r.statusMsg)) ++
        (headerDelimiter ++ (r.headers.entries.flatMap Parser.rawHeader ++
          (headerDelimiter ++ after))) := by
    simp only [rawHead, Parser.rawHeaders, List.append_assoc, List.cons_append]
  have hsum : count + r.headCost =
      count + ((r.version ++ ' ' :: (intText r.statusCode ++ ' ' :: r.statusMsg)).length + 3) +
        (headersCost r.headers.entries + 3) := by
    simp only [headCost, headersCost_eq, rawHead, Parser.rawHeaders, headerDelimiter,
      List.length_append, List.length_cons, List.length_nil]
    omega
  rw [hsum] at hcost ⊢
  have hline := reader.read_line (cut_line hspace
    (r.headers.entries.flatMap Parser.rawHeader ++ (headerDelimiter ++ after))) (by simp)
    ((Nat.le_add_right _ _).trans hcost) (process_raw h hs)
  have hstart : ({ s with version := r.version, statusCode := r.statusCode
                          statusMsg := r.statusMsg, state := .headers } : Response) =
      { opened r s with headers := .empty } := by
    unfold opened
    rw [← hheaders]
  rw [hstart] at hline
  rw [hraw]
  exact hline.trans (@ReadsHeaders.read _ _ _ (readsHeaders (s := opened r s) rfl) _ .empty
    r.headers.sorted h.legible.keys h.legible.values _ hcost after)

/-! ### Bytes of the head -/

/-- A line does not depend on the counters and the buffer. -/
def recount (read count : ℕ) (buf : Option (List Char)) (r : Response) : Response :=
  { r with read := read, headerBytes := count, buf := buf }

theorem processLine_recount (read count : ℕ) (buf : Option (List Char)) (r : Response)
    (line : List Char) : (r.recount read count buf).processLine line =
      ((r.processLine line).1, (r.processLine line).2.recount read count buf) := by
  unfold processLine
  change (if r.state = .responseLine then _ else _) = _
  split_ifs
  · rw [process_eq, process_eq]
    by_cases hspace : ' ' ∈ line
    · rw [if_pos hspace, if_pos hspace]
      by_cases hspace' : ' ' ∈ after ' ' line
      · rw [if_pos hspace', if_pos hspace']
        cases extractInt (before ' ' (after ' ' line)) <;> rfl
      · rw [if_neg hspace', if_neg hspace']
        rfl
    · rw [if_neg hspace, if_neg hspace]
  · dsimp only
    rw [Parser.processHeader_eq, Parser.processHeader_eq]
    rfl

/-- A response that still reads its head. -/
def InHead (r : Response) : Prop := r.state = .responseLine ∨ r.state = .headers

theorem InHead.processLine {r : Response} (h : r.InHead) (line : List Char) :
    (r.processLine line).2.InHead := by
  unfold Response.processLine
  split_ifs with hstate
  · rw [process_eq]
    by_cases hspace : ' ' ∈ line
    · rw [if_pos hspace]
      by_cases hspace' : ' ' ∈ after ' ' line
      · rw [if_pos hspace']
        cases extractInt (before ' ' (after ' ' line)) with
        | none => exact .inl hstate
        | some code => exact .inr rfl
      · rw [if_neg hspace']
        exact .inl hstate
    · rw [if_neg hspace]
      exact .inl hstate
  · dsimp only
    rw [Parser.processHeader_eq]
    exact h

theorem InHead.read {r : Response} (h : r.InHead) (count : ℕ) (text : List Char) :
    (reader.read count r text).state.InHead :=
  reader.read_keeps (I := fun _ r => r.InHead) (fun _ _ _ h => h)
    (fun _ _ line h => InHead.processLine h line) h text

theorem consume_inHead {r : Response} (h : r.InHead) {buf : List Char} (hbuf : r.buf = some buf)
    (bytes : List Char) : r.consume bytes =
      leaveLoop bytes (buf ++ bytes) (reader.read r.headerBytes r (buf ++ bytes)) := by
  rcases h with h | h
  · rw [consume, h, hbuf]
  · rw [consume, h, hbuf]

/-- The fields that `raw` writes, apart from the body. -/
structure SameHead (r s : Response) : Prop where
  version : s.version = r.version
  code : s.statusCode = r.statusCode
  msg : s.statusMsg = r.statusMsg
  headers : s.headers = r.headers

/-- `s` takes `todo` for the rest of the head of `r`, at a cost of `cost` for all of it. -/
structure Awaits (r : Response) (cost : ℕ) (todo : List Char) (s : Response) : Prop where
  head : s.InHead
  buf : ∃ buf, s.buf = some buf ∧ ∀ after, ∃ t,
    reader.read s.headerBytes s (buf ++ (todo ++ after)) = .blank cost t after ∧
      SameHead r t ∧ t.state = .headers ∧ t.body = []

theorem reset_awaits {r : Response} (h : r.Sendable) (hcost : r.headCost ≤ maxHeaderSize)
    (s : Response) : Awaits r r.headCost r.rawHead s.reset := by
  refine ⟨.inl rfl, [], rfl, fun after => ⟨opened r s.reset, ?_, ⟨rfl, rfl, rfl, rfl⟩, rfl, rfl⟩⟩
  have hread := @read_raw r h s.reset rfl rfl 0 (by omega) after
  rw [Nat.zero_add] at hread
  exact hread

/-- A piece that ends inside the head. -/
theorem Awaits.consume_part {r s : Response} {cost : ℕ} {x todo : List Char}
    (h : Awaits r cost (x ++ todo) s) (hne : todo ≠ []) (hlimit : cost + 3 ≤ maxHeaderSize) :
    ∃ t, s.consume x = (.ok x.length, t) ∧ Awaits r (cost + 3) todo t := by
  obtain ⟨buf, hbuf, hread⟩ := h.buf
  have hmore : ∀ after, ∃ t, reader.read s.headerBytes s ((buf ++ x) ++ (todo ++ after)) =
      .blank cost t after ∧ SameHead r t ∧ t.state = .headers ∧ t.body = [] := by
    intro after
    rw [show (buf ++ x) ++ (todo ++ after) = buf ++ ((x ++ todo) ++ after) by
      simp only [List.append_assoc]]
    exact hread after
  obtain ⟨t₀, hwhole, -⟩ := hmore []
  rw [List.append_nil] at hwhole
  rw [consume_inHead h.head hbuf]
  have hkept := h.head.read s.headerBytes (buf ++ x)
  cases hpart : reader.read s.headerBytes s (buf ++ x) with
  | blank count t after =>
    have hlonger := reader.read_append_blank hpart todo
    rw [hwhole] at hlonger
    have hempty := (Read.blank.inj hlonger).2.2.symm
    exact absurd (List.append_eq_nil_iff.mp hempty).2 hne
  | failed e count t =>
    have hlonger := reader.read_append_failed hpart todo
    rw [hwhole] at hlonger
    cases hlonger
  | exceeded count t =>
    have hcharged := reader.charged_append_le s.headerBytes s (buf ++ x) todo
    have hexceeded := (reader.exceeded_iff s.headerBytes s (buf ++ x)).mp (by
      rw [hpart]
      trivial)
    have hpat : reader.pat.length = 2 := rfl
    have hmax : reader.limit = maxHeaderSize := rfl
    rw [hwhole, Read.charged, hpat] at hcharged
    omega
  | outOfBytes count t rest =>
    rw [hpart] at hkept
    refine ⟨_, rfl, hkept, rest, rfl, fun after => ?_⟩
    obtain ⟨c, hcount, happend⟩ := reader.read_append hpart (todo ++ after)
    obtain ⟨u, hu, hsame, hstate, hbody⟩ := hmore after
    have hfee : reader.fee = 3 := rfl
    have hmax : reader.limit = maxHeaderSize := rfl
    rw [hu] at happend
    have hcharged := reader.charged_add_le c 3 t (rest ++ (todo ++ after))
    rw [← happend, Read.charged] at hcharged
    have hnot : ¬ (reader.read (c + 3) t (rest ++ (todo ++ after))).Exceeded := by
      rw [reader.exceeded_iff]
      omega
    obtain hexceeded | ⟨-, hadd⟩ := reader.read_add c 3 t (rest ++ (todo ++ after))
    · exact absurd hexceeded hnot
    · have hmap := reader.read_map (f := recount (add64 t.read x.length) count (some rest))
        (processLine_recount _ _ _) count t (rest ++ (todo ++ after))
      rw [hcount, hfee, hadd, ← happend] at hmap
      refine ⟨u.recount (add64 t.read x.length) (c + 3) (some rest), ?_,
        ⟨hsame.version, hsame.code, hsame.msg, hsame.headers⟩, hstate, hbody⟩
      rw [hcount, hfee]
      exact hmap

/-! ### Bytes of the body -/

/-- `s` has read the head of `r` and takes `todo` for the rest of the body. -/
structure InBody (r : Response) (todo : List Char) (s : Response) : Prop extends SameHead r s where
  state : s.state = .body
  body : s.body ++ todo = r.body
  read : s.read = todo.length

theorem processBody_rest {s : Response} {todo : List Char} (hread : s.read = todo.length)
    (hne : todo ≠ []) (bytes : List Char) : s.processBody bytes =
      (min todo.length bytes.length, { s with
        state := if todo.length ≤ bytes.length then .done else s.state
        body := s.body ++ bytes.take todo.length
        read := todo.length - bytes.length }) := by
  have hzero : ¬ s.read = 0 := by
    rw [hread]
    exact fun hzero => hne (List.length_eq_zero_iff.mp hzero)
  have htake : bytes.take (min todo.length bytes.length) = bytes.take todo.length :=
    List.take_eq_take_iff.mpr (by omega)
  have hleft : todo.length - min todo.length bytes.length = todo.length - bytes.length := by omega
  rw [processBody, if_neg hzero, hread]
  dsimp only
  rw [htake, hleft]

theorem processBody_buf (s : Response) (bytes : List Char) :
    { s with buf := none }.processBody bytes =
      ((s.processBody bytes).1, { (s.processBody bytes).2 with buf := none }) := by
  unfold processBody
  split_ifs <;> rfl

theorem blankLine_eq {r : Response} (hstate : ¬ r.state = .responseLine) {length : ℕ}
    (hlength : (if r.getHeader "Content-Length".toList = [] then (0, false)
      else extractSize r.read (r.getHeader "Content-Length".toList)) = (length, false))
    {todo y : List Char} :
    let u : Response := { r with read := length, state := .body, buf := none }
    r.blankLine (todo ++ y) y = if y = [] then (.ok todo.length, u)
      else (.ok (todo.length + (u.processBody y).1), (u.processBody y).2) := by
  intro u
  have hprocessed := @Request.processed_eq (todo ++ y) y (by simp)
  have hleft : (todo ++ y).length - y.length = todo.length := by
    rw [List.length_append, Nat.add_sub_cancel]
  rw [blankLine, if_neg hstate]
  dsimp only
  rw [hlength]
  dsimp only
  rw [hprocessed, hleft, if_neg Bool.false_ne_true]
  by_cases hempty : y = []
  · rw [if_pos hempty, if_neg (by simp [hempty])]
  · have hlt : todo.length < (todo ++ y).length := by
      have hpos := List.length_pos_iff.mpr hempty
      rw [List.length_append]
      omega
    rw [if_neg hempty, if_pos hlt, List.drop_left]
    have hbuf := processBody_buf { r with read := length, state := .body } y
    rw [show u = { { r with read := length, state := .body } with buf := none } from rfl, hbuf]

/-- The blank line, with `y` behind it. -/
theorem Awaits.consume_whole {r s : Response} {cost : ℕ} {todo : List Char} (h : Awaits r cost todo s)
    (hlegible : r.toParser.Legible) (y : List Char) : ∃ u, InBody r r.body u ∧
      s.consume (todo ++ y) = if y = [] then (.ok todo.length, u)
        else (.ok (todo.length + (u.processBody y).1), (u.processBody y).2) := by
  obtain ⟨buf, hbuf, hread⟩ := h.buf
  obtain ⟨t, ht, hsame, hstate, hbody⟩ := hread y
  rw [consume_inHead h.head hbuf, ht]
  let u : Response := { t with
    headerBytes := cost, buf := none, read := r.body.length, state := .body }
  refine ⟨u, ⟨⟨hsame.version, hsame.code, hsame.msg, hsame.headers⟩, rfl, ?_, rfl⟩, ?_⟩
  · change t.body ++ r.body = r.body
    rw [hbody, List.nil_append]
  · have hstate' : ¬ t.state = .responseLine := by
      rw [hstate]
      decide
    have hsize : (if t.getHeader "Content-Length".toList = [] then (0, false)
        else extractSize t.read (t.getHeader "Content-Length".toList)) = (r.body.length, false) := by
      rw [Parser.getHeader, hsame.headers, ← Parser.getHeader, hlegible.length]
      by_cases hempty : r.body = []
      · rw [if_pos hempty, if_pos rfl, hempty]
        rfl
      · rw [if_neg hempty, if_neg Nat.toDigits_ne_nil]
        exact extractSize_toDigits hlegible.small _
    exact blankLine_eq (r := { t with headerBytes := cost, buf := some (buf ++ (todo ++ y)) })
      hstate' hsize

/-! ### Pieces -/

/-- The response that was sent, with its body. -/
structure Same (r s : Response) : Prop extends SameHead r s where
  body : s.body = r.body

theorem feed_cons {r s : Response} {chunk : List Char} {n : ℕ} (h : r.consume chunk = (.ok n, s))
    (chunks : List (List Char)) : r.feed (chunk :: chunks) =
      if s.state = .done then (.ok n, s) else ((s.feed chunks).1.map (n + ·), (s.feed chunks).2) := by
  rw [feed, h]
  dsimp only
  by_cases hdone : s.state = .done
  · have hready : s.ready = true := decide_eq_true hdone
    rw [if_pos hdone, if_pos hready]
  · have hready : ¬ s.ready = true := fun hready => hdone (of_decide_eq_true hready)
    rw [if_neg hdone, if_neg hready]

theorem consume_inBody {r s : Response} {todo : List Char} (h : InBody r todo s)
    (bytes : List Char) : s.consume bytes = (.ok (s.processBody bytes).1, (s.processBody bytes).2) := by
  rw [consume, h.state]

theorem InBody.feed {r s : Response} {todo : List Char} (h : InBody r todo s)
    {chunks : List (List Char)} (hfull : [] ∉ chunks) {after : List Char}
    (hchunks : chunks.flatten = todo ++ after) :
    ∃ t, s.feed chunks = (.ok todo.length, t) ∧ Same r t ∧
      (t.ready = true ↔ todo ≠ [] ∨ after ≠ []) := by
  induction chunks generalizing s todo with
  | nil =>
    obtain ⟨rfl, rfl⟩ := List.append_eq_nil_iff.mp hchunks.symm
    refine ⟨s, rfl, ⟨h.toSameHead, List.append_nil s.body ▸ h.body⟩, ?_⟩
    rw [ready, h.state]
    simp
  | cons y chunks ih =>
    have hy : y ≠ [] := fun hempty => hfull (hempty ▸ List.mem_cons_self)
    have hconsume := consume_inBody h y
    rw [List.flatten_cons] at hchunks
    by_cases hempty : todo = []
    · subst hempty
      have hzero : s.processBody y = (0, { s with state := .done }) := if_pos h.read
      have hafter : after ≠ [] := by
        rw [List.nil_append] at hchunks
        rw [← hchunks]
        exact fun hnil => hy (List.append_eq_nil_iff.mp hnil).1
      rw [hzero] at hconsume
      refine ⟨_, (feed_cons hconsume chunks).trans (if_pos rfl),
        ⟨⟨h.version, h.code, h.msg, h.headers⟩, List.append_nil s.body ▸ h.body⟩, ?_⟩
      exact iff_of_true rfl (.inr hafter)
    · rw [processBody_rest h.read hempty] at hconsume
      by_cases hle : todo.length ≤ y.length
      · have hprefix : todo <+: y := by
          refine List.prefix_of_prefix_length_le (List.prefix_append todo after) ?_ hle
          exact hchunks ▸ List.prefix_append y chunks.flatten
        have htake : y.take todo.length = todo := List.prefix_iff_eq_take.mp hprefix |>.symm
        rw [Nat.min_eq_left hle, if_pos hle, htake] at hconsume
        refine ⟨_, (feed_cons hconsume chunks).trans (if_pos rfl),
          ⟨⟨h.version, h.code, h.msg, h.headers⟩, h.body⟩, ?_⟩
        exact iff_of_true rfl (.inl hempty)
      · have hprefix : y <+: todo := by
          refine List.prefix_of_prefix_length_le (List.prefix_append y chunks.flatten) ?_ (by omega)
          exact hchunks ▸ List.prefix_append todo after
        obtain ⟨rest, rfl⟩ := hprefix
        rw [List.length_append] at hle hconsume
        have hmin : min (y.length + rest.length) y.length = y.length := by omega
        have htake : y.take (y.length + rest.length) = y := List.take_of_length_le (by omega)
        rw [hmin, if_neg hle, htake, Nat.add_sub_cancel_left] at hconsume
        have hrest : rest ≠ [] := fun hnil => hle (by simp [hnil])
        rw [List.append_assoc] at hchunks
        obtain ⟨t, ht, hsame, hready⟩ := ih (s := { s with
            body := s.body ++ y, read := rest.length })
          ⟨⟨h.version, h.code, h.msg, h.headers⟩, h.state,
            (List.append_assoc s.body y rest).trans h.body, rfl⟩
          (fun hmem => hfull (List.mem_cons_of_mem y hmem)) (List.append_cancel_left hchunks)
        have hgoes : ¬ s.state = .done := by
          rw [h.state]
          decide
        refine ⟨t, ?_, hsame, ?_⟩
        · rw [feed_cons hconsume, if_neg hgoes, ht, List.length_append]
          rfl
        · rw [hready]
          exact iff_of_true (.inl hrest) (.inl hempty)

theorem Awaits.feed {r s : Response} (hlegible : r.toParser.Legible) {cost : ℕ} {todo : List Char}
    (h : Awaits r cost todo s) (hne : todo ≠ []) {chunks : List (List Char)} (hfull : [] ∉ chunks)
    {after : List Char} (hchunks : chunks.flatten = todo ++ (r.body ++ after))
    (hlimit : cost + 3 * chunks.length ≤ maxHeaderSize) :
    ∃ t, s.feed chunks = (.ok (todo.length + r.body.length), t) ∧ Same r t ∧
      (t.ready = true ↔ r.body ≠ [] ∨ after ≠ []) := by
  induction chunks generalizing s cost todo with
  | nil => exact absurd (List.append_eq_nil_iff.mp hchunks.symm).1 hne
  | cons y chunks ih =>
    have hfull' : [] ∉ chunks := fun hmem => hfull (List.mem_cons_of_mem y hmem)
    rw [List.flatten_cons] at hchunks
    rw [List.length_cons] at hlimit
    by_cases hlt : y.length < todo.length
    · have hprefix : y <+: todo := by
        refine List.prefix_of_prefix_length_le (List.prefix_append y chunks.flatten) ?_ hlt.le
        exact hchunks ▸ List.prefix_append todo _
      obtain ⟨rest, rfl⟩ := hprefix
      have hrest : rest ≠ [] := fun hnil => absurd hlt (by simp [hnil])
      obtain ⟨u, hconsume, hu⟩ := h.consume_part hrest (by omega)
      rw [List.append_assoc] at hchunks
      obtain ⟨t, ht, hsame, hready⟩ := ih hu hrest hfull' (List.append_cancel_left hchunks) (by omega)
      have hgoes : ¬ u.state = .done := by
        rcases hu.head with hstate | hstate <;> rw [hstate] <;> decide
      refine ⟨t, ?_, hsame, hready⟩
      rw [feed_cons hconsume, if_neg hgoes, ht, List.length_append, Nat.add_assoc]
      rfl
    · have hprefix : todo <+: y := by
        refine List.prefix_of_prefix_length_le (List.prefix_append todo (r.body ++ after)) ?_
          (not_lt.mp hlt)
        exact hchunks ▸ List.prefix_append y chunks.flatten
      obtain ⟨rest, rfl⟩ := hprefix
      obtain ⟨u, hu, hconsume⟩ := h.consume_whole hlegible rest
      have hgoes : ¬ u.state = .done := by
        rw [hu.state]
        decide
      rw [List.append_assoc] at hchunks
      have hbody := List.append_cancel_left hchunks
      by_cases hempty : rest = []
      · subst hempty
        rw [if_pos rfl] at hconsume
        obtain ⟨t, ht, hsame, hready⟩ := hu.feed hfull' hbody
        refine ⟨t, ?_, hsame, hready⟩
        rw [feed_cons hconsume, if_neg hgoes, ht]
        rfl
      · rw [if_neg hempty] at hconsume
        have hfull'' : [] ∉ rest :: chunks := by
          rw [List.mem_cons, not_or]
          exact ⟨fun hnil => hempty hnil.symm, hfull'⟩
        obtain ⟨t, ht, hsame, hready⟩ := hu.feed hfull'' hbody
        -- the call that ends the head and a call with the bytes behind it
        rw [feed_cons (consume_inBody hu rest)] at ht
        refine ⟨t, ?_, hsame, hready⟩
        rw [feed_cons hconsume]
        split_ifs at ht ⊢ with hdone
        · rw [Prod.mk.injEq] at ht
          obtain ⟨hres, rfl⟩ := ht
          rw [Except.ok.inj hres]
        · rw [Prod.mk.injEq] at ht
          obtain ⟨hres, rfl⟩ := ht
          cases hfeed : ((u.processBody rest).2.feed chunks).1 with
          | error e =>
            rw [hfeed] at hres
            cases hres
          | ok n =>
            rw [hfeed] at hres
            have hsum : (u.processBody rest).1 + n = r.body.length := Except.ok.inj hres
            rw [← hsum, ← Nat.add_assoc]
            rfl

theorem feed_raw {r : Response} (h : r.Sendable) (s : Response) {chunks : List (List Char)}
    (hfull : [] ∉ chunks) {after : List Char} (hchunks : chunks.flatten = r.raw ++ after)
    (hlimit : r.headCost + 3 * chunks.length ≤ maxHeaderSize) :
    ∃ t, s.reset.feed chunks = (.ok r.raw.length, t) ∧ Same r t ∧
      (t.ready = true ↔ r.body ≠ [] ∨ after ≠ []) := by
  have hcost : r.headCost ≤ maxHeaderSize := (Nat.le_add_right _ _).trans hlimit
  have hne : r.rawHead ≠ [] := by simp [rawHead]
  rw [raw, List.append_assoc] at hchunks
  obtain ⟨t, ht, hsame, hready⟩ := (reset_awaits h hcost s).feed h.legible hne hfull hchunks hlimit
  refine ⟨t, ?_, hsame, hready⟩
  rw [ht, raw, List.length_append]

end Response

namespace Response

/-! ### Handlers -/

/-- What a handler may do: values that are read as they are written, and `Content-Length` is left to
`set_body`. -/
def Edit.Fair : Edit → Prop
  | .setStatus code => -2^31 ≤ code ∧ code < 2^31
  | .appendHeader key val => ciKey key ≠ ciKey "Content-Length".toList ∧ Trimmed val ∧ val ≠ []
  | .replaceHeader key val =>
    key.all isTokenChar = true ∧ ciKey key ≠ ciKey "Content-Length".toList ∧ Trimmed val
  | .removeHeader key => ciKey key ≠ ciKey "Content-Length".toList
  | .setBody body => body.length < 2^64

/-- A response that only lacks a version. -/
structure Answer (r : Response) : Prop where
  code : -2^31 ≤ r.statusCode ∧ r.statusCode < 2^31
  msg : '\n' ∉ r.statusMsg
  legible : r.toParser.Legible

theorem reset_answer (r : Response) : r.reset.Answer := by
  have hcode : (-2^31 : ℤ) ≤ 0 ∧ (0 : ℤ) < 2^31 := by decide
  refine ⟨hcode, List.not_mem_nil, fun e he => ?_, fun e he => ?_, rfl, Nat.two_pow_pos 64⟩
  · cases he
  · cases he

theorem Answer.edit {r : Response} (h : r.Answer) {e : Edit} (he : e.Fair) : (r.edit e).Answer := by
  cases e with
  | setStatus code => exact ⟨he, newline_not_mem_getString code, h.legible⟩
  | appendHeader key val => exact ⟨h.code, h.msg, h.legible.appendHeader he.1 he.2.1 he.2.2⟩
  | replaceHeader key val => exact ⟨h.code, h.msg, h.legible.set he.1 he.2.1 he.2.2⟩
  | removeHeader key => exact ⟨h.code, h.msg, h.legible.removeHeader he⟩
  | setBody body => exact ⟨h.code, h.msg, h.legible.setBody he⟩

theorem Answer.edits {r : Response} (h : r.Answer) {edits : List Edit} (hfair : ∀ e ∈ edits, e.Fair) :
    (edits.foldl Response.edit r).Answer := by
  induction edits generalizing r with
  | nil => exact h
  | cons e edits ih =>
    exact ih (h.edit (hfair e List.mem_cons_self))
      fun e' he' => hfair e' (List.mem_cons_of_mem e he')

theorem appendHeader_version (r : Response) (key val : List Char) :
    (r.edit (.appendHeader key val)).version = r.version := by
  change (r.toParser.appendHeader key val).2.version = r.version
  unfold Parser.appendHeader
  split_ifs <;> rfl

theorem Answer.coSendResp {r : Response} (h : r.Answer) (keep : Bool) :
    (r.coSendResp keep).Sendable := by
  have hok : Edit.Fair (.setStatus .ok) :=
    (by decide : (-2^31 : ℤ) ≤ 200 ∧ (200 : ℤ) < 2^31)
  have hset : (if r.statusCode = .uninitialized then r.edit (.setStatus .ok) else r).Answer := by
    split_ifs
    · exact h.edit hok
    · exact h
  have hversion : Answer { (if r.statusCode = .uninitialized then r.edit (.setStatus .ok) else r) with
      version := "HTTP/1.1".toList } :=
    ⟨hset.code, hset.msg, hset.legible.keys, hset.legible.values, hset.legible.length,
      hset.legible.small⟩
  have hother : ciKey "Connection".toList ≠ ciKey "Content-Length".toList := by decide
  have hval : Trimmed (if keep then "keep-alive".toList else "close".toList) ∧
      (if keep then "keep-alive".toList else "close".toList) ≠ [] := by
    cases keep
    · exact ⟨.of_ends (by decide) rfl rfl, by decide⟩
    · exact ⟨.of_ends (by decide) rfl rfl, by decide⟩
  have hanswer := hversion.edit (e := .appendHeader "Connection".toList
    (if keep then "keep-alive".toList else "close".toList)) ⟨hother, hval⟩
  refine ⟨?_, hanswer.code, hanswer.msg, hanswer.legible⟩
  rw [Response.coSendResp, appendHeader_version]
  dsimp only
  decide

/-- What a handler sets and `co_sendResp` writes is read back, however it is cut and whatever
follows it. The response is ready at its end only where it has a body. -/
theorem response_received (session client : Response) {edits : List Edit}
    (hfair : ∀ e ∈ edits, e.Fair) (keep : Bool) {r : Response}
    (hr : r = (edits.foldl edit session.reset).coSendResp keep) {chunks : List (List Char)}
    (hfull : [] ∉ chunks) (after : List Char) (hchunks : chunks.flatten = r.raw ++ after)
    (hlimit : r.headCost + 3 * chunks.length ≤ maxHeaderSize) :
    ∃ t, client.reset.feed chunks = (.ok r.raw.length, t) ∧ Same r t ∧
      (t.ready = true ↔ r.body ≠ [] ∨ after ≠ []) := by
  have hanswer : (edits.foldl edit session.reset).Answer := (reset_answer session).edits hfair
  have hsend : r.Sendable := hr ▸ hanswer.coSendResp keep
  exact feed_raw hsend client hfull hchunks hlimit

def notFound : List Edit :=
  [.setStatus 404, .appendHeader "Content-Type".toList "text/plain".toList,
    .setBody "missing".toList]

theorem notFound_fair : ∀ e ∈ notFound, e.Fair := by
  intro e he
  simp only [notFound, List.mem_cons, List.not_mem_nil, or_false] at he
  rcases he with rfl | rfl | rfl
  · exact (by decide : (-2^31 : ℤ) ≤ 404 ∧ (404 : ℤ) < 2^31)
  · exact ⟨by decide, .of_ends (by decide) rfl rfl, by decide⟩
  · exact (by decide : "missing".toList.length < 2^64)

theorem notFound_received :
    let r := (notFound.foldl edit init.reset).coSendResp true
    ∃ t, init.reset.feed [r.raw.take 30, r.raw.drop 30] = (.ok r.raw.length, t) ∧ Same r t ∧
      (t.ready = true ↔ r.body ≠ [] ∨ ([] : List Char) ≠ []) := by
  intro r
  have hchunks : [r.raw.take 30, r.raw.drop 30].flatten = r.raw ++ [] := by
    simp only [List.flatten_cons, List.flatten_nil, List.append_nil, List.take_append_drop]
  refine response_received init init notFound_fair true rfl ?_ [] hchunks ?_
  · decide +kernel
  · decide +kernel

end Response

end MSylar.Http
