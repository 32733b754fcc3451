import MSylar.Http.Request

/-!
# Requests that arrive in pieces (protocol/http/impl/request.hpp)

`recv` cuts the stream as it likes, and `consume` is called with each piece. What it makes of the
stream is the same for every way to cut it, except for `m_header_bytes`: every call that ends in the
middle of a line has charged `sizeof(header_delimiter)` to it for nothing, so that a head that is
accepted in one piece may exceed the limit in many.
-/

namespace MSylar.Http
open MSylar.Lines MSylar.Word

namespace Request

/-- One call after another, until a request is complete or a call throws. -/
def feed (r : Request) : List (List Char) → Except Fault ℕ × Request
  | [] => (.ok 0, r)
  | chunk :: chunks =>
    match r.consume chunk with
    | (.error e, r) => (.error e, r)
    | (.ok n, r) =>
      if r.ready then (.ok n, r)
      else
        let res := r.feed chunks
        (res.1.map (n + ·), res.2)

/-! ### Body bytes -/

def takeBody (r : Request) (bytes : List Char) : Request :=
  { r with
    body := r.body ++ bytes.take r.bodyBytesNeeded
    bodyBytesNeeded := r.bodyBytesNeeded - bytes.length
    ready := r.bodyBytesNeeded ≤ bytes.length }

theorem consumeBody_plain {r : Request} (hplain : r.bodyEncoding = .plain) {bytes : List Char}
    {processed : ℕ} (hle : processed ≤ bytes.length) :
    r.consumeBody bytes processed =
      (.ok (processed + min r.bodyBytesNeeded (bytes.length - processed)),
        r.takeBody (bytes.drop processed)) := by
  have hin : ¬ (bytes.length < processed ∧ 0 < r.bodyBytesNeeded) := fun h => by omega
  have htake : (bytes.drop processed).take (min r.bodyBytesNeeded (bytes.drop processed).length) =
      (bytes.drop processed).take r.bodyBytesNeeded :=
    List.take_eq_take_iff.mpr (by omega)
  have hleft : r.bodyBytesNeeded - min r.bodyBytesNeeded (bytes.drop processed).length =
      r.bodyBytesNeeded - (bytes.drop processed).length := by omega
  have hready : decide (r.bodyBytesNeeded - (bytes.drop processed).length = 0) =
      decide (r.bodyBytesNeeded ≤ (bytes.drop processed).length) :=
    decide_eq_decide.mpr (by omega)
  rw [consumeBody, if_neg hin, Parser.processBody, hplain]
  dsimp only [Parser.bodyReady]
  rw [htake, hleft, hready, List.length_drop, ← hplain]
  unfold takeBody
  rw [List.length_drop]

theorem takeBody_append_of_lt {r : Request} {x : List Char} (h : x.length < r.bodyBytesNeeded)
    (y : List Char) : r.takeBody (x ++ y) = (r.takeBody x).takeBody y := by
  unfold takeBody
  dsimp only
  rw [List.take_append, List.take_of_length_le h.le, List.append_assoc, List.length_append,
    Nat.sub_add_eq, decide_eq_decide.mpr (Nat.sub_le_iff_le_add').symm]

theorem takeBody_append_of_le {r : Request} {x : List Char} (h : r.bodyBytesNeeded ≤ x.length)
    (y : List Char) : r.takeBody (x ++ y) = r.takeBody x := by
  unfold takeBody
  rw [List.take_append_of_le_length h, List.length_append, Nat.sub_eq_zero_of_le h,
    Nat.sub_eq_zero_of_le (h.trans (Nat.le_add_right _ _)),
    decide_eq_true (h.trans (Nat.le_add_right _ _)), decide_eq_true h]

/-! ### The blank line -/

theorem badRequest_ne_headerLimit (msg : String) :
    Fault.exception msg .badRequest ≠ headerLimit := by
  intro h
  exact absurd (Fault.exception.inj h).2 (by decide)

theorem processed_eq {bytes after : List Char} (hafter : after.length ≤ bytes.length) :
    lengthDiff (bytes.length + headerDelimiter.length) (after.length + headerDelimiter.length) =
      bytes.length - after.length := by
  rw [lengthDiff, if_pos (Nat.add_le_add_right hafter _), Nat.add_sub_add_right]

theorem blankLine_incomplete {r : Request} (h : r.method = [] ∨ r.getHeader "Host".toList = [])
    (bytes after : List Char) : r.blankLine bytes after =
      (.error (.exception "Incomplete Request" .badRequest), r) := if_pos h

theorem blankLine_complete {r : Request} (h : ¬ (r.method = [] ∨ r.getHeader "Host".toList = []))
    (hnone : r.getHeader "Content-Length".toList = []) {bytes after : List Char}
    (hafter : after.length ≤ bytes.length) : r.blankLine bytes after =
      (.ok (bytes.length - after.length), { r with buf := none, ready := true }) := by
  rw [blankLine, if_neg h]
  dsimp only
  rw [processed_eq hafter, Parser.prepareBody_none hnone]

theorem blankLine_large {r : Request} (h : ¬ (r.method = [] ∨ r.getHeader "Host".toList = []))
    (hlength : r.getHeader "Content-Length".toList ≠ [])
    (hlarge : r.bodyBytesMax < strtoul (r.getHeader "Content-Length".toList))
    (bytes after : List Char) : r.blankLine bytes after =
      (.error (.exception "HTTP message body too large" .requestEntityTooLarge), { r with
        buf := none
        bodyBytesNeeded := strtoul (r.getHeader "Content-Length".toList) }) := by
  rw [blankLine, if_neg h]
  dsimp only
  rw [Parser.prepareBody_large hlength hlarge]

theorem blankLine_body {r : Request} (h : ¬ (r.method = [] ∨ r.getHeader "Host".toList = []))
    (hlength : r.getHeader "Content-Length".toList ≠ [])
    (hle : strtoul (r.getHeader "Content-Length".toList) ≤ r.bodyBytesMax) {bytes after : List Char}
    (hafter : after <:+ bytes) : r.blankLine bytes after =
      (.ok (bytes.length - after.length +
          min (strtoul (r.getHeader "Content-Length".toList)) after.length),
        takeBody { r with
          buf := none
          bodyBytesNeeded := strtoul (r.getHeader "Content-Length".toList)
          bodyEncoding := .plain } after) := by
  obtain ⟨used, rfl⟩ := hafter
  have hdrop : (used ++ after).length - after.length = used.length := by
    rw [List.length_append, Nat.add_sub_cancel]
  have hleft : (used ++ after).length - used.length = after.length := by
    rw [List.length_append, Nat.add_sub_cancel_left]
  rw [blankLine, if_neg h]
  dsimp only
  rw [processed_eq (List.suffix_append used after).length_le,
    Parser.prepareBody_plain hlength hle, hdrop]
  dsimp only
  rw [consumeBody_plain rfl (by rw [List.length_append]; omega), List.drop_left, hleft]

/-- The three ends of a head: it is refused, or the request is complete, or the body follows. -/
theorem blankLine_cases (r : Request) :
    (∃ e, e ≠ headerLimit ∧ e ≠ .outOfBounds ∧ ∀ count buf bytes after,
      ((r.recount count buf).blankLine bytes after).1 = .error e) ∨
    (∀ count buf bytes after, after <:+ bytes →
      (r.recount count buf).blankLine bytes after =
        (.ok (bytes.length - after.length), { r.recount count none with ready := true })) ∨
    ∃ n ≤ r.bodyBytesMax, ∀ count buf bytes after, after <:+ bytes →
      (r.recount count buf).blankLine bytes after =
        (.ok (bytes.length - after.length + min n after.length),
          takeBody { r.recount count none with bodyBytesNeeded := n, bodyEncoding := .plain }
            after) := by
  by_cases h : r.method = [] ∨ r.getHeader "Host".toList = []
  · refine .inl ⟨_, ?_, ?_, fun count buf bytes after =>
      congrArg Prod.fst (blankLine_incomplete (r := r.recount count buf) h bytes after)⟩
    · decide
    · decide
  · by_cases hnone : r.getHeader "Content-Length".toList = []
    · exact .inr (.inl fun count buf bytes after hafter =>
        blankLine_complete (r := r.recount count buf) h hnone hafter.length_le)
    · rcases lt_or_ge r.bodyBytesMax (strtoul (r.getHeader "Content-Length".toList)) with hlt | hle
      · refine .inl ⟨_, ?_, ?_, fun count buf bytes after =>
          congrArg Prod.fst (blankLine_large (r := r.recount count buf) h hnone hlt bytes after)⟩
        · decide
        · decide
      · exact .inr (.inr ⟨_, hle, fun count buf bytes after hafter =>
          blankLine_body (r := r.recount count buf) h hnone hle hafter⟩)

/-! ### Two pieces -/

/-- Between two calls: the head is not complete, and the buffer holds a part of a line, or bytes of
the body are awaited. -/
structure Waiting (r : Request) : Prop where
  ready : r.ready = false
  body : 0 < r.bodyBytesNeeded → r.bodyEncoding = .plain
  head : r.bodyBytesNeeded = 0 → ∃ buf, r.buf = some buf ∧ cut headerDelimiter buf = none

def uncounted (r : Request) : Request := { r with headerBytes := 0 }

/-- The same result; the requests that a call returns with differ at most in `m_header_bytes`. -/
def Agrees (a b : Except Fault ℕ × Request) : Prop :=
  a.1 = b.1 ∧ ∀ n, a.1 = .ok n → a.2.uncounted = b.2.uncounted

/-- The result of a call that comes after `n` bytes. -/
def shift (n : ℕ) (res : Except Fault ℕ × Request) : Except Fault ℕ × Request :=
  (res.1.map (n + ·), res.2)

theorem Agrees.refl (a : Except Fault ℕ × Request) : Agrees a a := ⟨rfl, fun _ _ => rfl⟩

theorem Agrees.shift {a b : Except Fault ℕ × Request} (h : Agrees a b) (n : ℕ) :
    Agrees (shift n a) (shift n b) := by
  refine ⟨congrArg (Except.map (n + ·)) h.1, fun m hm => ?_⟩
  cases ha : a.1 with
  | error e =>
    rw [Request.shift, ha] at hm
    cases hm
  | ok m => exact h.2 m ha

theorem Agrees.trans {a b c : Except Fault ℕ × Request} (h : Agrees a b) (h' : Agrees b c) :
    Agrees a c :=
  ⟨h.1.trans h'.1, fun n hn => (h.2 n hn).trans (h'.2 n (h.1 ▸ hn))⟩

theorem consume_body {r : Request} (h : r.Waiting) (hbody : 0 < r.bodyBytesNeeded)
    {bytes : List Char} :
    r.consume bytes = (.ok (min r.bodyBytesNeeded bytes.length), r.takeBody bytes) := by
  rw [consume, h.ready, if_neg Bool.false_ne_true, if_pos hbody,
    consumeBody_plain (h.body hbody) (Nat.zero_le _), Nat.zero_add]
  rfl

theorem consume_head {r : Request} (hready : r.ready = false) (hbody : r.bodyBytesNeeded = 0)
    (count : ℕ) (buf bytes : List Char) : (r.recount count (some buf)).consume bytes =
      leaveLoop bytes (buf ++ bytes) (reader.read count r (buf ++ bytes)) := by
  have hmap := reader.read_map (processLine_recount count (some buf)) count r (buf ++ bytes)
  unfold consume
  change (if r.ready then _ else if 0 < r.bodyBytesNeeded then _ else
    leaveLoop bytes (buf ++ bytes)
      (reader.read count (r.recount count (some buf)) (buf ++ bytes))) = _
  rw [hready, if_neg Bool.false_ne_true, hbody, if_neg (lt_irrefl 0), hmap]
  rcases reader.read count r (buf ++ bytes) with ⟨_, _, _⟩ | ⟨_, _, _⟩ | ⟨_, _⟩ | ⟨_, _, _⟩ <;> rfl

theorem blankLine_agrees (r : Request) {x y after : List Char} (hafter : after <:+ y)
    (count count' : ℕ) (buf buf' : Option (List Char)) :
    Agrees ((r.recount count buf).blankLine (x ++ y) after)
      (shift x.length ((r.recount count' buf').blankLine y after)) := by
  have hle := hafter.length_le
  have hafter' : after <:+ x ++ y := hafter.trans (List.suffix_append x y)
  have hprocessed : (x ++ y).length - after.length = x.length + (y.length - after.length) := by
    rw [List.length_append]
    omega
  rcases r.blankLine_cases with ⟨e, _, _, herror⟩ | hend | ⟨n, _, hend⟩
  · have h := herror count buf (x ++ y) after
    have h' := herror count' buf' y after
    refine ⟨?_, fun m hm => ?_⟩
    · rw [h, shift, h']
      rfl
    · rw [h] at hm
      cases hm
  · rw [hend count buf _ _ hafter', hend count' buf' _ _ hafter, hprocessed]
    exact ⟨rfl, fun _ _ => rfl⟩
  · rw [hend count buf _ _ hafter', hend count' buf' _ _ hafter, hprocessed]
    exact ⟨congrArg Except.ok (Nat.add_assoc _ _ _), fun _ _ => rfl⟩

theorem leaveLoop_agrees {x y text text' : List Char} {q : Read Request Fault Char}
    (hafter : ∀ count s after, q = .blank count s after → after <:+ y)
    (d : ℕ) :
    Agrees (leaveLoop (x ++ y) text q) (shift x.length (leaveLoop y text' (q.add d))) := by
  cases q with
  | outOfBytes count s rest =>
    exact ⟨congrArg Except.ok List.length_append, fun _ _ => rfl⟩
  | blank count s after =>
    exact blankLine_agrees s (hafter _ _ _ rfl) count (count + d) (some text) (some text')
  | exceeded count s => exact ⟨rfl, fun n hn => by cases hn⟩
  | failed e count s => exact ⟨rfl, fun n hn => by cases hn⟩

/-- The bytes behind the blank line are new ones. -/
theorem after_suffix {count count' : ℕ} {r s : Request} {rest y after : List Char}
    (hrest : cut headerDelimiter rest = none)
    (h : reader.read count r (rest ++ y) = .blank count' s after) : after <:+ y := by
  have hsuffix : headerDelimiter ++ after <:+ rest ++ y := reader.blank_suffix h
  have hafter : after <:+ rest ++ y := (List.suffix_append _ _).trans hsuffix
  rcases List.suffix_or_suffix_of_suffix hafter (List.suffix_append rest y) with hle | hge
  · exact hle
  · exfalso
    obtain ⟨before, hbefore⟩ := hsuffix
    obtain ⟨tail, rfl⟩ := hge
    refine cut_ne_none (β := Char) before tail (?_ : cut headerDelimiter _ = none)
    have hcancel : before ++ (headerDelimiter ++ tail) = rest := by
      have hy : before ++ (headerDelimiter ++ tail) ++ y = rest ++ y := by
        rw [List.append_assoc, List.append_assoc]
        exact hbefore
      exact List.append_cancel_right hy
    rw [hcancel]
    exact hrest

theorem Waiting.consume_eq {r : Request} (h : r.Waiting) (hbody : r.bodyBytesNeeded = 0)
    (bytes : List Char) : r.consume bytes = leaveLoop bytes (r.buf.getD [] ++ bytes)
      (reader.read r.headerBytes r (r.buf.getD [] ++ bytes)) := by
  obtain ⟨buf, hbuf, _⟩ := h.head hbody
  unfold consume
  rw [h.ready, if_neg Bool.false_ne_true, hbody, if_neg (lt_irrefl 0), hbuf]
  rfl

/-- The state that the reader of the head comes to still waits for the body. -/
theorem read_sameBody (count : ℕ) (r : Request) (text : List Char) :
    SameBody r (reader.read count r text).state :=
  reader.read_keeps (I := fun _ s => SameBody r s) (fun _ _ _ h => h)
    (fun _ s line h => h.trans (processLine_sameBody s line)) (.refl r) text

/-- What is stored of the head has been charged, and what is in the buffer has been compared with
the limit. -/
structure Bounded (r : Request) : Prop where
  stored : r.stored ≤ r.headerBytes
  limit : r.headerBytes + (r.buf.getD []).length ≤ maxHeaderSize

theorem read_stored {r : Request} (h : r.stored ≤ r.headerBytes) (text : List Char) :
    (reader.read r.headerBytes r text).state.stored ≤ (reader.read r.headerBytes r text).count :=
  reader.read_keeps (I := fun count s => s.stored ≤ count) (fun _ _ _ h => h.trans (by simp))
    (fun count s line h => (stored_processLine_le s line).trans (Nat.add_le_add_right h _)) h text

/-- What a call has compared with the limit at last. -/
def charge (r : Request) (bytes : List Char) : ℕ :=
  if r.bodyBytesNeeded = 0 then
    (reader.read r.headerBytes r (r.buf.getD [] ++ bytes)).charged
  else 0

/-- What a call does with `x`, whatever comes behind it. -/
inductive Step (r : Request) (x : List Char) : Prop where
  | refused (e : Fault) (hne : e ≠ headerLimit) (hin : e ≠ .outOfBounds)
    (h : ∀ y, (r.consume (x ++ y)).1 = .error e)
  | exceeded (h : (r.consume x).1 = .error headerLimit) (hcharge : maxHeaderSize < r.charge x)
  | complete (n : ℕ) (r₁ : Request) (hle : n ≤ x.length) (hready : r₁.ready = true)
    (hbounded : r.Bounded → r₁.Bounded)
    (h : ∀ y, r.consume (x ++ y) = (.ok n, r₁))
  | pending (r₁ : Request) (h : r.consume x = (.ok x.length, r₁)) (hwaiting : r₁.Waiting)
    (hbounded : r.Bounded → r₁.Bounded)
    (hmore : ∀ y, (r₁.consume y).1 = .error headerLimit ∨
      Agrees (r.consume (x ++ y)) (shift x.length (r₁.consume y)))
    (hcharge : ∀ y, r₁.charge y ≤ r.charge (x ++ y) + reader.fee)

theorem Waiting.step_body {r : Request} (h : r.Waiting) (hbody : 0 < r.bodyBytesNeeded)
    {x : List Char} : r.Step x := by
  by_cases hmore : r.bodyBytesNeeded ≤ x.length
  · refine .complete r.bodyBytesNeeded (r.takeBody x) hmore (decide_eq_true hmore)
      (fun hr => ⟨hr.stored, hr.limit⟩) fun y => ?_
    rw [consume_body h hbody, takeBody_append_of_le hmore,
      Nat.min_eq_left (hmore.trans (by simp))]
  · have hready : (r.takeBody x).ready = false := decide_eq_false hmore
    have hneeded : 0 < (r.takeBody x).bodyBytesNeeded := Nat.sub_pos_of_lt (not_le.mp hmore)
    have hwaiting : (r.takeBody x).Waiting :=
      ⟨hready, fun _ => h.body hbody, fun hzero => absurd hzero hneeded.ne'⟩
    refine .pending (r.takeBody x) ?_ hwaiting (fun hr => ⟨hr.stored, hr.limit⟩)
      (fun y => .inr ?_) fun y => ?_
    · rw [consume_body h hbody, Nat.min_eq_right (not_le.mp hmore).le]
    · rw [consume_body h hbody, consume_body hwaiting hneeded,
        takeBody_append_of_lt (not_le.mp hmore)]
      refine ⟨congrArg Except.ok ?_, fun _ _ => rfl⟩
      dsimp only [takeBody]
      rw [List.length_append]
      omega
    · rw [charge, if_neg hneeded.ne']
      exact Nat.zero_le _

/-- The head ends in `x`. -/
theorem Waiting.step_blank {r s : Request} (h : r.Waiting) (hbody : r.bodyBytesNeeded = 0)
    {buf : List Char} (hbuf : r.buf = some buf) {x after : List Char} {count : ℕ}
    (hread : reader.read r.headerBytes r (buf ++ x) = .blank count s after)
    (hafter : after <:+ x)
    (hbounded : r.Bounded → ∀ t : Request, t.stored = s.stored → t.headerBytes = count →
      t.buf = none → t.Bounded) : r.Step x := by
  have hconsume : ∀ y, r.consume (x ++ y) =
      (s.recount count (some (buf ++ (x ++ y)))).blankLine (x ++ y) (after ++ y) := by
    intro y
    rw [h.consume_eq hbody, hbuf, Option.getD_some, ← List.append_assoc,
      reader.read_append_blank hread y]
    rfl
  have hwhole : ∀ y, after ++ y <:+ x ++ y := by
    intro y
    obtain ⟨used, rfl⟩ := hafter
    exact ⟨used, (List.append_assoc _ _ _).symm⟩
  have hprocessed : ∀ y, (x ++ y).length - (after ++ y).length = x.length - after.length := by
    intro y
    rw [List.length_append, List.length_append, Nat.add_sub_add_right]
  rcases s.blankLine_cases with ⟨e, hne, hin, herror⟩ | hend | ⟨m, _, hend⟩
  · refine .refused e hne hin fun y => ?_
    rw [hconsume, herror]
  · refine .complete (x.length - after.length) { s.recount count none with ready := true }
      (Nat.sub_le _ _) rfl (fun hr => hbounded hr _ rfl rfl rfl) fun y => ?_
    rw [hconsume, hend count _ _ _ (hwhole y), hprocessed]
  · let t : Request := { s.recount count none with bodyBytesNeeded := m, bodyEncoding := .plain }
    have hle := hafter.length_le
    by_cases hmore : m ≤ after.length
    · refine .complete (x.length - after.length + m) (t.takeBody after) (by omega)
        (decide_eq_true hmore) (fun hr => hbounded hr _ rfl rfl rfl) fun y => ?_
      rw [hconsume, hend count _ _ _ (hwhole y), hprocessed, takeBody_append_of_le hmore,
        Nat.min_eq_left (hmore.trans (by simp))]
    · have hneeded : 0 < (t.takeBody after).bodyBytesNeeded := Nat.sub_pos_of_lt (not_le.mp hmore)
      have hwaiting : (t.takeBody after).Waiting :=
        ⟨decide_eq_false hmore, fun _ => rfl, fun hzero => absurd hzero hneeded.ne'⟩
      refine .pending (t.takeBody after) ?_ hwaiting (fun hr => hbounded hr _ rfl rfl rfl)
        (fun y => .inr ?_) fun y => ?_
      · have hx := hconsume []
        simp only [List.append_nil] at hx
        rw [hx, hend count _ _ _ hafter, Nat.min_eq_right (not_le.mp hmore).le,
          Nat.sub_add_cancel hle]
      · rw [hconsume, hend count _ _ _ (hwhole y), hprocessed,
          takeBody_append_of_lt (not_le.mp hmore), consume_body hwaiting hneeded]
        refine ⟨congrArg Except.ok ?_, fun _ _ => rfl⟩
        dsimp only [t, takeBody]
        rw [List.length_append]
        omega
      · rw [charge, if_neg hneeded.ne']
        exact Nat.zero_le _

theorem Waiting.step_head {r : Request} (h : r.Waiting) (hbody : r.bodyBytesNeeded = 0)
    {x : List Char} : r.Step x := by
  obtain ⟨buf, hbuf, hcut⟩ := h.head hbody
  have hconsume : ∀ y, r.consume y =
      leaveLoop y (buf ++ y) (reader.read r.headerBytes r (buf ++ y)) := by
    intro y
    rw [h.consume_eq hbody, hbuf, Option.getD_some]
  have hsame := read_sameBody r.headerBytes r (buf ++ x)
  have hready := hsame.ready.trans h.ready
  have hstored : r.Bounded → _ := fun hr => read_stored hr.stored (buf ++ x)
  have hlimit := reader.exceeded_iff r.headerBytes r (buf ++ x)
  cases hread : reader.read r.headerBytes r (buf ++ x) with
  | exceeded count s =>
    refine .exceeded ?_ ?_
    · rw [hconsume, hread]
      rfl
    · rw [charge, if_pos hbody, hbuf, Option.getD_some, hread]
      exact (hread ▸ hlimit).mp trivial
  | failed e count s =>
    obtain ⟨s', line, hfault⟩ := reader.read_failed hread
    obtain ⟨msg, rfl⟩ := processLine_fault hfault
    refine .refused (.exception msg .badRequest) (badRequest_ne_headerLimit msg)
      (fun heq => by cases heq) fun y => ?_
    rw [hconsume, ← List.append_assoc, reader.read_append_failed hread y]
    rfl
  | blank count s after =>
    rw [hread] at hstored hlimit
    refine h.step_blank hbody hbuf hread (after_suffix hcut hread)
      fun hr t ht hcount hnone => ⟨?_, ?_⟩
    · rw [ht, hcount]
      exact hstored hr
    · rw [hnone, hcount]
      exact not_lt.mp (mt hlimit.mpr id)
  | outOfBytes count s rest =>
    rw [hread] at hready hsame hstored hlimit
    have hneeded : s.bodyBytesNeeded = 0 := hsame.needed.trans hbody
    have hopen : s.ready = false := hready
    have hrest := reader.cut_rest hread
    have hwaiting : (s.recount count (some rest)).Waiting :=
      ⟨hready, fun hpos => absurd hneeded hpos.ne', fun _ => ⟨rest, rfl, hrest⟩⟩
    refine .pending (s.recount count (some rest)) ?_ hwaiting (fun hr => ⟨hstored hr, ?_⟩)
      (fun y => ?_) fun y => ?_
    · rw [hconsume, hread]
      rfl
    · exact not_lt.mp (mt hlimit.mpr id)
    · obtain ⟨c, rfl, happend⟩ := reader.read_append hread y
      rw [hconsume, ← List.append_assoc, happend, consume_head hopen hneeded]
      rcases reader.read_add c reader.fee s (rest ++ y) with hexceeded | ⟨_, hadd⟩
      · left
        cases hq : reader.read (c + reader.fee) s (rest ++ y) with
        | exceeded => rfl
        | outOfBytes | blank | failed =>
          rw [hq] at hexceeded
          cases hexceeded
      · right
        rw [hadd]
        exact leaveLoop_agrees (fun _ _ _ hblank => after_suffix hrest hblank) reader.fee
    · obtain ⟨c, rfl, happend⟩ := reader.read_append hread y
      have hmap := reader.read_map (processLine_recount (c + reader.fee) (some rest))
        (c + reader.fee) s (rest ++ y)
      have hneeded' : (s.recount (c + reader.fee) (some rest)).bodyBytesNeeded = 0 := hneeded
      rw [charge, if_pos hneeded', charge, if_pos hbody, hbuf, Option.getD_some,
        ← List.append_assoc, happend]
      change (reader.read (c + reader.fee) (s.recount (c + reader.fee) (some rest))
        (rest ++ y)).charged ≤ _
      rw [hmap, Read.charged_map]
      exact reader.charged_add_le c reader.fee s (rest ++ y)

theorem Waiting.step {r : Request} (h : r.Waiting) (x : List Char) :
    r.Step x := by
  rcases Nat.eq_zero_or_pos r.bodyBytesNeeded with hbody | hbody
  · exact h.step_head hbody
  · exact h.step_body hbody

theorem Waiting.charge_of_limit {r : Request} (h : r.Waiting) {x : List Char}
    (hlimit : (r.consume x).1 = .error headerLimit) : maxHeaderSize < r.charge x := by
  have hx := List.append_nil x
  cases h.step x with
  | refused e hne _ hrefused =>
    rw [← hx, hrefused []] at hlimit
    exact absurd (Except.error.inj hlimit) hne
  | exceeded _ hcharge => exact hcharge
  | complete n r₁ _ _ _ hcomplete =>
    rw [← hx, hcomplete []] at hlimit
    cases hlimit
  | pending r₁ hpending =>
    rw [hpending] at hlimit
    cases hlimit

/-! ### Any number of pieces -/

theorem feed_cons_error {r r₁ : Request} {chunk : List Char} {e : Fault}
    (h : r.consume chunk = (.error e, r₁)) (chunks : List (List Char)) :
    r.feed (chunk :: chunks) = (.error e, r₁) := by
  rw [feed, h]

theorem feed_cons_ready {r r₁ : Request} {chunk : List Char} {n : ℕ}
    (h : r.consume chunk = (.ok n, r₁)) (hready : r₁.ready = true) (chunks : List (List Char)) :
    r.feed (chunk :: chunks) = (.ok n, r₁) := by
  rw [feed, h]
  exact if_pos hready

theorem feed_cons {r r₁ : Request} {chunk : List Char} {n : ℕ}
    (h : r.consume chunk = (.ok n, r₁)) (hready : r₁.ready = false) (chunks : List (List Char)) :
    r.feed (chunk :: chunks) = shift n (r₁.feed chunks) := by
  rw [feed, h]
  dsimp only
  rw [hready]
  rfl

/-- Unless the limit is met, the pieces give what the whole gives. -/
theorem feed_agrees {r : Request} (h : r.Waiting) {chunks : List (List Char)} (hne : chunks ≠ [])
    (hlimit : (r.feed chunks).1 ≠ .error headerLimit) :
    Agrees (r.consume chunks.flatten) (r.feed chunks) := by
  induction chunks generalizing r with
  | nil => exact absurd rfl hne
  | cons chunk chunks ih =>
    rw [List.flatten_cons]
    have hchunk := List.append_nil chunk
    cases h.step chunk with
    | refused e he _ hrefused =>
      have hfirst := hrefused []
      rw [hchunk] at hfirst
      have hfeed := feed_cons_error (Prod.ext hfirst rfl) chunks
      refine ⟨?_, fun n hn => ?_⟩
      · rw [hrefused chunks.flatten, hfeed]
      · rw [hrefused chunks.flatten] at hn
        cases hn
    | exceeded hexceeded _ =>
      rw [feed_cons_error (Prod.ext hexceeded rfl)] at hlimit
      exact absurd rfl hlimit
    | complete n r₁ hle hready hbounded hcomplete =>
      have hfirst := hcomplete []
      rw [hchunk] at hfirst
      rw [feed_cons_ready hfirst hready, hcomplete chunks.flatten]
      exact .refl _
    | pending r₁ hfirst hwaiting hbounded hmore hcharge =>
      rw [feed_cons hfirst hwaiting.ready] at hlimit ⊢
      cases chunks with
      | nil =>
        rw [List.flatten_nil, hchunk, hfirst]
        exact .refl _
      | cons chunk' chunks =>
        have hrest : (r₁.feed (chunk' :: chunks)).1 ≠ .error headerLimit := by
          intro hfeed
          refine hlimit ?_
          rw [shift, hfeed]
          rfl
        have hwhole := ih hwaiting (List.cons_ne_nil _ _) hrest
        rcases hmore _ with hexceeded | hagrees
        · rw [hwhole.1] at hexceeded
          exact absurd hexceeded hrest
        · exact hagrees.trans (hwhole.shift _)

/-! ### The limit -/

theorem charge_append_le (r : Request) (x y : List Char) :
    r.charge x ≤ r.charge (x ++ y) + 1 := by
  unfold charge
  split_ifs
  · rw [← List.append_assoc]
    exact reader.charged_append_le _ _ _ y
  · exact Nat.zero_le _

theorem feed_within {r : Request} (h : r.Waiting) {chunks : List (List Char)}
    (hlimit : r.charge chunks.flatten + 3 * chunks.length ≤ maxHeaderSize) :
    (r.feed chunks).1 ≠ .error headerLimit := by
  induction chunks generalizing r with
  | nil =>
    intro herror
    cases herror
  | cons chunk chunks ih =>
    rw [List.flatten_cons] at hlimit
    rw [List.length_cons] at hlimit
    have hchunk := List.append_nil chunk
    cases h.step chunk with
    | refused e he _ hrefused =>
      have hfirst := hrefused []
      rw [hchunk] at hfirst
      rw [feed_cons_error (Prod.ext hfirst rfl)]
      exact fun heq => he (Except.error.inj heq)
    | exceeded _ hover =>
      have hcharge := r.charge_append_le chunk chunks.flatten
      omega
    | complete n r₁ hle hready hbounded hcomplete =>
      have hfirst := hcomplete []
      rw [hchunk] at hfirst
      rw [feed_cons_ready hfirst hready]
      exact fun heq => by cases heq
    | pending r₁ hfirst hwaiting hbounded hmore hcharge =>
      have hnext := hcharge chunks.flatten
      have hfee : reader.fee = 3 := rfl
      have hrest := ih hwaiting (by omega)
      rw [feed_cons hfirst hwaiting.ready, shift]
      intro herror
      cases hfeed : (r₁.feed chunks).1 with
      | error e =>
        rw [hfeed] at herror hrest
        exact hrest (congrArg Except.error (Except.error.inj herror))
      | ok m =>
        rw [hfeed] at herror
        cases herror

theorem init_waiting : init.Waiting := by
  refine ⟨rfl, fun hpos => ?_, fun _ => ⟨[], rfl, rfl⟩⟩
  cases hpos

/-- Two ways to cut the same bytes give the same results and, up to `m_header_bytes`, the same
request, unless one of them meets the limit; it does not where what the head costs in one piece
leaves room for a separator with every piece. -/
theorem cuts_agree {r : Request} (h : r.Waiting) {chunks chunks' : List (List Char)}
    (hne : chunks ≠ []) (hne' : chunks' ≠ []) (hsame : chunks'.flatten = chunks.flatten) :
    ((r.feed chunks).1 ≠ .error headerLimit → (r.feed chunks').1 ≠ .error headerLimit →
      Agrees (r.feed chunks) (r.feed chunks')) ∧
    (r.charge chunks.flatten + 3 * chunks.length ≤ maxHeaderSize →
      (r.feed chunks).1 ≠ .error headerLimit) := by
  refine ⟨fun hlimit hlimit' => ?_, feed_within h⟩
  have hwhole := feed_agrees h hne hlimit
  have hwhole' := feed_agrees h hne' hlimit'
  rw [hsame] at hwhole'
  refine ⟨hwhole.1.symm.trans hwhole'.1, fun n hn => ?_⟩
  have hn' : (r.consume chunks.flatten).1 = .ok n := hwhole.1.trans hn
  exact (hwhole.2 n hn').symm.trans (hwhole'.2 n hn')

theorem get_cut_anywhere :
    Agrees (init.feed ["GET / HTTP/1.1\r\nHost: a\r\n\r\nrest".toList])
      (init.feed ["GET / HT".toList, "TP/1.1\r".toList, "\nHost: a\r\n\r".toList,
        "\nrest".toList]) := by
  refine (cuts_agree init_waiting ?_ ?_ ?_).1 ?_ ?_
  · decide
  · decide
  · decide
  · decide +kernel
  · decide +kernel

end Request

end MSylar.Http
