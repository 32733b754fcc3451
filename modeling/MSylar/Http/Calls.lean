import MSylar.Http.Cuts
import MSylar.Lib.Execution

/-!
# Any sequence of calls (protocol/http/impl/request.hpp)

`consume` gives the buffer up at the end of the head, and computes positions from the lengths of
buffer and piece. After a call that has thrown, the buffer still holds lines that have been read, so
that a later call may compute a position outside its piece; before the first exception, and again
after `reset`, it does not.
-/

namespace MSylar.Http
open MSylar.Execution MSylar.Lines MSylar.Word

namespace Request

inductive Call where
  | consume (bytes : List Char)
  | reset

def isError : Except Fault ℕ → Bool
  | .error _ => true
  | .ok _ => false

/-- The flag tells whether a call has thrown since the last `reset`. -/
def call (s : Request × Bool) : Call → Option (Request × Bool)
  | .consume bytes =>
    let res := s.1.consume bytes
    some (res.2, s.2 || isError res.1)
  | .reset => some (s.1.reset, false)

/-! ### All states -/

/-- The body stays within its limit; it is not begun before the buffer is given up. -/
structure BodyKept (r : Request) : Prop where
  max : r.bodyBytesMax = maxBodySize
  fresh : r.buf ≠ none → r.bodyEncoding ≠ .plain
  plain : r.bodyEncoding = .plain → r.body.length + r.bodyBytesNeeded ≤ maxBodySize
  other : r.bodyEncoding ≠ .plain → r.body = []

/-- What holds also after exceptions. -/
structure Sane (r : Request) : Prop extends BodyKept r where
  buffer : r.buf = none → r.ready = true ∨ 0 < r.bodyBytesNeeded

theorem Sane.reset {r : Request} (h : r.Sane) : r.reset.Sane := by
  refine ⟨⟨h.max, fun _ hplain => ?_, fun hplain => ?_, fun _ => rfl⟩, fun hnone => ?_⟩
  · cases hplain
  · cases hplain
  · cases hnone

theorem init_sane : init.Sane := by
  refine ⟨⟨rfl, fun _ hplain => ?_, fun hplain => ?_, fun _ => rfl⟩, fun hnone => ?_⟩
  · cases hplain
  · cases hplain
  · cases hnone

theorem BodyKept.sameBody {r s : Request} (h : r.BodyKept) (hbuf : r.buf ≠ none)
    (hsame : SameBody r s) (count : ℕ) (buf : List Char) :
    (s.recount count (some buf)).Sane := by
  have hfresh : s.bodyEncoding ≠ .plain := hsame.encoding ▸ h.fresh hbuf
  refine ⟨⟨hsame.max.trans h.max, fun _ => hfresh, fun hplain => ?_, fun _ => ?_⟩, fun hnone => ?_⟩
  · exact absurd hplain hfresh
  · exact hsame.body.trans (h.other (h.fresh hbuf))
  · cases hnone

theorem processBody_of_ne_plain {p : Parser} (h : p.bodyEncoding ≠ .plain) (bytes : List Char) :
    p.processBody bytes =
      (.error (.exception "Unexpected body encoding" .internalServerError), p) := by
  unfold Parser.processBody
  cases hencoding : p.bodyEncoding with
  | plain => exact absurd hencoding h
  | chunked => rfl
  | unknown => rfl

theorem BodyKept.consumeBody {r : Request} (h : r.BodyKept)
    (hbuffer : r.bodyEncoding ≠ .plain → r.buf = none → r.ready = true ∨ 0 < r.bodyBytesNeeded)
    (bytes : List Char) (processed : ℕ) :
    (r.consumeBody bytes processed).2.Sane ∧
      (r.consumeBody bytes processed).1 ≠ .error .nullBuffer := by
  unfold Request.consumeBody
  split_ifs with hout
  · exact ⟨⟨h, fun _ => .inr hout.2⟩, fun herror => by cases herror⟩
  · by_cases hplain : r.bodyEncoding = .plain
    · rw [Parser.processBody, hplain]
      dsimp only [Parser.bodyReady]
      refine ⟨⟨⟨h.max, fun hbuf _ => h.fresh hbuf hplain, fun _ => ?_, fun hother => ?_⟩,
        fun _ => ?_⟩, fun herror => by cases herror⟩
      · have hle := h.plain hplain
        dsimp only
        rw [List.length_append, List.length_take]
        omega
      · exact absurd rfl hother
      · rw [decide_eq_true_iff]
        exact Nat.eq_zero_or_pos _
    · rw [processBody_of_ne_plain hplain]
      exact ⟨⟨h, hbuffer hplain⟩, fun herror => by cases herror⟩

theorem Sane.blankLine {r : Request} (h : r.Sane) (hbuf : r.buf ≠ none) (bytes after : List Char) :
    (r.blankLine bytes after).2.Sane ∧ (r.blankLine bytes after).1 ≠ .error .nullBuffer := by
  have hother := h.other (h.fresh hbuf)
  have hmax := h.max
  unfold Request.blankLine
  split_ifs
  · exact ⟨h, fun herror => by cases herror⟩
  · rcases r.toParser.prepareBody_cases with hbody | ⟨hlt, hbody⟩ | ⟨hle, hbody⟩
    · dsimp only
      rw [hbody]
      exact ⟨⟨⟨h.max, fun hne => absurd rfl hne, h.plain, h.other⟩, fun _ => .inl rfl⟩,
        fun herror => by cases herror⟩
    · dsimp only
      rw [hbody]
      refine ⟨⟨⟨h.max, fun hne => absurd rfl hne, fun hplain => ?_, h.other⟩, fun _ => .inr ?_⟩,
        fun herror => by cases herror⟩
      · exact absurd hplain (h.fresh hbuf)
      · exact Nat.zero_lt_of_lt hlt
    · dsimp only
      rw [hbody]
      dsimp only
      refine BodyKept.consumeBody ⟨?_, ?_, fun _ => ?_, fun hne => ?_⟩ ?_ bytes _
      · exact hmax
      · exact fun hne => absurd rfl hne
      · dsimp only
        rw [hother, List.length_nil, Nat.zero_add, ← hmax]
        exact hle
      · exact absurd rfl hne
      · exact fun hne => absurd rfl hne

theorem Sane.consume {r : Request} (h : r.Sane) (bytes : List Char) :
    (r.consume bytes).2.Sane ∧ (r.consume bytes).1 ≠ .error .nullBuffer := by
  unfold Request.consume
  split_ifs with hready hneeded
  · exact ⟨h, fun herror => by cases herror⟩
  · exact h.toBodyKept.consumeBody (fun _ _ => .inr hneeded) bytes 0
  · cases hbuf : r.buf with
    | none =>
      rcases h.buffer hbuf with htrue | hpos
      · exact absurd htrue hready
      · exact absurd hpos hneeded
    | some buf =>
      have hne : r.buf ≠ none := by simp [hbuf]
      have hsame := read_sameBody r.headerBytes r (buf ++ bytes)
      dsimp only
      cases hread : reader.read r.headerBytes r (buf ++ bytes) with
      | exceeded count s =>
        rw [hread] at hsame
        exact ⟨h.toBodyKept.sameBody hne hsame count _, fun herror => by cases herror⟩
      | failed e count s =>
        obtain ⟨s', line, hfault⟩ := reader.read_failed hread
        obtain ⟨msg, rfl⟩ := processLine_fault hfault
        rw [hread] at hsame
        exact ⟨h.toBodyKept.sameBody hne hsame count _, fun herror => by cases herror⟩
      | outOfBytes count s rest =>
        rw [hread] at hsame
        exact ⟨h.toBodyKept.sameBody hne hsame count rest, fun herror => by cases herror⟩
      | blank count s after =>
        rw [hread] at hsame
        exact (h.toBodyKept.sameBody hne hsame count (buf ++ bytes)).blankLine
          (Option.some_ne_none _) bytes after

/-! ### Before an exception -/

/-- What holds in addition until a call throws. -/
structure Fine (r : Request) : Prop where
  waiting : r.ready = true ∨ r.Waiting
  bounded : r.Bounded

theorem Fine.consume {r : Request} (h : r.Fine) (bytes : List Char) :
    (r.consume bytes).1 ≠ .error .outOfBounds ∧ ∀ n r₁, r.consume bytes = (.ok n, r₁) →
      r₁.Fine ∧ n ≤ bytes.length ∧ (n < bytes.length → r₁.ready = true) := by
  rcases h.waiting with hready | hwaiting
  · rw [Request.consume, if_pos hready]
    refine ⟨(fun herror => by cases herror), fun n r₁ hres => ?_⟩
    cases hres
    exact ⟨h, Nat.zero_le _, fun _ => hready⟩
  · have hbytes := List.append_nil bytes
    cases hwaiting.step bytes with
    | refused e _ hin hrefused =>
      have hfirst := hrefused []
      rw [hbytes] at hfirst
      refine ⟨fun herror => hin (Except.error.inj (hfirst.symm.trans herror)), fun n r₁ hres => ?_⟩
      rw [hres] at hfirst
      cases hfirst
    | exceeded hexceeded _ =>
      refine ⟨(fun herror => by cases hexceeded.symm.trans herror), fun n r₁ hres => ?_⟩
      rw [hres] at hexceeded
      cases hexceeded
    | complete n r₁ hle hready hbounded hcomplete =>
      have hfirst := hcomplete []
      rw [hbytes] at hfirst
      rw [hfirst]
      refine ⟨(fun herror => by cases herror), fun m r₂ hres => ?_⟩
      cases hres
      exact ⟨⟨.inl hready, hbounded h.bounded⟩, hle, fun _ => hready⟩
    | pending r₁ hfirst hwaiting hbounded _ _ =>
      rw [hfirst]
      refine ⟨(fun herror => by cases herror), fun m r₂ hres => ?_⟩
      cases hres
      exact ⟨⟨.inr hwaiting, hbounded h.bounded⟩, le_rfl, fun hlt => absurd hlt (lt_irrefl _)⟩

theorem Fine.of_empty {r : Request} (hready : r.ready = false) (hneeded : r.bodyBytesNeeded = 0)
    (hbuf : r.buf = some []) (hstored : r.stored = 0) (hcount : r.headerBytes = 0) : r.Fine := by
  refine ⟨.inr ⟨hready, fun hpos => absurd hneeded hpos.ne', fun _ => ⟨[], hbuf, rfl⟩⟩, ?_, ?_⟩
  · exact hstored.trans_le (Nat.zero_le _)
  · rw [hcount, hbuf]
    exact Nat.zero_le _

theorem call_step {s s' : Request × Bool} {c : Call} (h : s.1.Sane ∧ (s.2 = false → s.1.Fine))
    (hcall : call s c = some s') : s'.1.Sane ∧ (s'.2 = false → s'.1.Fine) := by
  cases c with
  | reset =>
    cases hcall
    exact ⟨h.1.reset, fun _ => .of_empty rfl rfl rfl rfl rfl⟩
  | consume bytes =>
    cases hcall
    refine ⟨(h.1.consume bytes).1, fun hthrown => ?_⟩
    obtain ⟨hbefore, hnow⟩ := Bool.or_eq_false_iff.mp hthrown
    rcases hconsume : s.1.consume bytes with ⟨e | n, r₁⟩
    · rw [hconsume] at hnow
      cases hnow
    · exact (((h.2 hbefore).consume bytes).2 n r₁ hconsume).1

/-- In whatever order `consume` and `reset` are called and whatever bytes arrive, no call uses the
buffer that was given up, and the body stays within its limit. Until a call throws, and again after
`reset`, no call reads outside its bytes, a call that leaves bytes over has completed the request, and
what is stored of the head is within the limit of the head. -/
theorem calls_safe {calls : List Call} {r : Request} {thrown : Bool}
    (hrun : exec call (init, false) calls = some (r, thrown)) :
    (∀ bytes, (r.consume bytes).1 ≠ .error .nullBuffer) ∧ r.body.length ≤ maxBodySize ∧
      (thrown = false → r.stored + (r.buf.getD []).length ≤ maxHeaderSize ∧
        ∀ bytes, (r.consume bytes).1 ≠ .error .outOfBounds ∧
          ∀ n r₁, r.consume bytes = (.ok n, r₁) →
            n ≤ bytes.length ∧ (n < bytes.length → r₁.ready = true)) := by
  have hinit : init.Sane ∧ (false = false → init.Fine) :=
    ⟨init_sane, fun _ => .of_empty rfl rfl rfl rfl rfl⟩
  obtain ⟨hsane, hfine⟩ : r.Sane ∧ (thrown = false → r.Fine) :=
    exec_invariant (fun _ _ _ hs hcall => call_step hs hcall) hinit hrun
  refine ⟨fun bytes => (hsane.consume bytes).2, ?_, fun hthrown => ⟨?_, fun bytes => ?_⟩⟩
  · by_cases hplain : r.bodyEncoding = .plain
    · exact (Nat.le_add_right _ _).trans (hsane.plain hplain)
    · rw [hsane.other hplain]
      exact Nat.zero_le _
  · have hstored := (hfine hthrown).bounded.stored
    have hlimit := (hfine hthrown).bounded.limit
    omega
  · obtain ⟨hin, hres⟩ := (hfine hthrown).consume bytes
    exact ⟨hin, fun n r₁ hconsume => (hres n r₁ hconsume).2⟩

/-- A request that is not complete is refused, and the next one is safe again. -/
theorem refused_then_reset : ∃ r, exec call (init, false)
      [.consume "GET / HTTP/1.1\r\n\r\n".toList, .consume "\r\n".toList, .reset] = some (r, false) ∧
    ∀ bytes, (r.consume bytes).1 ≠ .error .outOfBounds := by
  obtain ⟨r, hrun⟩ : ∃ r, exec call (init, false)
      [.consume "GET / HTTP/1.1\r\n\r\n".toList, .consume "\r\n".toList, .reset] = some (r, false) :=
    ⟨_, rfl⟩
  exact ⟨r, hrun, fun bytes => (((calls_safe hrun).2.2 rfl).2 bytes).1⟩

-- After the exception the request line is read once more, as a header, and completes the head.
example : ((init.consume "Host :x y\r\nContent-Length: 5\r\n\r\nabcde".toList).2.consume []).1 =
    .error .outOfBounds := by decide +kernel

end Request

end MSylar.Http
