import MSylar.WebSocket.HandleClient

/-!
# The heartbeat of a session (wsserver.cc:90-151)

The ping timer sends a ping, sleeps and looks at the time of the last frame. The times are
`uint64_t`, the timeout is a `uint32_t` of seconds; 100 ms are taken off for the error of the timer.
-/

namespace MSylar.WebSocket
open HandleClient

/-- How the condition coroutine ends: by `cancel`, with `true`, or with `false` in the branch of the
ping timeout. -/
inductive Verdict where
  | canceled
  | alive
  | timedOut
  deriving DecidableEq

/-- The state is read before the ping and after the sleep, the clock and the time of the last frame
after the sleep. -/
def condition (before after : State) (now recentPong : UInt64) (pongTimeout : UInt32) : Verdict :=
  if before ≠ .opened then .canceled
  else if after ≠ .opened then .canceled
  else if now < recentPong then .alive
  else if now > recentPong ∧ now - recentPong - 100 > (pongTimeout * 1000).toUInt64 then .timedOut
  else .alive

def conditionCb (state : State) : State := if state ≠ .opened then state else .closed

/-- The state after a run of the timer, `TimeTask::runner` with the three callbacks. -/
def heartbeat (before after : State) (now recentPong : UInt64) (pongTimeout : UInt32) : State :=
  match condition before after now recentPong pongTimeout with
  | .alive => after
  | _ => conditionCb after

/-! ### In milliseconds -/

theorem timeout_toNat (t : UInt32) : (t * 1000).toUInt64.toNat = t.toNat * 1000 % 2 ^ 32 := by
  rw [UInt32.toNat_toUInt64, UInt32.toNat_mul]
  rfl

/-- The subtraction of the tolerance wraps around below 100 ms. -/
theorem silence_toNat {now recent : UInt64} (h : recent ≤ now) :
    (now - recent - 100).toNat =
      if now.toNat - recent.toNat < 100 then 2 ^ 64 + (now.toNat - recent.toNat) - 100
      else now.toNat - recent.toNat - 100 := by
  have hle : recent.toNat ≤ now.toNat := UInt64.le_iff_toNat_le.mp h
  have hlt := now.toNat_lt
  have hhundred : (100 : UInt64).toNat = 100 := rfl
  rw [UInt64.toNat_sub, UInt64.toNat_sub, hhundred]
  split <;> omega

theorem condition_timedOut_iff {before after : State} {now recent : UInt64} {t : UInt32}
    (h : recent ≤ now) : condition before after now recent t = .timedOut ↔
      (before = .opened ∧ after = .opened) ∧ 0 < now.toNat - recent.toNat ∧
        (now.toNat - recent.toNat < 100 ∨
          t.toNat * 1000 % 2 ^ 32 + 100 < now.toNat - recent.toNat) := by
  have hle : recent.toNat ≤ now.toNat := UInt64.le_iff_toNat_le.mp h
  have htest : (now > recent ∧ now - recent - 100 > (t * 1000).toUInt64) ↔
      0 < now.toNat - recent.toNat ∧ (now.toNat - recent.toNat < 100 ∨
        t.toNat * 1000 % 2 ^ 32 + 100 < now.toNat - recent.toNat) := by
    rw [gt_iff_lt, gt_iff_lt, UInt64.lt_iff_toNat_lt, UInt64.lt_iff_toNat_lt, timeout_toNat,
      silence_toNat h]
    split <;> omega
  unfold condition
  rw [← htest]
  have hnot : ¬ now < recent := UInt64.not_lt.mpr h
  split_ifs with hbefore hafter hsilent
  · simp [hbefore]
  · simp [hafter]
  · exact ⟨fun _ => ⟨⟨not_not.mp hbefore, not_not.mp hafter⟩, hsilent⟩, fun _ => rfl⟩
  · exact ⟨fun hne => absurd hne (by decide), fun hall => absurd hall.2 hsilent⟩

theorem heartbeat_opened {now recent : UInt64} {t : UInt32} :
    heartbeat .opened .opened now recent t = .opened ↔
      condition .opened .opened now recent t ≠ .timedOut := by
  unfold heartbeat
  cases hc : condition .opened .opened now recent t with
  | canceled =>
    exfalso
    revert hc
    simp only [condition, ne_eq, not_true_eq_false, if_false]
    split_ifs <;> simp
  | alive => simp
  | timedOut => simp [conditionCb]

/-- The branch of the timeout closes silent sessions only, except in two ranges of the silence: below
the tolerance, and where the timeout in milliseconds does not fit in its 32 bits. -/
theorem heartbeat_closes_silent_iff (now recent : UInt64) (t : UInt32) (h : recent ≤ now) :
    ((∀ before after, condition before after now recent t = .timedOut →
        t.toNat * 1000 < now.toNat - recent.toNat) ∧
      (now.toNat - recent.toNat ≤ t.toNat * 1000 →
        heartbeat .opened .opened now recent t = .opened)) ↔
    ¬ (0 < now.toNat - recent.toNat ∧ now.toNat - recent.toNat < 100 ∧
        now.toNat - recent.toNat ≤ t.toNat * 1000) ∧
      ¬ (t.toNat * 1000 % 2 ^ 32 + 100 < now.toNat - recent.toNat ∧
        now.toNat - recent.toNat ≤ t.toNat * 1000) := by
  simp only [heartbeat_opened, ne_eq, condition_timedOut_iff h]
  constructor
  · rintro ⟨hsilent, -⟩
    have hopen := hsilent .opened .opened
    simp only [true_and, and_true] at hopen
    omega
  · intro hrange
    refine ⟨?_, ?_⟩
    · rintro before after ⟨-, hpos, hlong⟩
      omega
    · rintro hshort ⟨-, hpos, hlong⟩
      omega

theorem silent_session_closed :
    ((∀ before after, condition before after 40000 20000 15 = .timedOut →
        (15 : UInt32).toNat * 1000 < (40000 : UInt64).toNat - (20000 : UInt64).toNat) ∧
      ((40000 : UInt64).toNat - (20000 : UInt64).toNat ≤ (15 : UInt32).toNat * 1000 →
        heartbeat .opened .opened 40000 20000 15 = .opened)) ∧
    heartbeat .opened .opened 40000 20000 15 = .closed :=
  ⟨(heartbeat_closes_silent_iff 40000 20000 15 (by decide)).mpr (by decide), by decide⟩

/-- A frame 50 ms before the check, and a timeout of 4294968 s that comes out as 704 ms. -/
theorem active_session_closed :
    heartbeat .opened .opened 20050 20000 15 = .closed ∧
    heartbeat .opened .opened 30000 20000 4294968 = .closed ∧
    ¬ ((15 : UInt32).toNat * 1000 < (20050 : UInt64).toNat - (20000 : UInt64).toNat) ∧
    ¬ ((4294968 : UInt32).toNat * 1000 < (30000 : UInt64).toNat - (20000 : UInt64).toNat) := by
  decide

end MSylar.WebSocket
