import Mathlib.Algebra.Order.Floor.Div
import MSylar.Basic.FdManager
import MSylar.Lib.Word
import MSylar.Timer.Limit

/-!
# Emulated blocking calls (hook.cc:113-216, hook.h:8-10, fdManager.cc:82-105)

`do_io` calls the wrapped function until it has an answer: at once again after EINTR, and after a
wait for the descriptor where it says EAGAIN. The machine gets the results of the function and of
the waits one by one.
-/

namespace MSylar.Basic

def soRcvtimeo : ℤ := 20

def FdCtx.setTimeout (c : FdCtx) (type : ℤ) (time : ℕ) : FdCtx :=
  if type = soRcvtimeo then { c with recvTimeout := time } else { c with sendTimeout := time }

def FdCtx.getTimeout (c : FdCtx) (type : ℤ) : ℕ :=
  if type = soRcvtimeo then c.recvTimeout else c.sendTimeout

/-- Every type other than `SO_RCVTIMEO` names the send timeout. -/
theorem FdCtx.getTimeout_setTimeout (c : FdCtx) (type type' : ℤ) (time : ℕ) :
    (c.setTimeout type time).getTimeout type' =
      if type = soRcvtimeo ↔ type' = soRcvtimeo then time else c.getTimeout type' := by
  unfold setTimeout getTimeout
  by_cases htype : type = soRcvtimeo <;> by_cases htype' : type' = soRcvtimeo <;>
    simp [htype, htype']

end MSylar.Basic

namespace MSylar.Coro
open MSylar.Basic MSylar.Execution MSylar.Timer MSylar.Word

def eintr : ℤ := 4
def eio : ℤ := 5
def eagain : ℤ := 11
def ebadfd : ℤ := 77
def etimedout : ℤ := 110

-- `HOOK_IOAWAIT_TIMEOUT`, in milliseconds
def hookIoawaitTimeout : ℕ := 5000

/-- What the wrapped function returned, and `errno` after it. The functions return `int` or
`ssize_t`, and Linux moves at most `0x7ffff000` bytes in one call. -/
structure SysResult where
  ret : ℤ
  errno : ℤ
  bounds : -2^31 ≤ ret ∧ ret < 2^31
  deriving DecidableEq

inductive IoInput where
  | result (r : SysResult)
  | resumed (state : LimitState)
  deriving DecidableEq

/-- A single call whose result is returned as it is, a call in the loop, a wait with its limit, and
the end with the result and `errno`. -/
inductive IoPoint where
  | direct
  | calling
  | waiting (limit : ℕ)
  | returned (n errno : ℤ)
  deriving DecidableEq

structure DoIo where
  timeOut : ℕ
  point : IoPoint
  deriving DecidableEq

/-- The limit in milliseconds for a timeout in microseconds. -/
def timeOutOf (timeUs : ℕ) : ℕ :=
  let timeOut := if timeUs = 0 ∨ timeUs = 2^64 - 1 then hookIoawaitTimeout
    else add64 timeUs 999 / 1000
  if timeOut = 0 then 1 else timeOut

/-- The limit that `io_Awaiter` hands to `addEventWithTimeout`. -/
def awaiterLimit (timo : ℕ) : ℕ := if timo ≠ 0 then timo else hookIoawaitTimeout

namespace DoIo

def start (fdCtx : Option FdCtx) (type : ℤ) : DoIo :=
  match fdCtx with
  | none => ⟨0, .direct⟩
  | some c =>
    if c.isClosed then ⟨0, .returned (-1) ebadfd⟩
    else if !c.isSocket || c.userNoblock then ⟨0, .direct⟩
    else ⟨timeOutOf (c.getTimeout type), .calling⟩

def afterCall (timeOut : ℕ) (r : SysResult) : IoPoint :=
  let n := int32 r.ret
  if n = -1 ∧ r.errno = eintr then .calling
  else if n = -1 ∧ r.errno = eagain then .waiting (awaiterLimit timeOut)
  else .returned n r.errno

def afterWait : LimitState → IoPoint
  | .finished => .calling
  | .timeout => .returned (-1) etimedout
  | _ => .returned (-1) eio

def step (s : DoIo) (x : IoInput) : Option DoIo :=
  match s.point, x with
  | .direct, .result r => some { s with point := .returned (int32 r.ret) r.errno }
  | .calling, .result r => some { s with point := afterCall s.timeOut r }
  | .waiting _, .resumed state => some { s with point := afterWait state }
  | _, _ => none

end DoIo

/-! ### A blocking call -/

def IoInput.call? : IoInput → Option SysResult
  | .result r => some r
  | .resumed _ => none

def IoInput.wait? : IoInput → Option LimitState
  | .result _ => none
  | .resumed state => some state

def SysResult.isIntr (r : SysResult) : Prop := r.ret = -1 ∧ r.errno = eintr

def SysResult.isAgain (r : SysResult) : Prop := r.ret = -1 ∧ r.errno = eagain

def lastCall (inputs : List IoInput) : Option SysResult := (inputs.filterMap IoInput.call?).getLast?

def lastWait (inputs : List IoInput) : Option LimitState := (inputs.filterMap IoInput.wait?).getLast?

/-- The timeout rounded up to milliseconds, at least one, or the default. -/
def roundedLimit (timeUs : ℕ) : ℕ :=
  if timeUs = 0 ∨ timeUs = 2^64 - 1 then hookIoawaitTimeout else max 1 (timeUs ⌈/⌉ 1000)

/-- The call has taken these inputs and stands in the state `s`. A state that has not returned
takes every result of what it stands before. -/
structure Emulates (timeUs : ℕ) (inputs : List IoInput) (s : DoIo) : Prop where
  final : ∀ n errno, s.point = .returned n errno → ¬(n = -1 ∧ (errno = eagain ∨ errno = eintr))
  timedOut : s.point = .returned (-1) etimedout ∧ (∃ x ∈ inputs.getLast?, x.wait?.isSome) ↔
    lastWait inputs = some .timeout
  answered : ∀ n errno, s.point = .returned n errno → lastWait inputs ≠ some .timeout →
    ∃ r, lastCall inputs = some r ∧ n = r.ret ∧ errno = r.errno
  waiting : (∃ limit, s.point = .waiting limit) ↔ ∃ r, inputs.getLast? = some (.result r) ∧ r.isAgain
  once : ∀ pre x y post, inputs = pre ++ x :: y :: post →
    (y.wait?.isSome ↔ ∃ r, x = .result r ∧ r.isAgain)
  first : ∀ x ∈ inputs.head?, x.wait? = none
  limit : ∀ limit, s.point = .waiting limit → timeUs < 2^64 - 1000 ∨ timeUs = 2^64 - 1 →
    limit = roundedLimit timeUs
  goesOn : (s.point = .calling ∧ ∀ r, (s.step (.result r)).isSome) ∨
    (∃ limit, s.point = .waiting limit ∧ ∀ state, (s.step (.resumed state)).isSome) ∨
    ∃ n errno, s.point = .returned n errno

theorem int32_ret (r : SysResult) : int32 r.ret = r.ret := by
  have hbounds := r.bounds
  unfold int32
  exact Int.bmod_eq_of_le (by omega) (by omega)

/-- Rounding up by adding 999 first, where the sum does not wrap around. -/
theorem awaiterLimit_timeOutOf {timeUs : ℕ} (h : timeUs < 2^64 - 1000 ∨ timeUs = 2^64 - 1) :
    awaiterLimit (timeOutOf timeUs) = roundedLimit timeUs := by
  unfold awaiterLimit timeOutOf roundedLimit
  by_cases hdefault : timeUs = 0 ∨ timeUs = 2^64 - 1
  · simp only [if_pos hdefault]
    decide
  · have hsum : add64 timeUs 999 = timeUs + 999 := add64_of_lt (by omega)
    have hceil : timeUs ⌈/⌉ 1000 = (timeUs + 999) / 1000 := Nat.ceilDiv_eq_add_pred_div timeUs 1000
    have hpos : 0 < (timeUs + 999) / 1000 := by omega
    simp only [if_neg hdefault, hsum, if_neg hpos.ne', if_pos hpos.ne']
    rw [hceil, max_eq_right hpos]

namespace DoIo
variable {s t : DoIo} {x : IoInput} {timeOut : ℕ}

/-- Outside the direct call the last input determines the point. -/
def pointAfter (timeOut : ℕ) : Option IoInput → IoPoint
  | none => .calling
  | some (.result r) => afterCall timeOut r
  | some (.resumed state) => afterWait state

theorem afterCall_cases (timeOut : ℕ) (r : SysResult) :
    (r.isIntr ∧ afterCall timeOut r = .calling) ∨
    (r.isAgain ∧ afterCall timeOut r = .waiting (awaiterLimit timeOut)) ∨
    (¬r.isIntr ∧ ¬r.isAgain ∧ afterCall timeOut r = .returned r.ret r.errno) := by
  unfold afterCall
  simp only [int32_ret]
  by_cases hintr : r.isIntr
  · exact .inl ⟨hintr, if_pos hintr⟩
  · right
    by_cases hagain : r.isAgain
    · exact .inl ⟨hagain, (if_neg hintr).trans (if_pos hagain)⟩
    · exact .inr ⟨hintr, hagain, (if_neg hintr).trans (if_neg hagain)⟩

theorem not_isAgain_of_isIntr {r : SysResult} (h : r.isIntr) : ¬r.isAgain := fun hagain =>
  absurd (h.2.symm.trans hagain.2) (by decide)

theorem afterCall_waiting_iff (timeOut limit : ℕ) (r : SysResult) :
    afterCall timeOut r = .waiting limit ↔ r.isAgain ∧ limit = awaiterLimit timeOut := by
  rcases afterCall_cases timeOut r with ⟨hintr, heq⟩ | ⟨hagain, heq⟩ | ⟨-, hagain, heq⟩
  · simp [heq, not_isAgain_of_isIntr hintr]
  · simp [heq, hagain, eq_comm]
  · simp [heq, hagain]

theorem afterCall_returned {r : SysResult} {n errno : ℤ}
    (h : afterCall timeOut r = .returned n errno) :
    n = r.ret ∧ errno = r.errno ∧ ¬r.isIntr ∧ ¬r.isAgain := by
  rcases afterCall_cases timeOut r with ⟨-, heq⟩ | ⟨-, heq⟩ | ⟨hintr, hagain, heq⟩
  · cases heq.symm.trans h
  · cases heq.symm.trans h
  · cases heq.symm.trans h
    exact ⟨rfl, rfl, hintr, hagain⟩

theorem afterCall_ne_direct (timeOut : ℕ) (r : SysResult) : afterCall timeOut r ≠ .direct := by
  rcases afterCall_cases timeOut r with ⟨-, heq⟩ | ⟨-, heq⟩ | ⟨-, -, heq⟩ <;> rw [heq] <;> nofun

theorem step_cases (hloop : s.point ≠ .direct) (h : s.step x = some t) :
    (∃ r, x = .result r ∧ s.point = .calling ∧ t = { s with point := afterCall s.timeOut r }) ∨
    (∃ limit state, x = .resumed state ∧ s.point = .waiting limit ∧
      t = { s with point := afterWait state }) := by
  unfold step at h
  split at h
  · contradiction
  · next r hpoint => exact .inl ⟨r, rfl, hpoint, (Option.some.inj h).symm⟩
  · next limit state hpoint => exact .inr ⟨limit, state, rfl, hpoint, (Option.some.inj h).symm⟩
  · cases h

/-- In the loop the last input determines the point, and a wait that timed out is the last
input. -/
structure Follows (timeOut : ℕ) (inputs : List IoInput) (s : DoIo) : Prop where
  timeOut_eq : s.timeOut = timeOut
  point_eq : s.point = pointAfter timeOut inputs.getLast?
  ended : lastWait inputs = some .timeout ↔ inputs.getLast? = some (.resumed .timeout)

theorem Follows.ne_direct {inputs : List IoInput} (h : Follows timeOut inputs s) :
    s.point ≠ .direct := by
  rw [h.point_eq]
  match inputs.getLast? with
  | none => nofun
  | some (.result r) => exact afterCall_ne_direct timeOut r
  | some (.resumed state) => cases state <;> nofun

theorem Follows.step {inputs : List IoInput} (h : Follows timeOut inputs s)
    (hstep : s.step x = some t) : Follows timeOut (inputs ++ [x]) t := by
  rcases step_cases h.ne_direct hstep with ⟨r, rfl, hpoint, rfl⟩ | ⟨limit, state, rfl, -, rfl⟩
  · refine ⟨h.timeOut_eq, by simp [pointAfter, h.timeOut_eq], ?_⟩
    have hnot : lastWait inputs ≠ some .timeout := fun htimeout => by
      rw [h.point_eq, h.ended.mp htimeout] at hpoint
      cases hpoint
    simpa [lastWait, IoInput.wait?] using hnot
  · refine ⟨h.timeOut_eq, by simp [pointAfter], ?_⟩
    simp [lastWait, IoInput.wait?]

theorem run_follows {inputs : List IoInput} (hstart : s.point = .calling)
    (hrun : exec step s inputs = some t) : Follows s.timeOut inputs t :=
  exec_history (fun _ _ _ _ h hstep => h.step hstep) ⟨rfl, hstart, by simp [lastWait]⟩ hrun

theorem pointAfter_waiting_iff (timeOut limit : ℕ) (last : Option IoInput) :
    pointAfter timeOut last = .waiting limit ↔
      (∃ r, last = some (.result r) ∧ r.isAgain) ∧ limit = awaiterLimit timeOut := by
  match last with
  | none => simp [pointAfter]
  | some (.result r) => simp [pointAfter, afterCall_waiting_iff]
  | some (.resumed state) => cases state <;> simp [pointAfter, afterWait]

theorem step_wait_iff (hloop : s.point ≠ .direct) (h : s.step x = some t) :
    x.wait?.isSome ↔ ∃ limit, s.point = .waiting limit := by
  rcases step_cases hloop h with ⟨r, rfl, hpoint, -⟩ | ⟨limit, state, rfl, hpoint, -⟩
  · simp [IoInput.wait?, hpoint]
  · simp [IoInput.wait?, hpoint]

theorem Follows.returned {inputs : List IoInput} (h : Follows timeOut inputs s)
    (hwaits : ∀ state, .resumed state ∈ inputs → state = .finished ∨ state = .timeout)
    {n errno : ℤ} (hpoint : s.point = .returned n errno) :
    (∃ r, inputs.getLast? = some (.result r) ∧ n = r.ret ∧ errno = r.errno ∧
      ¬r.isIntr ∧ ¬r.isAgain) ∨
    (inputs.getLast? = some (.resumed .timeout) ∧ n = -1 ∧ errno = etimedout) := by
  rw [h.point_eq] at hpoint
  match hlast : inputs.getLast? with
  | none =>
    rw [hlast] at hpoint
    cases hpoint
  | some (.result r) =>
    rw [hlast] at hpoint
    exact .inl ⟨r, rfl, afterCall_returned hpoint⟩
  | some (.resumed state) =>
    rw [hlast] at hpoint
    rcases hwaits state (List.mem_of_getLast? hlast) with rfl | rfl
    · cases hpoint
    · cases hpoint
      exact .inr ⟨rfl, rfl, rfl⟩

theorem Follows.final {inputs : List IoInput} (h : Follows timeOut inputs s)
    (hwaits : ∀ state, .resumed state ∈ inputs → state = .finished ∨ state = .timeout)
    {n errno : ℤ} (hpoint : s.point = .returned n errno) :
    ¬(n = -1 ∧ (errno = eagain ∨ errno = eintr)) := by
  rcases h.returned hwaits hpoint with ⟨r, -, rfl, rfl, hintr, hagain⟩ | ⟨-, rfl, rfl⟩
  · rintro ⟨hret, herrno | herrno⟩
    · exact hagain ⟨hret, herrno⟩
    · exact hintr ⟨hret, herrno⟩
  · decide

theorem Follows.timedOut {inputs : List IoInput} (h : Follows timeOut inputs s)
    (hwaits : ∀ state, .resumed state ∈ inputs → state = .finished ∨ state = .timeout) :
    s.point = .returned (-1) etimedout ∧ (∃ x ∈ inputs.getLast?, x.wait?.isSome) ↔
      lastWait inputs = some .timeout := by
  rw [h.ended]
  constructor
  · rintro ⟨hpoint, x, hx, hwait⟩
    rcases h.returned hwaits hpoint with ⟨r, hlast, -⟩ | ⟨hlast, -⟩
    · cases hlast.symm.trans hx
      cases hwait
    · exact hlast
  · intro hlast
    refine ⟨?_, _, hlast, rfl⟩
    rw [h.point_eq, hlast]
    rfl

theorem Follows.goesOn {inputs : List IoInput} (h : Follows timeOut inputs s) :
    (s.point = .calling ∧ ∀ r, (s.step (.result r)).isSome) ∨
    (∃ limit, s.point = .waiting limit ∧ ∀ state, (s.step (.resumed state)).isSome) ∨
    ∃ n errno, s.point = .returned n errno := by
  match hpoint : s.point with
  | .direct => exact absurd hpoint h.ne_direct
  | .calling => exact .inl ⟨rfl, fun r => by simp [DoIo.step, hpoint]⟩
  | .waiting limit => exact .inr (.inl ⟨limit, rfl, fun state => by simp [DoIo.step, hpoint]⟩)
  | .returned n errno => exact .inr (.inr ⟨n, errno, rfl⟩)

theorem lastCall_of_getLast {inputs : List IoInput} {r : SysResult}
    (h : inputs.getLast? = some (.result r)) : lastCall inputs = some r := by
  obtain ⟨before, rfl⟩ := List.getLast?_eq_some_iff.mp h
  simp [lastCall, IoInput.call?]

theorem run_once {inputs pre post : List IoInput} {y : IoInput} (hstart : s.point = .calling)
    (hrun : exec step s inputs = some t) (hsplit : inputs = pre ++ x :: y :: post) :
    y.wait?.isSome ↔ ∃ r, x = .result r ∧ r.isAgain := by
  have happend : inputs = (pre ++ [x]) ++ y :: post := by simp [hsplit]
  rw [happend, exec_append, Option.bind_eq_some_iff] at hrun
  obtain ⟨u, hu, hrest⟩ := hrun
  obtain ⟨v, hv, -⟩ := exec_cons hrest
  have hfollows := run_follows hstart hu
  rw [step_wait_iff hfollows.ne_direct hv, hfollows.point_eq]
  simp [pointAfter_waiting_iff]

theorem doIo_emulates (c : FdCtx) (type : ℤ) (hopen : c.isClosed = false)
    (hsocket : c.isSocket = true) (hblock : c.userNoblock = false) (inputs : List IoInput)
    (hwaits : ∀ state, .resumed state ∈ inputs → state = .finished ∨ state = .timeout) (s : DoIo)
    (hrun : exec step (start (some c) type) inputs = some s) :
    Emulates (c.getTimeout type) inputs s := by
  have hstart : start (some c) type = ⟨timeOutOf (c.getTimeout type), .calling⟩ := by
    simp [start, hopen, hsocket, hblock]
  rw [hstart] at hrun
  have hfollows := run_follows rfl hrun
  constructor
  case final => exact fun n errno hpoint => hfollows.final hwaits hpoint
  case timedOut => exact hfollows.timedOut hwaits
  case answered =>
    intro n errno hpoint hnot
    rcases hfollows.returned hwaits hpoint with ⟨r, hlast, hret, herrno, -⟩ | ⟨hlast, -⟩
    · exact ⟨r, lastCall_of_getLast hlast, hret, herrno⟩
    · exact absurd (hfollows.ended.mpr hlast) hnot
  case waiting => simp [hfollows.point_eq, pointAfter_waiting_iff]
  case once => exact fun pre x y post hsplit => run_once rfl hrun hsplit
  case first =>
    intro x hx
    obtain ⟨rest, rfl⟩ := List.head?_eq_some_iff.mp hx
    obtain ⟨u, hu, -⟩ := exec_cons hrun
    have hwait := step_wait_iff (by simp) hu
    simpa using hwait
  case limit =>
    intro limit hpoint hbound
    rw [hfollows.point_eq, pointAfter_waiting_iff] at hpoint
    rw [hpoint.2, awaiterLimit_timeOutOf hbound]
  case goesOn => exact hfollows.goesOn

theorem interrupted_read :
    let inputs : List IoInput := [.result ⟨-1, eintr, by decide⟩, .result ⟨-1, eagain, by decide⟩,
      .resumed .finished, .result ⟨5, 0, by decide⟩]
    Emulates (2^64 - 1) inputs ⟨5000, .returned 5 0⟩ :=
  doIo_emulates (FdCtx.new 7 (some true)) soRcvtimeo rfl rfl rfl _ (by simp) _ (by decide)

end DoIo

end MSylar.Coro
