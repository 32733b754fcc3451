import MSylar.Lib.Calls
import MSylar.Lib.Execution

/-!
# Operations with a time limit (timer.cc:186-382, timer.hpp:17-43)

`addEventWithTimeout` and `addTaskWithTimeout` start a race between the fd event or
the end of the task and a timer. Both sides exchange `TimeLimitInfo::m_state` from
WAITING; the side that succeeds does what its callback holds, the other nothing. The
event stays registered, so its callback may run any number of times, and
`time_task->cancel()` does not keep a stored timer from running.
-/

namespace MSylar.Timer
open MSylar.Calls MSylar.Execution

inductive LimitState where
  | waiting
  | finished
  | error
  | timeout
  deriving DecidableEq

/-- `TimeLimitInfo::setState`: 0 and the new value if the exchange succeeds, else -1. -/
def setState (current origin new : LimitState) : ℤ × LimitState :=
  if current = origin then (0, new) else (-1, current)

inductive Side where
  | finish
  | timer
  deriving DecidableEq

def Side.state : Side → LimitState
  | .finish => .finished
  | .timer => .timeout

/-- What a callback does after it won; `schedule` hands the user's task or function of
`addEventWithTimeout` to the IOManager. -/
inductive Effect where
  | writeState (v : LimitState)
  | cancelTimer
  | delEvent
  | closeWithNoClose
  | schedule
  | timeoutCb
  deriving DecidableEq

def Effect.value : Effect → Option LimitState
  | .writeState v => some v
  | _ => none

/-- The calls in which the four functions set up the race. -/
inductive Setup where
  | addEvent
  | thenCompleted
  | addConditionTimer
  | scheduleTask
  deriving DecidableEq

/-- The four functions with what their callers choose: `closeFlag`, and for a task whether
`rtState` and `timeout_cb` are given. -/
inductive Overload where
  | eventCoro (closeFlag : Bool)
  | eventFunc (closeFlag : Bool)
  | taskCoro (hasState hasTimeoutCb : Bool)
  | taskFunc (hasState hasTimeoutCb : Bool)
  deriving DecidableEq

/-- Main callback of the timer of `addEventWithTimeout`. -/
def eventTimeout (closeFlag : Bool) : List Effect :=
  [.writeState .timeout, if closeFlag then .closeWithNoClose else .delEvent, .schedule]

def eventFinished : List Effect := [.writeState .finished, .cancelTimer, .schedule]

/-- `createTaskTimeoutTimer`: main callback of the timer. -/
def taskTimeout (hasState hasTimeoutCb : Bool) : List Effect :=
  (if hasState then [.writeState .timeout] else []) ++ (if hasTimeoutCb then [.timeoutCb] else [])

def markTaskFinished (hasState hasTimer : Bool) : List Effect :=
  (if hasState then [.writeState .finished] else []) ++ (if hasTimer then [.cancelTimer] else [])

namespace Overload

def effects : Overload → Side → List Effect
  | .eventCoro _, .finish => eventFinished
  | .eventCoro closeFlag, .timer => eventTimeout closeFlag
  | .eventFunc _, .finish => eventFinished
  | .eventFunc closeFlag, .timer => eventTimeout closeFlag
  | .taskCoro hasState _, .finish => markTaskFinished hasState true
  | .taskCoro hasState hasTimeoutCb, .timer => taskTimeout hasState hasTimeoutCb
  | .taskFunc hasState _, .finish => markTaskFinished hasState true
  | .taskFunc hasState hasTimeoutCb, .timer => taskTimeout hasState hasTimeoutCb

def setup : Overload → List Setup
  | .eventCoro _ => [.addEvent, .addConditionTimer]
  | .eventFunc _ => [.addEvent, .addConditionTimer]
  | .taskCoro _ _ => [.thenCompleted, .addConditionTimer, .scheduleTask]
  | .taskFunc _ _ => [.addConditionTimer, .scheduleTask]

def enabledBy : Overload → Side → Setup
  | _, .timer => .addConditionTimer
  | .eventCoro _, .finish => .addEvent
  | .eventFunc _, .finish => .addEvent
  | .taskCoro _ _, .finish => .scheduleTask
  | .taskFunc _ _, .finish => .scheduleTask

end Overload

/-- One run of a callback: before its exchange, with the effects it has still to do, or
after a failed exchange. It has run when nothing is left. -/
inductive Invocation where
  | start (side : Side)
  | won (side : Side) (rest : List Effect)
  | lost (side : Side)
  deriving DecidableEq

/-- `log` holds the effects in order, each with the number of its invocation. -/
structure Limit where
  exeInfo : LimitState
  rtState : LimitState
  canceled : Bool
  ready : List Setup
  log : List (ℕ × Effect)

def Limit.apply (l : Limit) (i : ℕ) (e : Effect) : Limit :=
  { l with log := l.log ++ [(i, e)]
           rtState := e.value.getD l.rtState
           canceled := l.canceled || e == .cancelTimer }

def Invocation.run (k : Overload) (i : ℕ) (l : Limit) : Invocation → Option (Limit × Invocation)
  | .start side =>
    let r := setState l.exeInfo .waiting side.state
    if r.1 = 0 then some ({ l with exeInfo := r.2 }, .won side (k.effects side))
    else some (l, .lost side)
  | .won side (e :: rest) => some (l.apply i e, .won side rest)
  | .won _ [] => none
  | .lost _ => none

abbrev Limits := World Limit Invocation

inductive LimitAction where
  | setup
  | enter (side : Side)
  | next (i : ℕ)

/-- `rtState` is what the caller left in the cell. -/
def Limits.init (rtState : LimitState) : Limits := ⟨⟨.waiting, rtState, false, [], []⟩, []⟩

def Limits.step (k : Overload) (w : Limits) : LimitAction → Option Limits
  | .setup => (k.setup.drop w.shared.ready.length).head?.map fun s =>
      ⟨{ w.shared with ready := w.shared.ready ++ [s] }, w.calls⟩
  | .enter side =>
    if k.enabledBy side ∈ w.shared.ready then some (w.enter (.start side)) else none
  | .next i => w.advance (Invocation.run k i) i

/-! ### One winner -/

def Limit.effects (l : Limit) : List Effect := l.log.map Prod.snd

def written (rt : LimitState) (es : List Effect) : LimitState :=
  es.foldl (fun v e => e.value.getD v) rt

/-- Either nobody has made the exchange, or one invocation has and everything done so far
is the beginning of what its side does. -/
inductive Raced (k : Overload) (rt : LimitState) (w : Limits) : Prop where
  | waiting (state : w.shared.exeInfo = .waiting) (log : w.shared.log = [])
      (cell : w.shared.rtState = rt) (calls : ∀ c ∈ w.calls, ∃ side, c = .start side)
  | decided (i : ℕ) (side : Side) (rest : List Effect) (state : w.shared.exeInfo = side.state)
      (winner : w.calls[i]? = some (.won side rest))
      (done : w.shared.effects ++ rest = k.effects side)
      (owner : ∀ x ∈ w.shared.log, x.1 = i)
      (others : ∀ j c, w.calls[j]? = some c → j ≠ i → ∃ s, c = .start s ∨ c = .lost s)
      (cell : w.shared.rtState = written rt w.shared.effects)

theorem Side.state_ne_waiting (side : Side) : side.state ≠ .waiting := by
  cases side <;> decide

theorem run_start_waiting (k : Overload) (i : ℕ) {l : Limit} (h : l.exeInfo = .waiting)
    (side : Side) : (Invocation.start side).run k i l =
      some ({ l with exeInfo := side.state }, .won side (k.effects side)) := by
  simp [Invocation.run, setState, h]

theorem run_start_taken (k : Overload) (i : ℕ) {l : Limit} (h : l.exeInfo ≠ .waiting)
    (side : Side) : (Invocation.start side).run k i l = some (l, .lost side) := by
  simp [Invocation.run, setState, h]

theorem written_append (rt : LimitState) (es : List Effect) (e : Effect) :
    written rt (es ++ [e]) = written (written rt es) [e] := by
  simp only [written, List.foldl_append]

theorem Limit.apply_effects (l : Limit) (i : ℕ) (e : Effect) :
    (l.apply i e).effects = l.effects ++ [e] := by
  simp only [Limit.apply, Limit.effects, List.map_append, List.map_cons, List.map_nil]

theorem Raced.enter {k : Overload} {rt : LimitState} {w : Limits} (h : Raced k rt w) (side : Side) :
    Raced k rt (w.enter (.start side)) := by
  cases h with
  | waiting hs hlog hcell hcalls =>
    exact .waiting hs hlog hcell (forall_enter hcalls ⟨side, rfl⟩)
  | decided i s rest hs hwin hdone howner hothers hcell =>
    have hi : i < w.calls.length := (List.getElem?_eq_some_iff.mp hwin).1
    refine .decided i s rest hs ?_ hdone howner ?_ hcell
    · simpa only [World.enter, List.getElem?_append_left hi] using hwin
    · intro j c hj hne
      simp only [World.enter] at hj
      rcases Nat.lt_or_ge j w.calls.length with hlt | hge
      · exact hothers j c (by simpa only [List.getElem?_append_left hlt] using hj) hne
      · rw [List.getElem?_append_right hge] at hj
        have hc := List.mem_of_getElem? hj
        exact ⟨side, .inl (List.mem_singleton.mp hc)⟩

theorem Raced.run {k : Overload} {rt : LimitState} {w : Limits} {i : ℕ} {c c' : Invocation}
    {l : Limit} (h : Raced k rt w) (hc : w.calls[i]? = some c)
    (hrun : c.run k i w.shared = some (l, c')) : Raced k rt ⟨l, w.calls.set i c'⟩ := by
  have hi : i < w.calls.length := (List.getElem?_eq_some_iff.mp hc).1
  cases h with
  | waiting hs hlog hcell hcalls =>
    obtain ⟨side, rfl⟩ := hcalls c (List.mem_of_getElem? hc)
    rw [run_start_waiting k i hs, Option.some.injEq, Prod.mk.injEq] at hrun
    obtain ⟨rfl, rfl⟩ := hrun
    refine .decided i side (k.effects side) rfl (List.getElem?_set_self hi) ?_ ?_ ?_ ?_
    · simp only [Limit.effects, hlog, List.map_nil, List.nil_append]
    · simp only [hlog, List.not_mem_nil, false_imp_iff, implies_true]
    · intro j d hj hne
      rw [List.getElem?_set_ne hne.symm] at hj
      obtain ⟨s, hd⟩ := hcalls d (List.mem_of_getElem? hj)
      exact ⟨s, .inl hd⟩
    · simp only [Limit.effects, hlog, hcell, written, List.map_nil, List.foldl_nil]
  | decided j side rest hs hwin hdone howner hothers hcell =>
    by_cases hij : i = j
    · subst hij
      rw [hwin, Option.some.injEq] at hc
      subst hc
      cases rest with
      | nil => cases hrun
      | cons e rest =>
        simp only [Invocation.run, Option.some.injEq, Prod.mk.injEq] at hrun
        obtain ⟨rfl, rfl⟩ := hrun
        refine .decided i side rest hs (List.getElem?_set_self hi) ?_ ?_ ?_ ?_
        · rw [Limit.apply_effects, List.append_assoc, List.singleton_append, hdone]
        · intro x hx
          rcases List.mem_append.mp hx with hx | hx
          · exact howner x hx
          · rw [List.mem_singleton.mp hx]
        · intro d c hd hne
          rw [List.getElem?_set_ne hne.symm] at hd
          exact hothers d c hd hne
        · rw [Limit.apply_effects, written_append, ← hcell]
          rfl
    · obtain ⟨s, rfl | rfl⟩ := hothers i c hc hij
      · have hne : w.shared.exeInfo ≠ .waiting := hs ▸ side.state_ne_waiting
        rw [run_start_taken k i hne, Option.some.injEq, Prod.mk.injEq] at hrun
        obtain ⟨rfl, rfl⟩ := hrun
        refine .decided j side rest hs ?_ hdone howner ?_ hcell
        · rw [List.getElem?_set_ne hij]
          exact hwin
        · intro d c hd hne
          by_cases hdi : d = i
          · subst hdi
            rw [List.getElem?_set_self hi, Option.some.injEq] at hd
            exact ⟨s, .inr hd.symm⟩
          · rw [List.getElem?_set_ne (Ne.symm hdi)] at hd
            exact hothers d c hd hne
      · cases hrun

theorem Raced.step {k : Overload} {rt : LimitState} {w w' : Limits} {act : LimitAction}
    (h : Raced k rt w) (hs : w.step k act = some w') : Raced k rt w' := by
  cases act with
  | setup =>
    simp only [Limits.step, Option.map_eq_some_iff] at hs
    obtain ⟨s, -, rfl⟩ := hs
    cases h with
    | waiting hs hlog hcell hcalls => exact .waiting hs hlog hcell hcalls
    | decided i side rest hs hwin hdone howner hothers hcell =>
      exact .decided i side rest hs hwin hdone howner hothers hcell
  | enter side =>
    simp only [Limits.step] at hs
    split at hs
    · cases hs
      exact h.enter side
    · cases hs
  | next i =>
    obtain ⟨c, l, c', hc, hrun, rfl⟩ := advance_cases hs
    exact h.run hc hrun

end MSylar.Timer
