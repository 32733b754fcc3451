import Mathlib.Tactic.Common
import MSylar.Lib.Calls
import MSylar.Lib.Execution

/-!
# Coroutines that await each other (task.hpp:139-163, 254-297, 341-415, 435-620, 811-1017)

A coroutine calls others, which gives it their `Task`s, and awaits these. Everything runs where
it is resumed: the callback a child runs when it ends continues the parent on the same call
stack, so a call is a machine with a control and a stack. Any number of calls run at once, one
locked region of a promise in each step. Exceptions that `catch(std::exception&)` does not match
leave `unhandled_exception` itself and unwind the stack. An exception that leaves `await_suspend`
comes out of its `co_await`, also where the callback of a child that had ended before has resumed
the parent inside of `await_suspend`: then the parent goes on there a second time.

`Task<T>` and `Task<void>` have the same text but for `return_value`, `getResult` and the
`resume` of their awaiters. The lifetime of the frames is in `MSylar.Coro.Frame`.
-/

namespace MSylar.Coro.Await
open MSylar.Calls MSylar.Execution

inductive Kind where
  | value
  | void

inductive Executer where
  | base
  | taskBegin

-- `Result<T>`, where `none` is the content of a `Result<void>`.
abbrev Result (V E : Type) := Except E (Option V)

/-- The rest of a coroutine. What follows a call or a `co_await` is told what came of it, so that
a body may have handlers there. The `handler` around a `co_return` is for what `return_value`
throws. -/
inductive Body (V E : Type) where
  | coReturn (v : V) (handler : E → Option (Body V E))
  | throw (e : E)
  -- any awaiter but a `TaskAwaiter`; it is resumed by a call of its own
  | suspend (k : Except E V → Body V E)
  | call (kind : Kind) (executer : Executer) (child : Body V E) (k : Except E ℕ → Body V E)
  | coAwait (t : ℕ) (k : Result V E → Body V E)

inductive Status (V E : Type) where
  | active
  | suspended (k : Except E V → Body V E)
  | awaiting (t : ℕ) (k : Result V E → Body V E)
  -- from `m_result` being set to `final_suspend`
  | ending
  | done

inductive TaskPlace where
  | absent
  | held
  | awaited (p : ℕ)
  deriving DecidableEq

/-- The promise, its `Task`, and the awaiter on it. `outcome` is how the body ended, `early`
that it did so before a callback was registered, and `runs` what each run of the awaiter's
callback resumed the parent with, if it did. -/
structure Coroutine (V E : Type) where
  kind : Kind
  result : Option (Result V E)
  callbacks : List ℕ
  status : Status V E
  task : TaskPlace
  isResumed : Bool
  outcome : Option (Result V E)
  early : Bool
  runs : List (Option (Result V E))

structure Shared (V E : Type) where
  co : ℕ → Coroutine V E
  next : ℕ

inductive Control (V E : Type) where
  | body (c : ℕ) (b : Body V E)
  | awaitSuspend (p t : ℕ)
  -- the function `finally` registers for the awaiter of `p`; `inline` where `setCompleteCb` runs it
  | callback (t p : ℕ) (r : Result V E) (inline : Bool)
  | back
  | throwing (e : E)

-- Where a call goes on: `notifyAllCbs` is the loop over the callbacks that are left, `awaitSuspend`
-- the `await_suspend` of `p` on `t` in which `p` has been resumed.
inductive Return (V E : Type) where
  | calling (c n : ℕ) (k : Except E ℕ → Body V E)
  | notifyAllCbs (c : ℕ) (r : Result V E) (cbs : List ℕ) (handler : E → Option (Body V E))
  | awaitSuspend (t p : ℕ) (k : Result V E → Body V E)

structure Call (V E : Type) where
  control : Control V E
  stack : List (Return V E)

section
variable {V E : Type}

def Executer.initialExecute (n : ℕ) (b : Body V E) : Executer → Status V E × Control V E
  | .base => (.active, .body n b)
  | .taskBegin => (.suspended fun _ => b, .back)

namespace Coroutine

def none : Coroutine V E := ⟨.value, .none, [], .done, .absent, false, .none, false, []⟩

def new (kind : Kind) (status : Status V E) : Coroutine V E :=
  { none with kind := kind, status := status, task := .held }

def returned (x : Coroutine V E) (v : V) : Result V E :=
  match x.kind with
  | .value => .ok (some v)
  | .void => .ok .none

def setResult (r : Result V E) (x : Coroutine V E) : Coroutine V E :=
  { x with result := some r, status := .ending, outcome := some r, early := x.callbacks.isEmpty }

def log (o : Option (Result V E)) (x : Coroutine V E) : Coroutine V E :=
  { x with runs := x.runs ++ [o] }

def resumptions (x : Coroutine V E) : List (Result V E) := x.runs.filterMap id

end Coroutine

namespace Shared

def modify (s : Shared V E) (c : ℕ) (f : Coroutine V E → Coroutine V E) : Shared V E :=
  { s with co := fun t => if t = c then f (s.co t) else s.co t }

def setStatus (s : Shared V E) (c : ℕ) (status : Status V E) : Shared V E :=
  s.modify c fun x => { x with status := status }

def create (s : Shared V E) (kind : Kind) (status : Status V E) : Shared V E :=
  { co := fun t => if t = s.next then .new kind status else s.co t
    next := s.next + 1 }

/-- `m_handle.resume()`: `p` goes on behind its `co_await` with what `await_resume` gives it,
`inside` its own `await_suspend` or not. -/
def resumeHandle (s : Shared V E) (t p : ℕ) (r : Result V E) (inside : Bool)
    (stack : List (Return V E)) : Shared V E × Call V E :=
  let s := s.modify t (.log (some r))
  match (s.co p).status with
  | .awaiting _ k =>
    (s.setStatus p .active, ⟨.body p (k r), if inside then .awaitSuspend t p k :: stack else stack⟩)
  | _ => (s, ⟨.back, stack⟩)

-- `Awaiter<T>::resume`.
def resumeValue (s : Shared V E) (t p : ℕ) (v : Option V) (inside : Bool)
    (stack : List (Return V E)) : Shared V E × Call V E :=
  if (s.co t).isResumed then (s.modify t (.log none), ⟨.back, stack⟩)
  else
    let s := s.modify t fun x => { x with isResumed := true }
    match (s.co p).status with
    | .done => (s.modify t (.log none), ⟨.back, stack⟩)
    | _ => s.resumeHandle t p (.ok v) inside stack

/-- An exception in the callback of `finally`. From the callback that `setCompleteCb` runs, it
leaves `await_suspend` and comes out of the `co_await`. -/
def catchStd (isStd : E → Bool) (s : Shared V E) (t p : ℕ) (e : E) (inline : Bool)
    (stack : List (Return V E)) : Shared V E × Call V E :=
  if isStd e then (s.modify t (.log none), ⟨.back, stack⟩)
  else if inline then s.resumeHandle t p (.error e) false stack
  else (s.modify t (.log none), ⟨.throwing e, stack⟩)

-- The callback of `finally`, around `on_suspend` of `TaskAwaiter<T>` or `TaskAwaiter<void>`.
def callback (isStd : E → Bool) (s : Shared V E) (t p : ℕ) (r : Result V E) (inline : Bool)
    (stack : List (Return V E)) : Option (Shared V E × Call V E) :=
  match r with
  | .error e => some (s.catchStd isStd t p e inline stack)
  | .ok _ =>
    match (s.co t).kind with
    | .void => some (s.resumeHandle t p (.ok none) inline stack)
    | .value =>
      -- `m_task->getResult()`, which would wait for a result
      match (s.co t).result with
      | none => none
      | some (.error e) => some (s.catchStd isStd t p e inline stack)
      | some (.ok v) => some (s.resumeValue t p v inline stack)

end Shared

namespace Call

def body (isStd : E → Bool) (s : Shared V E) (c : ℕ) (stack : List (Return V E)) :
    Body V E → Option (Shared V E × Call V E)
  | .coReturn v handler =>
    let r := (s.co c).returned v
    some (s.modify c (.setResult r),
      ⟨.back, .notifyAllCbs c r (s.co c).callbacks handler :: stack⟩)
  | .throw e =>
    let s' := s.modify c (.setResult (.error e))
    if isStd e then
      some (s', ⟨.back, .notifyAllCbs c (.error e) (s.co c).callbacks (fun _ => none) :: stack⟩)
    else some (s'.setStatus c .done, ⟨.throwing e, stack⟩)
  | .suspend k => some (s.setStatus c (.suspended k), ⟨.back, stack⟩)
  | .call kind executer child k =>
    let start := executer.initialExecute s.next child
    some (s.create kind start.1, ⟨start.2, .calling c s.next k :: stack⟩)
  | .coAwait t k =>
    -- a `Task` that was moved from has no promise
    if (s.co t).task = .held then
      some ((s.modify t fun x => { x with task := .awaited c }).setStatus c (.awaiting t k),
        ⟨.awaitSuspend c t, stack⟩)
    else none

/-- The call goes back to what is on the stack. Behind `notifyAllCbs` is `final_suspend`. -/
def back (s : Shared V E) : List (Return V E) → Option (Shared V E × Call V E)
  | [] => none
  | .calling c n k :: stack => some (s, ⟨.body c (k (.ok n)), stack⟩)
  | .notifyAllCbs c r (p :: cbs) handler :: stack =>
    some (s, ⟨.callback c p r false, .notifyAllCbs c r cbs handler :: stack⟩)
  | .notifyAllCbs c _ [] _ :: stack =>
    some (s.modify c fun x => { x with callbacks := [], status := .done }, ⟨.back, stack⟩)
  | .awaitSuspend _ _ _ :: stack => some (s, ⟨.back, stack⟩)

/-- An exception goes down the stack. In `notifyAllCbs` it comes out of a callback: `finally`
catches it, or it leaves `return_value`. There a handler of `c` takes it, or `unhandled_exception`
of `c` throws it again. Out of `await_suspend` it comes out of the `co_await`. Whoever began the
call may catch it at the bottom; otherwise the process ends and takes no more steps. -/
def unwind (isStd : E → Bool) (s : Shared V E) (e : E) :
    List (Return V E) → Option (Shared V E × Call V E)
  | [] => some (s, ⟨.back, []⟩)
  | .calling c _ k :: stack => some (s, ⟨.body c (k (.error e)), stack⟩)
  | .notifyAllCbs c r cbs handler :: stack =>
    if isStd e then some (s, ⟨.back, .notifyAllCbs c r cbs handler :: stack⟩)
    else
      match handler e with
      | some b => some (s.setStatus c .active, ⟨.body c b, stack⟩)
      | none =>
        some (s.modify c fun x => { x with result := some (.error e), status := .done },
          ⟨.throwing e, stack⟩)
  | .awaitSuspend t p k :: stack =>
    if isStd e then some (s, ⟨.back, stack⟩)
    else
      some ((s.modify t (.log (some (.error e)))).setStatus p .active,
        ⟨.body p (k (.error e)), stack⟩)

def run (isStd : E → Bool) (s : Shared V E) (call : Call V E) : Option (Shared V E × Call V E) :=
  match call.control with
  | .body c b => body isStd s c call.stack b
  | .awaitSuspend p t =>
    -- `setCompleteCb`
    match (s.co t).result with
    | some r => some (s, ⟨.callback t p r true, call.stack⟩)
    | none =>
      some (s.modify t fun x => { x with callbacks := x.callbacks ++ [p] }, ⟨.back, call.stack⟩)
  | .callback t p r inline => s.callback isStd t p r inline call.stack
  | .back => back s call.stack
  | .throwing e => unwind isStd s e call.stack

end Call

/-- `start` is a call of a coroutine function by any other code; `resume` is the end of what a
`suspend` waits for, or the start of a coroutine that `TaskBeginExecuter` has left suspended. -/
inductive Action (V E : Type) where
  | start (kind : Kind) (executer : Executer) (b : Body V E)
  | resume (c : ℕ) (r : Except E V)
  | step (i : ℕ)

abbrev Coroutines (V E : Type) := World (Shared V E) (Call V E)

namespace Coroutines

def init : Coroutines V E := ⟨⟨fun _ => .none, 0⟩, []⟩

def step (isStd : E → Bool) (w : Coroutines V E) : Action V E → Option (Coroutines V E)
  | .start kind executer b =>
    let start := executer.initialExecute w.shared.next b
    some (World.enter ⟨w.shared.create kind start.1, w.calls⟩ ⟨start.2, []⟩)
  | .resume c r =>
    match (w.shared.co c).status with
    | .suspended k =>
      some (World.enter ⟨w.shared.setStatus c .active, w.calls⟩ ⟨.body c (k r), []⟩)
    | _ => none
  | .step i => w.advance (Call.run isStd) i

end Coroutines

/-- Exceptions that the parent is told of: the callback of `finally` drops those it catches, and
it does not run if the child ends with another one after it was registered. -/
def Coroutine.Heard (isStd : E → Bool) (x : Coroutine V E) (r : Result V E) : Prop :=
  ∀ e, r = .error e → isStd e = false ∧ x.early = true

/-- The exception `e` makes a coroutine that has ended go on here. -/
def Return.catches (e : E) : Return V E → Bool
  | .calling _ _ _ => false
  | .notifyAllCbs _ _ _ handler => (handler e).isSome
  | .awaitSuspend _ _ _ => true

def Call.Contained (call : Call V E) : Prop :=
  ∀ e ret stack, call = ⟨.throwing e, ret :: stack⟩ → ret.catches e = false

/-- No exception comes out of an `await_suspend` in which the parent has been resumed, or out of a
`return_value` whose `co_return` is in a handler for it. -/
def Coroutines.Contained (w : Coroutines V E) : Action V E → Prop
  | .step i => ∀ call, w.calls[i]? = some call → call.Contained
  | _ => True

/-- The parent has been resumed with `r` and with nothing else, or a call does it in its next two
steps, and these are contained. -/
def Coroutines.Resumes (isStd : E → Bool) (w : Coroutines V E) (t : ℕ) (r : Result V E) : Prop :=
  ∃ i n w', n ≤ 2 ∧ Guarded (Coroutines.step isStd) Contained w (List.replicate n (.step i)) ∧
    exec (Coroutines.step isStd) w (List.replicate n (.step i)) = some w' ∧
    (w'.shared.co t).resumptions = [r]

/-- Every parent is resumed once after its child ended, with what the child ended with. -/
def Coroutines.ParentsResumed (isStd : E → Bool) (w : Coroutines V E) : Prop :=
  ∀ t p, (w.shared.co t).task = .awaited p →
    ((w.shared.co t).outcome = none → (w.shared.co t).resumptions = []) ∧
    ∀ r, (w.shared.co t).outcome = some r →
      ((w.shared.co t).resumptions = [] ∨ (w.shared.co t).resumptions = [r]) ∧
      w.Resumes isStd t r

/-! ## What is on the way -/

def Control.lives (p : ℕ) : Control V E → ℕ
  | .body c _ => if p = c then 1 else 0
  | _ => 0

def Return.lives (p : ℕ) : Return V E → ℕ
  | .calling c _ _ => if p = c then 1 else 0
  | .notifyAllCbs _ _ _ _ => 0
  | .awaitSuspend _ _ _ => 0

def Call.lives (p : ℕ) (call : Call V E) : ℕ :=
  call.control.lives p + (call.stack.map (Return.lives p)).sum

def Control.owes : Control V E → List (ℕ × ℕ)
  | .awaitSuspend p t => [(t, p)]
  | .callback t p _ _ => [(t, p)]
  | _ => []

def Return.owes : Return V E → List (ℕ × ℕ)
  | .calling _ _ _ => []
  | .notifyAllCbs c _ cbs _ => cbs.map fun p => (c, p)
  | .awaitSuspend _ _ _ => []

def Call.owes (call : Call V E) : List (ℕ × ℕ) :=
  call.control.owes ++ call.stack.flatMap Return.owes

def Control.tokens (t : ℕ) : Control V E → ℕ
  | .awaitSuspend _ c => if t = c then 1 else 0
  | .callback c _ _ _ => if t = c then 1 else 0
  | _ => 0

def Return.tokens (t : ℕ) : Return V E → ℕ
  | .calling _ _ _ => 0
  | .notifyAllCbs c _ cbs _ => if t = c then cbs.length else 0
  | .awaitSuspend _ _ _ => 0

def Call.tokens (t : ℕ) (call : Call V E) : ℕ :=
  call.control.tokens t + (call.stack.map (Return.tokens t)).sum

namespace Coroutine

def actives (x : Coroutine V E) : ℕ :=
  match x.status with
  | .active => 1
  | _ => 0

def awaits (x : Coroutine V E) : ℕ :=
  match x.task with
  | .awaited _ => 1
  | _ => 0

/-- Callbacks that stand in the promise: a notified promise is done with them, one whose
`unhandled_exception` threw keeps them for good. -/
def waiting (isStd : E → Bool) (x : Coroutine V E) : ℕ :=
  match x.outcome with
  | .none => x.callbacks.length
  | some (.ok _) => 0
  | some (.error e) => if isStd e then 0 else x.callbacks.length

theorem awaits_le_one (x : Coroutine V E) : x.awaits ≤ 1 := by
  unfold awaits
  split <;> omega

structure Ok (isStd : E → Bool) (x : Coroutine V E) : Prop where
  result : x.result = .none ↔ x.outcome = .none
  kept : ∀ r, x.result = some r → x.outcome = some r ∨ x.runs ≠ []
  ended : x.outcome ≠ .none → x.status = .ending ∨ x.status = .done
  void : x.kind = .void → ∀ v, x.outcome = some (.ok v) → v = .none
  early : ∀ e, x.outcome = some (.error e) → isStd e = false → (x.early = true ↔ x.callbacks = [])
  runs : ∀ r, some r ∈ x.runs → x.outcome = some r ∧ x.Heard isStd r
  lost : .none ∈ x.runs → ∃ e, x.outcome = some (.error e) ∧ isStd e = true
  resumed : x.isResumed = true → x.runs ≠ []

end Coroutine

def Shared.Waits (s : Shared V E) (t p : ℕ) : Prop :=
  (s.co t).task = .awaited p ∧ ∃ k, (s.co p).status = .awaiting t k

def Shared.Settled (s : Shared V E) (stack : List (Return V E)) : Prop :=
  ∀ c r cbs handler, .notifyAllCbs c r cbs handler ∈ stack → cbs = [] ∧ (s.co c).runs ≠ []

def Shared.Notified (isStd : E → Bool) (s : Shared V E) (stack : List (Return V E)) : Prop :=
  ∀ c r cbs handler, .notifyAllCbs c r cbs handler ∈ stack →
    (s.co c).outcome = some r ∧ ∀ e, r = .error e → isStd e = true

def Control.Ok (isStd : E → Bool) (s : Shared V E) (stack : List (Return V E)) :
    Control V E → Prop
  | .body _ _ => s.Settled stack
  | .awaitSuspend _ _ => s.Settled stack
  | .callback t _ r true => (s.co t).outcome = some r ∧ s.Settled stack
  | .callback t _ r false => (s.co t).outcome = some r ∧
    ∃ handler rest, stack = .notifyAllCbs t r [] handler :: rest ∧ s.Settled rest
  | .back => s.Settled stack.tail
  | .throwing e => isStd e = false ∧ s.Settled stack

structure Call.Ok (isStd : E → Bool) (s : Shared V E) (call : Call V E) : Prop where
  stack : s.Notified isStd call.stack
  owes : ∀ x ∈ call.owes, s.Waits x.1 x.2
  control : call.control.Ok isStd s call.stack

structure Coroutines.Inv (isStd : E → Bool) (w : Coroutines V E) : Prop where
  live : ∀ p, (w.calls.map (Call.lives p)).sum = (w.shared.co p).actives
  owed : ∀ t, (w.calls.map (Call.tokens t)).sum + (w.shared.co t).waiting isStd +
    (w.shared.co t).runs.length = (w.shared.co t).awaits
  calls : ∀ call ∈ w.calls, call.Ok isStd w.shared
  registered : ∀ t p, (w.shared.co t).outcome = none → p ∈ (w.shared.co t).callbacks →
    w.shared.Waits t p
  coroutines : ∀ t, (w.shared.co t).Ok isStd
  fresh : ∀ t, w.shared.next ≤ t → w.shared.co t = .none

/-! ## Steps of one call -/

theorem Shared.modify_co (s : Shared V E) (c t : ℕ) (f : Coroutine V E → Coroutine V E) :
    (s.modify c f).co t = if t = c then f (s.co t) else s.co t := rfl

theorem Shared.modify_modify (s : Shared V E) (c : ℕ) (f g : Coroutine V E → Coroutine V E) :
    (s.modify c f).modify c g = s.modify c fun x => g (f x) := by
  simp only [Shared.modify, Shared.mk.injEq, and_true]
  funext t
  split <;> rfl

theorem Control.tokens_pos {control : Control V E} {x : ℕ × ℕ} (h : x ∈ control.owes) :
    0 < control.tokens x.1 := by
  cases control with
  | awaitSuspend p t =>
    rw [List.mem_singleton.mp h]
    simp only [Control.tokens, ite_true, Nat.lt_one_iff]
  | callback t p r inline =>
    rw [List.mem_singleton.mp h]
    simp only [Control.tokens, ite_true, Nat.lt_one_iff]
  | body c b => cases h
  | back => cases h
  | throwing e => cases h

theorem Return.tokens_pos {ret : Return V E} {x : ℕ × ℕ} (h : x ∈ ret.owes) :
    0 < ret.tokens x.1 := by
  cases ret with
  | calling c n k => cases h
  | notifyAllCbs c r cbs handler =>
    obtain ⟨p, hp, rfl⟩ := List.mem_map.mp h
    simp only [Return.tokens, ite_true]
    exact List.length_pos_of_mem hp
  | awaitSuspend t p k => cases h

theorem Call.tokens_pos {call : Call V E} {x : ℕ × ℕ} (h : x ∈ call.owes) :
    0 < call.tokens x.1 := by
  unfold Call.tokens
  rcases List.mem_append.mp h with h | h
  · have hpos := Control.tokens_pos h
    omega
  · obtain ⟨ret, hret, hx⟩ := List.mem_flatMap.mp h
    obtain ⟨j, hj⟩ := List.getElem?_of_mem hret
    have hle : ret.tokens x.1 ≤ (call.stack.map (Return.tokens x.1)).sum := le_sum hj
    have hpos := Return.tokens_pos hx
    omega

structure Shared.Grows (s s' : Shared V E) : Prop where
  outcome : ∀ t r, (s.co t).outcome = some r →
    (s'.co t).outcome = some r ∧ (s'.co t).early = (s.co t).early
  runs : ∀ t, (s.co t).runs ≠ [] → (s'.co t).runs ≠ []

theorem Shared.Settled.mono {s s' : Shared V E} {stack : List (Return V E)} (h : s.Settled stack)
    (hg : s.Grows s') : s'.Settled stack :=
  fun c r cbs handler hmem =>
    ⟨(h c r cbs handler hmem).1, hg.runs c (h c r cbs handler hmem).2⟩

theorem Shared.Settled.tail {s : Shared V E} {stack : List (Return V E)} (h : s.Settled stack) :
    s.Settled stack.tail :=
  fun c r cbs handler hmem => h c r cbs handler (List.mem_of_mem_tail hmem)

/-- A return address that owes no callbacks. -/
theorem Shared.Settled.cons {s : Shared V E} {stack : List (Return V E)} (h : s.Settled stack)
    {ret : Return V E} (hret : ∀ c r cbs handler, ret ≠ .notifyAllCbs c r cbs handler) :
    s.Settled (ret :: stack) := by
  intro c r cbs handler hmem
  exact h c r cbs handler ((List.mem_cons.mp hmem).resolve_left (hret c r cbs handler).symm)

theorem Shared.Settled.owes {s : Shared V E} {stack : List (Return V E)} (h : s.Settled stack) :
    stack.flatMap Return.owes = [] := by
  rw [List.flatMap_eq_nil_iff]
  intro ret hret
  cases ret with
  | calling c n k => rfl
  | notifyAllCbs c r cbs handler =>
    rw [(h c r cbs handler hret).1, Return.owes, List.map_nil]
  | awaitSuspend t p k => rfl

theorem Shared.Notified.mono {isStd : E → Bool} {s s' : Shared V E} {stack : List (Return V E)}
    (h : s.Notified isStd stack) (hg : s.Grows s') : s'.Notified isStd stack :=
  fun c r cbs handler hmem =>
    ⟨(hg.outcome c r (h c r cbs handler hmem).1).1, (h c r cbs handler hmem).2⟩

theorem Shared.Notified.cons {isStd : E → Bool} {s : Shared V E} {stack : List (Return V E)}
    (h : s.Notified isStd stack) {ret : Return V E}
    (hret : ∀ c r cbs handler, ret ≠ .notifyAllCbs c r cbs handler) :
    s.Notified isStd (ret :: stack) := by
  intro c r cbs handler hmem
  exact h c r cbs handler ((List.mem_cons.mp hmem).resolve_left (hret c r cbs handler).symm)

theorem Shared.Notified.tail {isStd : E → Bool} {s : Shared V E} {ret : Return V E}
    {stack : List (Return V E)} (h : s.Notified isStd (ret :: stack)) : s.Notified isStd stack :=
  fun c r cbs handler hmem => h c r cbs handler (List.mem_cons_of_mem ret hmem)

theorem Control.Ok.mono {isStd : E → Bool} {s s' : Shared V E} {stack : List (Return V E)}
    {control : Control V E} (h : control.Ok isStd s stack) (hg : s.Grows s') :
    control.Ok isStd s' stack := by
  cases control with
  | body c b => exact Shared.Settled.mono h hg
  | awaitSuspend p t => exact Shared.Settled.mono h hg
  | back => exact Shared.Settled.mono h hg
  | throwing e => exact ⟨h.1, h.2.mono hg⟩
  | callback t p r inline =>
    cases inline with
    | true => exact ⟨(hg.outcome t r h.1).1, h.2.mono hg⟩
    | false =>
      obtain ⟨hout, handler, rest, hrest, hs⟩ := h
      exact ⟨(hg.outcome t r hout).1, handler, rest, hrest, hs.mono hg⟩

theorem Call.Ok.mono {isStd : E → Bool} {s s' : Shared V E} {call : Call V E}
    (h : call.Ok isStd s) (hg : s.Grows s') (hw : ∀ x ∈ call.owes, s'.Waits x.1 x.2) :
    call.Ok isStd s' :=
  ⟨h.stack.mono hg, hw, h.control.mono hg⟩

theorem Call.Ok.of_settled {isStd : E → Bool} {s : Shared V E} {control : Control V E}
    {stack : List (Return V E)} (hstack : s.Notified isStd stack) (hs : s.Settled stack)
    (howes : ∀ x ∈ control.owes, s.Waits x.1 x.2) (hcontrol : control.Ok isStd s stack) :
    Call.Ok isStd s ⟨control, stack⟩ := by
  refine ⟨hstack, ?_, hcontrol⟩
  rw [Call.owes, hs.owes, List.append_nil]
  exact howes

theorem Coroutines.Inv.alone {isStd : E → Bool} {w : Coroutines V E} (h : w.Inv isStd) {i t : ℕ}
    {c : Call V E} (hi : w.calls[i]? = some c)
    (ht : (w.shared.co t).awaits ≤ c.tokens t + (w.shared.co t).runs.length) :
    (w.calls.map (Call.tokens t)).sum = c.tokens t ∧ (w.shared.co t).waiting isStd = 0 := by
  have hle : Call.tokens t c ≤ (w.calls.map (Call.tokens t)).sum := le_sum hi
  have howed := h.owed t
  omega

theorem Coroutines.Inv.owing {isStd : E → Bool} {w : Coroutines V E} (h : w.Inv isStd) {i t : ℕ}
    {c : Call V E} (hi : w.calls[i]? = some c) (ht : 0 < c.tokens t) :
    c.tokens t = 1 ∧ (w.shared.co t).waiting isStd = 0 ∧ (w.shared.co t).runs = [] := by
  have hone := (w.shared.co t).awaits_le_one
  have howed := h.owed t
  obtain ⟨hsum, hwait⟩ := h.alone (t := t) hi (by omega)
  exact ⟨by omega, hwait, List.eq_nil_of_length_eq_zero (by omega)⟩

structure Coroutines.Goes (isStd : E → Bool) (w w' : Coroutines V E) : Prop where
  inv : w'.Inv isStd
  grows : w.shared.Grows w'.shared

/-- What a step of one call has to show: the bodies and the callbacks it gives up or takes on
are accounted for by the coroutines it changes, and it takes nothing from the other calls. -/
theorem Coroutines.Inv.advance {isStd : E → Bool} {w : Coroutines V E} (h : w.Inv isStd) {i : ℕ}
    {c c' : Call V E} {s' : Shared V E} (hi : w.calls[i]? = some c)
    (hlive : ∀ p, c'.lives p + (w.shared.co p).actives =
      c.lives p + (s'.co p).actives)
    (howed : ∀ t, c'.tokens t + (s'.co t).waiting isStd + (s'.co t).runs.length +
        (w.shared.co t).awaits =
      c.tokens t + (w.shared.co t).waiting isStd + (w.shared.co t).runs.length + (s'.co t).awaits)
    (hgrow : w.shared.Grows s')
    (hwaits : ∀ t p, w.shared.Waits t p → s'.Waits t p ∨
      (w.shared.co t).awaits ≤ c.tokens t + (w.shared.co t).runs.length)
    (hcall : c'.Ok isStd s')
    (hreg : ∀ t p, (s'.co t).outcome = none → p ∈ (s'.co t).callbacks →
      (w.shared.co t).outcome = none ∧ p ∈ (w.shared.co t).callbacks ∨ s'.Waits t p)
    (hco : ∀ t, (w.shared.co t).Ok isStd → (s'.co t).Ok isStd)
    (hfresh : ∀ t, s'.next ≤ t → s'.co t = .none) :
    w.Goes isStd ⟨s', w.calls.set i c'⟩ := by
  refine ⟨⟨fun p => ?_, fun t => ?_, fun d hd => ?_, fun t p hout hmem => ?_,
    fun t => hco t (h.coroutines t), hfresh⟩, hgrow⟩
  · have hsum := sum_set (Call.lives p) hi c'
    have hl := hlive p
    have hold := h.live p
    dsimp only at hsum ⊢
    omega
  · have hsum := sum_set (Call.tokens t) hi c'
    have ht := howed t
    have hold := h.owed t
    dsimp only at hsum ⊢
    omega
  · by_cases hdc : d = c'
    · exact hdc ▸ hcall
    · have hd' := (List.mem_or_eq_of_mem_set hd).resolve_right hdc
      refine (h.calls d hd').mono hgrow fun x hx => ?_
      refine (hwaits x.1 x.2 ((h.calls d hd').owes x hx)).resolve_right fun htok => ?_
      have hzero := (others_zero hi (h.alone hi htok).1 c' d hd).resolve_left hdc
      exact absurd (Call.tokens_pos hx) (by omega)
  · rcases hreg t p hout hmem with ⟨hout', hmem'⟩ | hw
    · refine (hwaits t p (h.registered t p hout' hmem')).resolve_right fun htok => ?_
      have hzero := (h.alone hi htok).2
      simp only [Coroutine.waiting, hout', List.length_eq_zero_iff] at hzero
      rw [hzero] at hmem'
      cases hmem'
    · exact hw

theorem Shared.Waits.modify {s : Shared V E} {t p c : ℕ} {f : Coroutine V E → Coroutine V E}
    (h : s.Waits t p) (htask : (f (s.co c)).task = (s.co c).task)
    (hstatus : p = c → (f (s.co c)).status = (s.co c).status) : (s.modify c f).Waits t p := by
  obtain ⟨ht, k, hk⟩ := h
  constructor
  · rw [modify_co]
    split
    · rename_i htc
      rw [htc, htask, ← htc, ht]
    · exact ht
  · refine ⟨k, ?_⟩
    rw [modify_co]
    split
    · rename_i hpc
      rw [hpc, hstatus hpc, ← hpc, hk]
    · exact hk

theorem Shared.Waits.ne {s : Shared V E} {t p c : ℕ} (h : s.Waits t p)
    (hc : ∀ k, (s.co c).status ≠ .awaiting t k) : p ≠ c := by
  rintro rfl
  obtain ⟨-, k, hk⟩ := h
  exact hc k hk

theorem Shared.Grows.modify {s : Shared V E} {c : ℕ} {f : Coroutine V E → Coroutine V E}
    (hout : ∀ r, (s.co c).outcome = some r →
      (f (s.co c)).outcome = some r ∧ (f (s.co c)).early = (s.co c).early)
    (hruns : (s.co c).runs ≠ [] → (f (s.co c)).runs ≠ []) : s.Grows (s.modify c f) where
  outcome t r h := by
    rw [modify_co]
    split
    · rename_i htc
      exact htc ▸ hout r (htc ▸ h)
    · exact ⟨h, rfl⟩
  runs t h := by
    rw [modify_co]
    split
    · rename_i htc
      exact htc ▸ hruns (htc ▸ h)
    · exact h

theorem Coroutine.Ok.running {isStd : E → Bool} {x : Coroutine V E} (h : x.Ok isStd)
    (hs : x.status = .active) : x.outcome = .none := by
  by_contra hout
  rcases h.ended hout with hs' | hs'
  · rw [hs] at hs'
    cases hs'
  · rw [hs] at hs'
    cases hs'

theorem Coroutine.not_awaiting_of_active {x : Coroutine V E} (h : x.status = .active) (t : ℕ)
    (k : Result V E → Body V E) : x.status ≠ .awaiting t k := by
  rw [h]
  exact nofun

theorem Coroutine.Ok.not_awaiting {isStd : E → Bool} {x : Coroutine V E} (h : x.Ok isStd)
    {r : Result V E} (hout : x.outcome = some r) (t : ℕ) (k : Result V E → Body V E) :
    x.status ≠ .awaiting t k := by
  rcases h.ended (hout ▸ Option.some_ne_none r) with hs | hs
  · rw [hs]
    exact nofun
  · rw [hs]
    exact nofun

theorem Coroutine.Ok.not_active {isStd : E → Bool} {x : Coroutine V E} (h : x.Ok isStd)
    {r : Result V E} (hout : x.outcome = some r) : x.actives = 0 := by
  rcases h.ended (hout ▸ Option.some_ne_none r) with hs | hs <;> simp only [actives, hs]

theorem Coroutine.Ok.unheard {isStd : E → Bool} {x : Coroutine V E} (h : x.Ok isStd)
    (hout : x.outcome = .none) : x.runs = [] := by
  by_contra hruns
  obtain ⟨o, ho⟩ := List.exists_mem_of_ne_nil _ hruns
  cases o with
  | none =>
    obtain ⟨e, he, -⟩ := h.lost ho
    rw [hout] at he
    cases he
  | some r =>
    have hr := (h.runs r ho).1
    rw [hout] at hr
    cases hr

theorem Coroutine.Ok.setResult {isStd : E → Bool} {x : Coroutine V E} (h : x.Ok isStd)
    (hout : x.outcome = .none) (r : Result V E) {status : Status V E}
    (hstatus : status = .ending ∨ status = .done)
    (hvoid : x.kind = .void → ∀ v, r = .ok v → v = .none) :
    Coroutine.Ok isStd { x.setResult r with status := status } where
  result := by simp only [Coroutine.setResult, reduceCtorEq]
  kept r' hr' := .inl hr'
  ended _ := hstatus
  void hk v hv := hvoid hk v (Option.some.inj hv)
  early _ _ _ := List.isEmpty_iff
  runs r' hr' := by
    rw [Coroutine.setResult, h.unheard hout] at hr'
    cases hr'
  lost hn := by
    rw [Coroutine.setResult, h.unheard hout] at hn
    cases hn
  resumed := h.resumed

theorem Coroutines.Inv.active {isStd : E → Bool} {w : Coroutines V E} (h : w.Inv isStd) {i c : ℕ}
    {b : Body V E} {stack : List (Return V E)} (hi : w.calls[i]? = some ⟨.body c b, stack⟩) :
    (w.shared.co c).status = .active := by
  have hle : Call.lives c ⟨.body c b, stack⟩ ≤ (w.calls.map (Call.lives c)).sum := le_sum hi
  rw [h.live c] at hle
  simp only [Call.lives, Control.lives, ite_true, Coroutine.actives] at hle
  split at hle
  · assumption
  · omega

def Coroutine.own (isStd : E → Bool) (x : Coroutine V E) : ℕ := x.waiting isStd + x.runs.length

theorem Coroutines.Inv.modify {isStd : E → Bool} {w : Coroutines V E} (h : w.Inv isStd) {i c : ℕ}
    {call call' : Call V E} {f : Coroutine V E → Coroutine V E} (hi : w.calls[i]? = some call)
    (hlive : ∀ p, call'.lives p + (if p = c then (w.shared.co c).actives else 0) =
      call.lives p + (if p = c then (f (w.shared.co c)).actives else 0))
    (howed : ∀ t, call'.tokens t + (if t = c then (f (w.shared.co c)).own isStd else 0) =
      call.tokens t + (if t = c then (w.shared.co c).own isStd else 0))
    (hgrow : w.shared.Grows (w.shared.modify c f))
    (htask : (f (w.shared.co c)).task = (w.shared.co c).task)
    (hstatus : (f (w.shared.co c)).status = (w.shared.co c).status ∨
      ∀ t k, (w.shared.co c).status = .awaiting t k →
        (w.shared.co t).awaits ≤ call.tokens t + (w.shared.co t).runs.length)
    (hcall : call'.Ok isStd (w.shared.modify c f))
    (hreg : ∀ p ∈ (f (w.shared.co c)).callbacks, p ∈ (w.shared.co c).callbacks ∨
      (w.shared.modify c f).Waits c p)
    (hco : (f (w.shared.co c)).Ok isStd) (hlt : c < w.shared.next) :
    w.Goes isStd ⟨w.shared.modify c f, w.calls.set i call'⟩ := by
  refine h.advance hi (fun p => ?_) (fun t => ?_) hgrow (fun t p hw => ?_) hcall
    (fun t p hout hmem => ?_) (fun t ht => ?_) (fun t ht => ?_)
  · have hp := hlive p
    rw [Shared.modify_co]
    split at hp
    · rename_i hpc
      rw [if_pos hpc, hpc] at *
      omega
    · rename_i hpc
      rw [if_neg hpc]
      omega
  · have ht := howed t
    simp only [Coroutine.own] at ht
    rw [Shared.modify_co]
    split at ht
    · rename_i htc
      rw [if_pos htc, htc] at *
      have hawaits : (f (w.shared.co c)).awaits = (w.shared.co c).awaits := by
        simp only [Coroutine.awaits, htask]
      omega
    · rename_i htc
      rw [if_neg htc]
      omega
  · rcases hstatus with hstatus | hstatus
    · exact .inl (hw.modify htask fun _ => hstatus)
    · by_cases hpc : p = c
      · obtain ⟨-, k, hk⟩ := hw
        exact .inr (hstatus t k (hpc ▸ hk))
      · exact .inl (hw.modify htask fun h => absurd h hpc)
  · rw [Shared.modify_co] at hout hmem
    split at hout
    · rename_i htc
      subst htc
      rw [if_pos rfl] at hmem
      rcases hreg p hmem with hmem' | hw
      · refine .inl ⟨?_, hmem'⟩
        -- outcomes are never taken back
        by_contra hne
        obtain ⟨r, hr⟩ := Option.ne_none_iff_exists'.mp hne
        have hr' := (hgrow.outcome t r hr).1
        rw [Shared.modify_co, if_pos rfl, hout] at hr'
        cases hr'
      · exact .inr hw
    · rename_i htc
      rw [if_neg htc] at hmem
      exact .inl ⟨hout, hmem⟩
  · rw [Shared.modify_co]
    split
    · rename_i htc
      exact htc ▸ hco
    · exact ht
  · have htc : t ≠ c := by
      rintro rfl
      exact absurd hlt (Nat.not_lt.mpr ht)
    rw [Shared.modify_co, if_neg htc]
    exact h.fresh t ht

theorem Coroutines.Inv.lt_next {isStd : E → Bool} {w : Coroutines V E} (h : w.Inv isStd) {c : ℕ}
    (hc : w.shared.co c ≠ .none) : c < w.shared.next := by
  by_contra hlt
  exact hc (h.fresh c (Nat.not_lt.mp hlt))

theorem Coroutine.ne_none_of_active {x : Coroutine V E} (h : x.status = .active) : x ≠ .none := by
  rintro rfl
  cases h

theorem Coroutine.ne_none_of_outcome {x : Coroutine V E} {r : Result V E}
    (h : x.outcome = some r) : x ≠ .none := by
  rintro rfl
  cases h

theorem Coroutine.waiting_notified {isStd : E → Bool} {x : Coroutine V E} {r : Result V E}
    (hout : x.outcome = some r) (hr : ∀ e, r = .error e → isStd e = true) :
    x.waiting isStd = 0 := by
  unfold Coroutine.waiting
  cases r with
  | ok v => simp only [hout]
  | error e => simp only [hout, hr e rfl, ite_true]

-- `return_value`, `return_void`, and `unhandled_exception` where it goes on to notify.
theorem Coroutines.Inv.finish {isStd : E → Bool} {w : Coroutines V E} (h : w.Inv isStd) {i c : ℕ}
    {b : Body V E} {stack : List (Return V E)} {r : Result V E}
    (hi : w.calls[i]? = some ⟨.body c b, stack⟩) (hr : ∀ e, r = .error e → isStd e = true)
    (hvoid : (w.shared.co c).kind = .void → ∀ v, r = .ok v → v = none)
    (handler : E → Option (Body V E)) :
    w.Goes isStd ⟨w.shared.modify c (.setResult r), w.calls.set i
      ⟨.back, .notifyAllCbs c r (w.shared.co c).callbacks handler :: stack⟩⟩ := by
  have hactive := h.active hi
  have hx := h.coroutines c
  have hout := hx.running hactive
  have hruns := hx.unheard hout
  have hok := h.calls _ (List.mem_of_getElem? hi)
  have hgrow : w.shared.Grows (w.shared.modify c (.setResult r)) :=
    .modify (fun r' hr' => by rw [hout] at hr'; cases hr') id
  have hawait := Coroutine.not_awaiting_of_active hactive
  have hwaits : ∀ t p, w.shared.Waits t p → (w.shared.modify c (.setResult r)).Waits t p :=
    fun t p hw => hw.modify rfl fun hpc => absurd hpc (hw.ne (hawait t))
  have hs : (w.shared.modify c (.setResult r)).Settled stack := Shared.Settled.mono hok.control hgrow
  refine h.modify hi (fun p => ?_) (fun t => ?_) hgrow rfl
    (.inr fun t k hk => absurd hk (hawait t k)) ⟨?_, ?_, hs⟩
    (fun p hp => .inl hp) ?_ (h.lt_next (Coroutine.ne_none_of_active hactive))
  · simp only [Call.lives, Control.lives, Return.lives, List.map_cons, List.sum_cons,
      Coroutine.actives, Coroutine.setResult, hactive]
    split <;> omega
  · have hown : ((w.shared.co c).setResult r).own isStd = 0 := by
      simp only [Coroutine.own, Coroutine.waiting_notified (x := (w.shared.co c).setResult r) rfl hr]
      simp only [Coroutine.setResult, hruns, List.length_nil]
    have hown' : (w.shared.co c).own isStd = (w.shared.co c).callbacks.length := by
      simp only [Coroutine.own, Coroutine.waiting, hout, hruns, List.length_nil, Nat.add_zero]
    simp only [Call.tokens, Control.tokens, Return.tokens, List.map_cons, List.sum_cons, hown, hown']
    split <;> omega
  · intro c' r' cbs handler' hmem
    rcases List.mem_cons.mp hmem with heq | hmem
    · cases heq
      rw [Shared.modify_co, if_pos rfl]
      exact ⟨rfl, hr⟩
    · exact hok.stack.mono hgrow c' r' cbs handler' hmem
  · simp only [Call.owes, Control.owes, List.flatMap_cons, hs.owes, Return.owes, List.nil_append,
      List.append_nil]
    intro x hmem
    obtain ⟨p, hp, rfl⟩ := List.mem_map.mp hmem
    exact hwaits c p (h.registered c p hout hp)
  · exact hx.setResult hout r (.inl rfl) hvoid

-- `unhandled_exception` with an exception it does not catch: the callbacks stay.
theorem Coroutines.Inv.escape {isStd : E → Bool} {w : Coroutines V E} (h : w.Inv isStd) {i c : ℕ}
    {b : Body V E} {stack : List (Return V E)} {e : E}
    (hi : w.calls[i]? = some ⟨.body c b, stack⟩) (he : isStd e = false) :
    w.Goes isStd ⟨(w.shared.modify c (.setResult (.error e))).setStatus c .done,
      w.calls.set i ⟨.throwing e, stack⟩⟩ := by
  have hactive := h.active hi
  have hx := h.coroutines c
  have hout := hx.running hactive
  have hok := h.calls _ (List.mem_of_getElem? hi)
  rw [Shared.setStatus, Shared.modify_modify]
  have hgrow := Shared.Grows.modify (s := w.shared) (c := c)
    (f := fun x => { x.setResult (.error e) with status := .done })
    (fun r' hr' => by rw [hout] at hr'; cases hr') id
  have hs := Shared.Settled.mono hok.control hgrow
  refine h.modify hi (fun p => ?_) (fun t => ?_) hgrow rfl
    (.inr fun t k hk => absurd hk (Coroutine.not_awaiting_of_active hactive t k))
    (.of_settled (hok.stack.mono hgrow) hs (fun x hx => nomatch hx) ⟨he, hs⟩)
    (fun p hp => .inl hp) ?_ (h.lt_next (Coroutine.ne_none_of_active hactive))
  · simp only [Call.lives, Control.lives, Coroutine.actives, hactive]
    split <;> omega
  · simp only [Call.tokens, Control.tokens, Coroutine.own, Coroutine.waiting, Coroutine.setResult,
      hout, he, Bool.false_eq_true, ite_false]
  · exact hx.setResult hout _ (.inr rfl) fun _ _ => nofun

theorem Coroutines.Inv.suspend {isStd : E → Bool} {w : Coroutines V E} (h : w.Inv isStd) {i c : ℕ}
    {b : Body V E} {stack : List (Return V E)} (k : Except E V → Body V E)
    (hi : w.calls[i]? = some ⟨.body c b, stack⟩) :
    w.Goes isStd ⟨w.shared.setStatus c (.suspended k), w.calls.set i ⟨.back, stack⟩⟩ := by
  have hactive := h.active hi
  have hx := h.coroutines c
  have hok := h.calls _ (List.mem_of_getElem? hi)
  have hgrow := Shared.Grows.modify (s := w.shared) (c := c)
    (f := fun x => { x with status := .suspended k }) (fun _ hr => ⟨hr, rfl⟩) id
  have hs := Shared.Settled.mono hok.control hgrow
  refine h.modify hi (fun p => ?_) (fun t => rfl) hgrow rfl
    (.inr fun t k hk => absurd hk (Coroutine.not_awaiting_of_active hactive t k))
    (.of_settled (hok.stack.mono hgrow) hs (fun x hx => nomatch hx) hs.tail)
    (fun p hp => .inl hp) { hx with ended := fun hout => absurd (hx.running hactive) hout }
    (h.lt_next (Coroutine.ne_none_of_active hactive))
  · simp only [Call.lives, Control.lives, Coroutine.actives, hactive]
    split <;> omega

-- `setCompleteCb` on a promise without a result.
theorem Coroutines.Inv.register {isStd : E → Bool} {w : Coroutines V E} (h : w.Inv isStd)
    {i p t : ℕ} {stack : List (Return V E)} (hi : w.calls[i]? = some ⟨.awaitSuspend p t, stack⟩)
    (hnone : (w.shared.co t).result = none) :
    w.Goes isStd ⟨w.shared.modify t fun x => { x with callbacks := x.callbacks ++ [p] },
      w.calls.set i ⟨.back, stack⟩⟩ := by
  have hx := h.coroutines t
  have hout := hx.result.mp hnone
  have hok := h.calls _ (List.mem_of_getElem? hi)
  have hgrow := Shared.Grows.modify (s := w.shared) (c := t)
    (f := fun x => { x with callbacks := x.callbacks ++ [p] }) (fun _ hr => ⟨hr, rfl⟩) id
  have hs := Shared.Settled.mono hok.control hgrow
  have hw := hok.owes (t, p) (List.mem_append_left _ (List.mem_singleton_self _))
  refine h.modify hi (fun q => ?_) (fun t' => ?_) hgrow rfl (.inl rfl)
    (.of_settled (hok.stack.mono hgrow) hs (fun x hx => nomatch hx) hs.tail)
    (fun q hq => ?_) { hx with early := fun e he => ?_ } (h.lt_next ?_)
  · rfl
  · simp only [Call.tokens, Control.tokens, Coroutine.own, Coroutine.waiting, hout,
      List.length_append, List.length_singleton]
    split <;> omega
  · rcases List.mem_append.mp hq with hq | hq
    · exact .inl hq
    · rw [List.mem_singleton.mp hq]
      exact .inr (hw.modify rfl fun _ => rfl)
  · rw [hout] at he
    cases he
  · intro hco
    have htask := hw.1
    rw [hco] at htask
    cases htask

-- The end of `notifyAllCbs`, and `final_suspend`.
theorem Coroutines.Inv.finalSuspend {isStd : E → Bool} {w : Coroutines V E} (h : w.Inv isStd)
    {i c : ℕ} {r : Result V E} {handler : E → Option (Body V E)} {stack : List (Return V E)}
    (hi : w.calls[i]? = some ⟨.back, .notifyAllCbs c r [] handler :: stack⟩) :
    w.Goes isStd ⟨w.shared.modify c fun x => { x with callbacks := [], status := .done },
      w.calls.set i ⟨.back, stack⟩⟩ := by
  have hx := h.coroutines c
  have hok := h.calls _ (List.mem_of_getElem? hi)
  obtain ⟨hout, hr⟩ := hok.stack c r [] handler (List.mem_cons_self ..)
  have hgrow := Shared.Grows.modify (s := w.shared) (c := c)
    (f := fun x => { x with callbacks := [], status := .done }) (fun _ hr => ⟨hr, rfl⟩) id
  have hs := Shared.Settled.mono hok.control hgrow
  have hwait := Coroutine.waiting_notified hout hr
  have hwait' := Coroutine.waiting_notified
    (x := { w.shared.co c with callbacks := [], status := .done }) hout hr
  refine h.modify hi (fun p => ?_) (fun t => ?_) hgrow rfl
    (.inr fun t k hk => absurd hk (hx.not_awaiting hout t k))
    (.of_settled (hok.stack.tail.mono hgrow) hs (fun x hx => nomatch hx) hs.tail)
    (fun p hp => nomatch hp) { hx with ended := fun _ => .inr rfl, early := fun e he hstd => ?_ }
    (h.lt_next (Coroutine.ne_none_of_outcome hout))
  · simp only [Call.lives, Control.lives, Return.lives, List.map_cons, List.sum_cons,
      hx.not_active hout]
    simp only [Coroutine.actives]
    omega
  · simp only [Call.tokens, Control.tokens, Return.tokens, List.map_cons, List.sum_cons,
      Coroutine.own, hwait, hwait', List.length_nil]
    split <;> omega
  · rw [hout] at he
    rw [hr e (Option.some.inj he)] at hstd
    cases hstd

-- `unhandled_exception` of a child whose callback threw.
theorem Coroutines.Inv.overwrite {isStd : E → Bool} {w : Coroutines V E} (h : w.Inv isStd)
    {i c : ℕ} {r : Result V E} {cbs : List ℕ} {handler : E → Option (Body V E)} {e : E}
    {stack : List (Return V E)}
    (hi : w.calls[i]? = some ⟨.throwing e, .notifyAllCbs c r cbs handler :: stack⟩) :
    w.Goes isStd ⟨w.shared.modify c fun x =>
      { x with result := some (.error e), status := .done }, w.calls.set i ⟨.throwing e, stack⟩⟩ := by
  have hx := h.coroutines c
  have hok := h.calls _ (List.mem_of_getElem? hi)
  obtain ⟨hout, hr⟩ := hok.stack c r cbs handler (List.mem_cons_self ..)
  obtain ⟨hcbs, hruns⟩ := hok.control.2 c r cbs handler (List.mem_cons_self ..)
  have hgrow := Shared.Grows.modify (s := w.shared) (c := c)
    (f := fun x => { x with result := some (.error e), status := .done }) (fun _ hr => ⟨hr, rfl⟩) id
  have hs := (Shared.Settled.mono hok.control.2 hgrow).tail
  refine h.modify hi (fun p => ?_) (fun t => ?_) hgrow rfl
    (.inr fun t k hk => absurd hk (hx.not_awaiting hout t k))
    (.of_settled (hok.stack.tail.mono hgrow) hs (fun x hx => nomatch hx) ⟨hok.control.1, hs⟩)
    (fun p hp => .inl hp)
    { hx with
      result := ?_
      kept := fun _ _ => .inr hruns
      ended := fun _ => .inr rfl }
    (h.lt_next (Coroutine.ne_none_of_outcome hout))
  · simp only [Call.lives, Control.lives, Return.lives, List.map_cons, List.sum_cons,
      hx.not_active hout]
    simp only [Coroutine.actives]
    omega
  · simp only [Call.tokens, Control.tokens, Return.tokens, List.map_cons, List.sum_cons, hcbs,
      List.length_nil, ite_self, Nat.zero_add]
    rfl
  · simp only [hout, reduceCtorEq]

theorem Coroutines.Inv.move {isStd : E → Bool} {w : Coroutines V E} (h : w.Inv isStd) {i : ℕ}
    {call call' : Call V E} (hi : w.calls[i]? = some call)
    (hlive : ∀ p, call'.lives p = call.lives p) (howed : ∀ t, call'.tokens t = call.tokens t)
    (hcall : call'.Ok isStd w.shared) :
    w.Goes isStd ⟨w.shared, w.calls.set i call'⟩ :=
  h.advance hi (fun p => by rw [hlive p]) (fun t => by rw [howed t]) ⟨fun _ _ hr => ⟨hr, rfl⟩, fun _ => id⟩
    (fun _ _ hw => .inl hw) hcall (fun _ _ hout hmem => .inl ⟨hout, hmem⟩) (fun _ hx => hx) h.fresh

/-- The call goes on in the body that is on top of its stack. -/
theorem Coroutines.Inv.intoBody {isStd : E → Bool} {w : Coroutines V E} (h : w.Inv isStd) {i c n : ℕ}
    {control : Control V E} {k : Except E ℕ → Body V E} {stack : List (Return V E)} (b : Body V E)
    (hi : w.calls[i]? = some ⟨control, .calling c n k :: stack⟩) (hs : w.shared.Settled stack)
    (hlive : ∀ p, control.lives p = 0) (howed : ∀ t, control.tokens t = 0) :
    w.Goes isStd ⟨w.shared, w.calls.set i ⟨.body c b, stack⟩⟩ := by
  have hok := h.calls _ (List.mem_of_getElem? hi)
  refine h.move hi (fun p => ?_) (fun t => ?_) (.of_settled hok.stack.tail hs nofun hs)
  · rw [Call.lives, Call.lives, hlive, List.map_cons, List.sum_cons]
    exact (Nat.zero_add _).symm
  · rw [Call.tokens, Call.tokens, howed, List.map_cons, List.sum_cons]
    exact congrArg (0 + ·) (Nat.zero_add _).symm

theorem Coroutine.new_ok (isStd : E → Bool) (kind : Kind) (status : Status V E) :
    (Coroutine.new kind status).Ok isStd where
  result := Iff.rfl
  kept := nofun
  ended := fun hout => absurd rfl hout
  void := nofun
  early := nofun
  runs := nofun
  lost := nofun
  resumed := nofun

theorem Coroutines.Inv.create {isStd : E → Bool} {w : Coroutines V E} (h : w.Inv isStd) {i : ℕ}
    {call call' : Call V E} (kind : Kind) (status : Status V E) (hi : w.calls[i]? = some call)
    (hlive : ∀ p, call'.lives p =
      call.lives p + if p = w.shared.next then (Coroutine.new kind status).actives else 0)
    (howed : ∀ t, call'.tokens t = call.tokens t)
    (hcall : w.shared.Grows (w.shared.create kind status) →
      call'.Ok isStd (w.shared.create kind status)) :
    w.Goes isStd ⟨w.shared.create kind status, w.calls.set i call'⟩ := by
  have hnone := h.fresh w.shared.next (Nat.le_refl _)
  have hco : ∀ t, (w.shared.create kind status).co t =
      if t = w.shared.next then .new kind status else w.shared.co t := fun t => rfl
  have hgrow : w.shared.Grows (w.shared.create kind status) := by
    constructor
    · intro t r hr
      rw [hco, if_neg]
      · exact ⟨hr, rfl⟩
      · rintro rfl
        exact Coroutine.ne_none_of_outcome hr hnone
    · intro t hruns
      rw [hco, if_neg]
      · exact hruns
      · rintro rfl
        exact hruns (by rw [hnone]; rfl)
  refine h.advance hi (fun p => ?_) (fun t => ?_) hgrow (fun t p hw => .inl ?_) (hcall hgrow)
    (fun t p hout hmem => .inl ?_) (fun t ht => ?_) (fun t ht => ?_)
  · rw [hlive p, hco]
    split
    · rename_i hp
      rw [hp, hnone]
      exact Nat.add_right_comm _ _ 0
    · rfl
  · rw [howed t, hco]
    split
    · rename_i ht
      rw [ht, hnone]
      rfl
    · rfl
  · obtain ⟨htask, k, hk⟩ := hw
    refine ⟨?_, k, ?_⟩
    · rw [hco, if_neg]
      · exact htask
      · rintro rfl
        rw [hnone] at htask
        cases htask
    · rw [hco, if_neg]
      · exact hk
      · rintro rfl
        rw [hnone] at hk
        cases hk
  · rw [hco] at hout hmem
    split at hmem
    · cases hmem
    · rename_i ht
      rw [if_neg ht] at hout
      exact ⟨hout, hmem⟩
  · rw [hco]
    split
    · exact Coroutine.new_ok isStd kind status
    · exact ht
  · have hlt : w.shared.next < t := ht
    rw [hco, if_neg (Nat.ne_of_gt hlt)]
    exact h.fresh t (Nat.le_of_lt hlt)

theorem Coroutines.Inv.idle {isStd : E → Bool} {w : Coroutines V E} (h : w.Inv isStd) :
    Coroutines.Inv isStd (w.enter ⟨.back, []⟩) where
  live p := by
    rw [World.enter, sum_enter]
    exact h.live p
  owed t := by
    rw [World.enter, sum_enter]
    exact h.owed t
  calls := forall_enter h.calls ⟨nofun, nofun, nofun⟩
  registered := h.registered
  coroutines := h.coroutines
  fresh := h.fresh

-- `await_transform` moves the `Task`, and the parent is suspended.
theorem Coroutines.Inv.coAwait {isStd : E → Bool} {w : Coroutines V E} (h : w.Inv isStd)
    {i c t : ℕ} {b : Body V E} {stack : List (Return V E)} (k : Result V E → Body V E)
    (hi : w.calls[i]? = some ⟨.body c b, stack⟩) (hheld : (w.shared.co t).task = .held) :
    w.Goes isStd ⟨(w.shared.modify t fun x => { x with task := .awaited c }).setStatus c
      (.awaiting t k), w.calls.set i ⟨.awaitSuspend c t, stack⟩⟩ := by
  have hactive := h.active hi
  have hok := h.calls _ (List.mem_of_getElem? hi)
  -- `t` may be `c` itself, so the fields are followed one by one
  have hco : ∀ q, ((w.shared.modify t fun x => { x with task := .awaited c }).setStatus c
      (.awaiting t k)).co q = { w.shared.co q with
        task := if q = t then .awaited c else (w.shared.co q).task
        status := if q = c then .awaiting t k else (w.shared.co q).status } := by
    intro q
    simp only [Shared.setStatus, Shared.modify_co]
    by_cases hqc : q = c <;> by_cases hqt : q = t <;> simp only [hqc, hqt, ite_true, ite_false] <;>
      split <;> rfl
  generalize hs' : (w.shared.modify t fun x => { x with task := .awaited c }).setStatus c
    (.awaiting t k) = s' at hco ⊢
  have hgrow : w.shared.Grows s' := by
    constructor
    · intro q r hr
      rw [hco]
      exact ⟨hr, rfl⟩
    · intro q hq
      rw [hco]
      exact hq
  have hs := Shared.Settled.mono hok.control hgrow
  have hnew : s'.Waits t c := by
    refine ⟨?_, k, ?_⟩
    · rw [hco]
      exact if_pos rfl
    · rw [hco]
      exact if_pos rfl
  refine h.advance hi (fun q => ?_) (fun q => ?_) hgrow (fun t' p hw => .inl ?_)
    (.of_settled (hok.stack.mono hgrow) hs (fun x hx => ?_) hs)
    (fun q p hout hmem => .inl ?_) (fun q hq => ?_) (fun q hq => ?_)
  · rw [hco]
    simp only [Call.lives, Control.lives, Coroutine.actives]
    by_cases hqc : q = c
    · simp only [hqc, hactive, ite_true]
      omega
    · simp only [if_neg hqc]
  · rw [hco]
    simp only [Call.tokens, Control.tokens, Coroutine.waiting, Coroutine.awaits]
    by_cases hqt : q = t
    · simp only [hqt, hheld, ite_true]
      omega
    · simp only [if_neg hqt]
  · have hpc := hw.ne (Coroutine.not_awaiting_of_active hactive t')
    obtain ⟨htask, k', hk'⟩ := hw
    have htt : t' ≠ t := by
      rintro rfl
      rw [hheld] at htask
      cases htask
    refine ⟨?_, k', ?_⟩
    · rw [hco]
      exact (if_neg htt).trans htask
    · rw [hco]
      exact (if_neg hpc).trans hk'
  · rw [List.mem_singleton.mp hx]
    exact hnew
  · rw [hco] at hout hmem
    exact ⟨hout, hmem⟩
  · rw [hco]
    refine { hq with ended := fun hout => ?_ }
    have hqc : q ≠ c := by
      rintro rfl
      exact hout (hq.running hactive)
    simp only [if_neg hqc]
    exact hq.ended hout
  · have hnext : w.shared.next ≤ q := by
      rw [← hs'] at hq
      exact hq
    have hnone := h.fresh q hnext
    have hqc : q ≠ c := by
      rintro rfl
      exact Coroutine.ne_none_of_active hactive hnone
    have hqt : q ≠ t := by
      rintro rfl
      rw [hnone] at hheld
      cases hheld
    rw [hco, if_neg hqt, if_neg hqc]
    exact hnone

theorem Call.Ok.callback {isStd : E → Bool} {s : Shared V E} {t p : ℕ} {r : Result V E}
    {inline : Bool} {stack : List (Return V E)}
    (h : Call.Ok isStd s ⟨.callback t p r inline, stack⟩) :
    s.Waits t p ∧ (s.co t).outcome = some r ∧ stack.flatMap Return.owes = [] ∧
      s.Settled stack.tail ∧
      ∀ s' : Shared V E, s.Grows s' → (s'.co t).runs ≠ [] → s'.Settled stack := by
  have hw := h.owes (t, p) (List.mem_append_left _ (List.mem_singleton_self _))
  cases inline with
  | true =>
    obtain ⟨hout, hs⟩ := h.control
    exact ⟨hw, hout, hs.owes, hs.tail, fun s' hg _ => hs.mono hg⟩
  | false =>
    obtain ⟨hout, handler, rest, rfl, hs⟩ := h.control
    refine ⟨hw, hout, ?_, hs, fun s' hg hruns c r' cbs handler' hmem => ?_⟩
    · rw [List.flatMap_cons, hs.owes]
      rfl
    · rcases List.mem_cons.mp hmem with heq | hmem
      · cases heq
        exact ⟨rfl, hruns⟩
      · exact hs.mono hg c r' cbs handler' hmem

theorem Call.tokens_callback (t p : ℕ) (r : Result V E) (inline : Bool)
    (stack : List (Return V E)) : 0 < Call.tokens t ⟨.callback t p r inline, stack⟩ := by
  simp only [Call.tokens, Control.tokens, ite_true]
  omega

/-- The callback is run; `o` is what it resumes the parent with. -/
theorem Coroutines.Inv.logged {isStd : E → Bool} {w : Coroutines V E} (h : w.Inv isStd)
    {i t p : ℕ} {r : Result V E} {o : Option (Result V E)} {inline : Bool}
    {stack : List (Return V E)} (hi : w.calls[i]? = some ⟨.callback t p r inline, stack⟩)
    (ho : (∃ e, r = .error e ∧ isStd e = true ∧ o = none) ∨
      (w.shared.co t).Heard isStd r ∧ o = some r) (g : Bool → Bool) :
    w.Goes isStd ⟨w.shared.modify t fun x =>
        { x with isResumed := g x.isResumed, runs := x.runs ++ [o] },
      w.calls.set i ⟨.back, stack⟩⟩ := by
  have hx := h.coroutines t
  have hok := h.calls _ (List.mem_of_getElem? hi)
  obtain ⟨-, hout, howes, hs, -⟩ := hok.callback
  obtain ⟨-, -, hruns⟩ := h.owing hi (Call.tokens_callback t p r inline stack)
  have hne : (w.shared.co t).runs ++ [o] ≠ [] :=
    List.append_ne_nil_of_right_ne_nil _ (List.cons_ne_nil _ _)
  have hgrow := Shared.Grows.modify (s := w.shared) (c := t)
    (f := fun x => { x with isResumed := g x.isResumed, runs := x.runs ++ [o] })
    (fun _ hr => ⟨hr, rfl⟩) fun _ => hne
  refine h.modify hi (fun q => rfl) (fun q => ?_) hgrow rfl (.inl rfl)
    ⟨hok.stack.mono hgrow, ?_, hs.mono hgrow⟩ (fun q hq => .inl hq)
    { hx with
      kept := fun _ _ => .inr hne
      runs := fun r' hr' => ?_
      lost := fun hn => ?_
      resumed := fun _ => hne }
    (h.lt_next (Coroutine.ne_none_of_outcome hout))
  · simp only [Call.tokens, Control.tokens, Coroutine.own, Coroutine.waiting, List.length_append,
      List.length_singleton]
    split <;> omega
  · rw [Call.owes, howes]
    exact nofun
  · rw [hruns, List.nil_append, List.mem_singleton] at hr'
    rcases ho with ⟨e, -, -, rfl⟩ | ⟨hheard, rfl⟩
    · cases hr'
    · cases hr'
      exact ⟨hout, hheard⟩
  · rw [hruns, List.nil_append, List.mem_singleton] at hn
    rcases ho with ⟨e, rfl, he, -⟩ | ⟨-, rfl⟩
    · exact ⟨e, hout, he⟩
    · cases hn

/-- A parent whose callback was run goes on, inside its `await_suspend` or not. -/
theorem Coroutines.Inv.woken {isStd : E → Bool} {w : Coroutines V E} (h : w.Inv isStd) {i t p : ℕ}
    {stack : List (Return V E)} {k : Result V E → Body V E} (b : Body V E) (inside : Bool)
    (hi : w.calls[i]? = some ⟨.back, stack⟩) (hs : w.shared.Settled stack)
    (hk : (w.shared.co p).status = .awaiting t k) (hruns : (w.shared.co t).runs ≠ []) :
    w.Goes isStd ⟨w.shared.setStatus p .active, w.calls.set i
      ⟨.body p b, if inside then .awaitSuspend t p k :: stack else stack⟩⟩ := by
  have hx := h.coroutines p
  have hok := h.calls _ (List.mem_of_getElem? hi)
  have hgrow := Shared.Grows.modify (s := w.shared) (c := p)
    (f := fun x => { x with status := .active }) (fun _ hr => ⟨hr, rfl⟩) id
  have hstack : ∀ s' : Shared V E, w.shared.Grows s' →
      s'.Settled (if inside then .awaitSuspend t p k :: stack else stack) ∧
      s'.Notified isStd (if inside then .awaitSuspend t p k :: stack else stack) := by
    intro s' hg
    split
    · exact ⟨(hs.mono hg).cons nofun, (hok.stack.mono hg).cons nofun⟩
    · exact ⟨hs.mono hg, hok.stack.mono hg⟩
  obtain ⟨hs', hnotified⟩ := hstack _ hgrow
  refine h.modify hi (fun q => ?_) (fun q => ?_) hgrow rfl (.inr fun t' k' hk' => ?_)
    (.of_settled hnotified hs' nofun hs') (fun q hq => .inl hq)
    { hx with ended := fun hout => ?_ } (h.lt_next fun hnone => ?_)
  · have hlives : ((if inside then Return.awaitSuspend t p k :: stack else stack).map
        (Return.lives q)).sum = (stack.map (Return.lives q)).sum := by
      split
      · exact Nat.zero_add _
      · rfl
    simp only [Call.lives, hlives, Control.lives, Coroutine.actives, hk, ite_self]
    omega
  · have htokens : ((if inside then Return.awaitSuspend t p k :: stack else stack).map
        (Return.tokens q)).sum = (stack.map (Return.tokens q)).sum := by
      split
      · exact Nat.zero_add _
      · rfl
    simp only [Call.tokens, htokens]
    rfl
  · cases hk.symm.trans hk'
    have hone := (w.shared.co t).awaits_le_one
    have hpos := List.length_pos_of_ne_nil hruns
    omega
  · rcases hx.ended hout with hst | hst <;> exact absurd (hk.symm.trans hst) nofun
  · rw [hnone] at hk
    cases hk

theorem Shared.Grows.trans {s s' s'' : Shared V E} (h : s.Grows s') (h' : s'.Grows s'') :
    s.Grows s'' where
  outcome t r hr :=
    ⟨(h'.outcome t r (h.outcome t r hr).1).1,
      (h'.outcome t r (h.outcome t r hr).1).2.trans (h.outcome t r hr).2⟩
  runs t hr := h'.runs t (h.runs t hr)

theorem Coroutines.Goes.trans {isStd : E → Bool} {w w' w'' : Coroutines V E} (h : w.Goes isStd w')
    (h' : w'.Goes isStd w'') : w.Goes isStd w'' :=
  ⟨h'.inv, h.grows.trans h'.grows⟩

theorem Coroutines.Inv.deliver {isStd : E → Bool} {w : Coroutines V E} (h : w.Inv isStd)
    {i t p : ℕ} {r : Result V E} {inline : Bool} {stack : List (Return V E)}
    {k : Result V E → Body V E} (hi : w.calls[i]? = some ⟨.callback t p r inline, stack⟩)
    (hk : (w.shared.co p).status = .awaiting t k) (hheard : (w.shared.co t).Heard isStd r)
    (g : Bool → Bool) (inside : Bool) :
    w.Goes isStd ⟨(w.shared.modify t fun x =>
        { x with isResumed := g x.isResumed, runs := x.runs ++ [some r] }).setStatus p .active,
      w.calls.set i ⟨.body p (k r), if inside then .awaitSuspend t p k :: stack else stack⟩⟩ := by
  have hlog := h.logged hi (.inr ⟨hheard, rfl⟩) g
  have hlt := (List.getElem?_eq_some_iff.mp hi).1
  have hok := h.calls _ (List.mem_of_getElem? hi)
  have hruns : ((w.shared.modify t fun x =>
      { x with isResumed := g x.isResumed, runs := x.runs ++ [some r] }).co t).runs ≠ [] := by
    rw [Shared.modify_co, if_pos rfl]
    exact List.append_ne_nil_of_right_ne_nil _ (List.cons_ne_nil _ _)
  have hk' : ((w.shared.modify t fun x =>
      { x with isResumed := g x.isResumed, runs := x.runs ++ [some r] }).co p).status =
      .awaiting t k := by
    rw [Shared.modify_co]
    split <;> exact hk
  have hwake := hlog.inv.woken (k r) inside (List.getElem?_set_self hlt)
    (hok.callback.2.2.2.2 _ hlog.grows hruns) hk' hruns
  rw [List.set_set] at hwake
  exact hlog.trans hwake

/-! ## Runs -/

theorem Shared.resumeHandle_awaiting {s : Shared V E} {t p : ℕ} {k : Result V E → Body V E}
    (hk : (s.co p).status = .awaiting t k) (r : Result V E) (inside : Bool)
    (stack : List (Return V E)) :
    s.resumeHandle t p r inside stack = ((s.modify t (.log (some r))).setStatus p .active,
      ⟨.body p (k r), if inside then .awaitSuspend t p k :: stack else stack⟩) := by
  have hk' : ((s.modify t (.log (some r))).co p).status = .awaiting t k := by
    rw [modify_co]
    split <;> exact hk
  simp only [resumeHandle, hk']

theorem Shared.resumeValue_awaiting {s : Shared V E} {t p : ℕ} {k : Result V E → Body V E}
    (hk : (s.co p).status = .awaiting t k) (hfalse : (s.co t).isResumed = false) (v : Option V)
    (inside : Bool) (stack : List (Return V E)) :
    s.resumeValue t p v inside stack =
      ((s.modify t fun x => { x with isResumed := true, runs := x.runs ++ [some (.ok v)] }).setStatus
        p .active,
        ⟨.body p (k (.ok v)), if inside then .awaitSuspend t p k :: stack else stack⟩) := by
  have hk' : ((s.modify t fun x => { x with isResumed := true }).co p).status =
      .awaiting t k := by
    rw [modify_co]
    split <;> exact hk
  simp only [resumeValue, hfalse, Bool.false_eq_true, ite_false, hk',
    resumeHandle_awaiting hk', modify_modify, Coroutine.log]

theorem Coroutines.Inv.callback {isStd : E → Bool} {w : Coroutines V E} (h : w.Inv isStd)
    {i t p : ℕ} {r : Result V E} {inline : Bool} {stack : List (Return V E)}
    (hi : w.calls[i]? = some ⟨.callback t p r inline, stack⟩) :
    (∃ e, r = .error e ∧ isStd e = true ∧ w.shared.callback isStd t p r inline stack =
      some (w.shared.modify t (.log none), ⟨.back, stack⟩)) ∨
    ∃ (k : Result V E → Body V E) (g : Bool → Bool) (inside : Bool),
      (w.shared.co p).status = .awaiting t k ∧ (w.shared.co t).Heard isStd r ∧
      w.shared.callback isStd t p r inline stack =
        some ((w.shared.modify t fun x =>
          { x with isResumed := g x.isResumed, runs := x.runs ++ [some r] }).setStatus p .active,
          ⟨.body p (k r), if inside then .awaitSuspend t p k :: stack else stack⟩) := by
  have hx := h.coroutines t
  have hok := h.calls _ (List.mem_of_getElem? hi)
  obtain ⟨⟨-, k, hk⟩, hout, -, -, -⟩ := hok.callback
  obtain ⟨-, hwait, hruns⟩ := h.owing hi (Call.tokens_callback t p r inline stack)
  cases r with
  | error e =>
    by_cases he : isStd e = true
    · refine .inl ⟨e, rfl, he, ?_⟩
      simp only [Shared.callback, Shared.catchStd, he, ite_true]
    · have he' : isStd e = false := Bool.eq_false_iff.mpr he
      simp only [Coroutine.waiting, hout, he', Bool.false_eq_true, ite_false,
        List.length_eq_zero_iff] at hwait
      have hearly := (hx.early e hout he').mpr hwait
      have hinline : inline = true := by
        cases inline with
        | true => rfl
        | false =>
          -- an end that is notified is not by such an exception
          obtain ⟨-, handler, rest, rfl, -⟩ := hok.control
          exact absurd ((hok.stack t (.error e) [] handler (List.mem_cons_self ..)).2 e rfl) he
      refine .inr ⟨k, id, false, hk, ?_, ?_⟩
      · rintro e' ⟨⟩
        exact ⟨he', hearly⟩
      · simp only [Shared.callback, Shared.catchStd, he', Bool.false_eq_true, ite_false, hinline,
          ite_true, Shared.resumeHandle_awaiting hk]
        rfl
  | ok v =>
    have hheard : (w.shared.co t).Heard isStd (.ok v) := nofun
    cases hkind : (w.shared.co t).kind with
    | void =>
      cases hx.void hkind v hout
      refine .inr ⟨k, id, inline, hk, hheard, ?_⟩
      simp only [Shared.callback, hkind, Shared.resumeHandle_awaiting hk]
      rfl
    | value =>
      have hres : (w.shared.co t).result = some (.ok v) := by
        cases hr : (w.shared.co t).result with
        | none => rw [hx.result.mp hr] at hout; cases hout
        | some r' =>
          rcases hx.kept r' hr with hr' | hr'
          · exact hr'.symm.trans hout
          · exact absurd hruns hr'
      have hfalse : (w.shared.co t).isResumed = false := by
        by_contra htrue
        exact hx.resumed (Bool.not_eq_false _ ▸ htrue) hruns
      refine .inr ⟨k, fun _ => true, inline, hk, hheard, ?_⟩
      simp only [Shared.callback, hkind, hres, Shared.resumeValue_awaiting hk hfalse]

theorem Coroutine.returned_void {x : Coroutine V E} (h : x.kind = .void) {v : V} {u : Option V}
    (hv : x.returned v = .ok u) : u = .none := by
  simp only [returned, h, Except.ok.injEq] at hv
  exact hv.symm

theorem Coroutine.returned_ne_error (x : Coroutine V E) (v : V) (e : E) :
    x.returned v ≠ .error e := by
  unfold returned
  split <;> exact nofun

theorem Executer.initialExecute_lives (executer : Executer) (kind : Kind) (n p : ℕ)
    (b : Body V E) : (executer.initialExecute n b).2.lives p =
      if p = n then (Coroutine.new kind (executer.initialExecute n b).1).actives else 0 := by
  cases executer with
  | base => rfl
  | taskBegin => exact (ite_self 0).symm

theorem Executer.initialExecute_owes (executer : Executer) (n : ℕ) (b : Body V E) :
    (executer.initialExecute n b).2.owes = [] := by
  cases executer <;> rfl

theorem Executer.initialExecute_tokens (executer : Executer) (n t : ℕ) (b : Body V E) :
    (executer.initialExecute n b).2.tokens t = 0 := by
  cases executer <;> rfl

theorem Executer.initialExecute_ok (executer : Executer) {isStd : E → Bool} {s : Shared V E}
    {stack : List (Return V E)} (n : ℕ) (b : Body V E) (hs : s.Settled stack) :
    (executer.initialExecute n b).2.Ok isStd s stack := by
  cases executer with
  | base => exact hs
  | taskBegin => exact hs.tail

theorem Coroutines.Inv.body {isStd : E → Bool} {w : Coroutines V E} (h : w.Inv isStd) {i c : ℕ}
    {b : Body V E} {stack : List (Return V E)} {s' : Shared V E} {call' : Call V E}
    (hi : w.calls[i]? = some ⟨.body c b, stack⟩)
    (hr : Call.body isStd w.shared c stack b = some (s', call')) :
    w.Goes isStd ⟨s', w.calls.set i call'⟩ := by
  cases b with
  | coReturn v handler =>
    cases hr
    exact h.finish hi (fun e he => absurd he (Coroutine.returned_ne_error _ v e))
      (fun hk u hu => Coroutine.returned_void hk hu) handler
  | throw e =>
    simp only [Call.body] at hr
    split at hr
    · rename_i he
      cases hr
      refine h.finish hi ?_ (fun _ _ hv => ?_) _
      · rintro e' ⟨⟩
        exact he
      · cases hv
    · rename_i he
      cases hr
      exact h.escape hi (Bool.eq_false_iff.mpr he)
  | suspend k =>
    cases hr
    exact h.suspend k hi
  | call kind executer child k =>
    have hok := h.calls _ (List.mem_of_getElem? hi)
    cases hr
    refine h.create kind _ hi (fun p => ?_) (fun t => ?_) fun hgrow => ?_
    · simp only [Call.lives, executer.initialExecute_lives kind, List.map_cons, List.sum_cons]
      simp only [Control.lives, Return.lives]
      omega
    · simp only [Call.tokens, executer.initialExecute_tokens, List.map_cons, List.sum_cons]
      simp only [Control.tokens, Return.tokens, Nat.zero_add]
    · have hs := Shared.Settled.mono hok.control hgrow
      have hs' : Shared.Settled _ (.calling c w.shared.next k :: stack) := hs.cons nofun
      refine .of_settled ((hok.stack.mono hgrow).cons nofun) hs' ?_
        (executer.initialExecute_ok _ _ hs')
      rw [executer.initialExecute_owes]
      exact nofun
  | coAwait t k =>
    simp only [Call.body] at hr
    split at hr
    · rename_i hheld
      cases hr
      exact h.coAwait k hi hheld
    · cases hr

theorem Coroutines.Inv.back {isStd : E → Bool} {w : Coroutines V E} (h : w.Inv isStd) {i : ℕ}
    {stack : List (Return V E)} {s' : Shared V E} {call' : Call V E}
    (hi : w.calls[i]? = some ⟨.back, stack⟩) (hr : Call.back w.shared stack = some (s', call')) :
    w.Goes isStd ⟨s', w.calls.set i call'⟩ := by
  have hok := h.calls _ (List.mem_of_getElem? hi)
  cases stack with
  | nil => cases hr
  | cons ret stack =>
    have hs : w.shared.Settled stack := hok.control
    cases ret with
    | calling c n k =>
      cases hr
      exact h.intoBody _ hi hs (fun _ => rfl) fun _ => rfl
    | awaitSuspend t p k =>
      cases hr
      refine h.move hi (fun q => ?_) (fun q => ?_) (.of_settled hok.stack.tail hs nofun hs.tail)
      · rw [Call.lives, Call.lives, List.map_cons, List.sum_cons]
        exact congrArg (0 + ·) (Nat.zero_add _).symm
      · rw [Call.tokens, Call.tokens, List.map_cons, List.sum_cons]
        exact congrArg (0 + ·) (Nat.zero_add _).symm
    | notifyAllCbs c r cbs handler =>
      cases cbs with
      | nil =>
        cases hr
        exact h.finalSuspend hi
      | cons p cbs =>
        cases hr
        have htok : Call.tokens c ⟨.back, .notifyAllCbs c r (p :: cbs) handler :: stack⟩ =
            cbs.length + 1 + (stack.map (Return.tokens c)).sum := by
          simp only [Call.tokens, Control.tokens, Return.tokens, List.map_cons, List.sum_cons,
            ite_true, List.length_cons, Nat.zero_add]
        obtain ⟨hone, -, -⟩ := h.owing (t := c) hi (by omega)
        have hcbs : cbs = [] := List.eq_nil_of_length_eq_zero (by omega)
        subst hcbs
        refine h.move hi (fun q => ?_) (fun t => ?_) ⟨?_, ?_, ?_⟩
        · simp only [Call.lives, Control.lives, Return.lives, List.map_cons, List.sum_cons]
        · simp only [Call.tokens, Control.tokens, Return.tokens, List.map_cons, List.sum_cons,
            List.length_singleton, List.length_nil, ite_self, Nat.zero_add]
        · intro c' r' cbs handler' hmem
          rcases List.mem_cons.mp hmem with heq | hmem
          · cases heq
            exact hok.stack c r [p] handler (List.mem_cons_self ..)
          · exact hok.stack.tail c' r' cbs handler' hmem
        · exact hok.owes
        · exact ⟨(hok.stack c r [p] handler (List.mem_cons_self ..)).1, handler, stack, rfl, hs⟩

theorem Coroutines.Inv.unwind {isStd : E → Bool} {w : Coroutines V E} (h : w.Inv isStd) {i : ℕ}
    {e : E} {stack : List (Return V E)} {s' : Shared V E} {call' : Call V E}
    (hi : w.calls[i]? = some ⟨.throwing e, stack⟩)
    (hcontained : Call.Contained ⟨.throwing e, stack⟩)
    (hr : Call.unwind isStd w.shared e stack = some (s', call')) :
    w.Goes isStd ⟨s', w.calls.set i call'⟩ := by
  have hok := h.calls _ (List.mem_of_getElem? hi)
  obtain ⟨he, hs⟩ := hok.control
  cases stack with
  | nil =>
    cases hr
    exact h.move hi (fun p => rfl) (fun t => rfl) ⟨nofun, nofun, nofun⟩
  | cons ret stack =>
    cases ret with
    | calling c n k =>
      cases hr
      exact h.intoBody _ hi hs.tail (fun _ => rfl) fun _ => rfl
    | notifyAllCbs c r cbs handler =>
      have hnone : handler e = none :=
        Option.isSome_eq_false_iff.mp (hcontained e _ _ rfl) |> Option.isNone_iff_eq_none.mp
      simp only [Call.unwind, he, Bool.false_eq_true, ite_false, hnone] at hr
      cases hr
      exact h.overwrite hi
    | awaitSuspend t p k => cases hcontained e _ _ rfl

theorem Coroutines.Inv.run {isStd : E → Bool} {w : Coroutines V E} (h : w.Inv isStd) {i : ℕ}
    {call call' : Call V E} {s' : Shared V E} (hi : w.calls[i]? = some call)
    (hcontained : call.Contained) (hr : Call.run isStd w.shared call = some (s', call')) :
    w.Goes isStd ⟨s', w.calls.set i call'⟩ := by
  obtain ⟨control, stack⟩ := call
  have hok := h.calls _ (List.mem_of_getElem? hi)
  cases control with
  | body c b => exact h.body hi hr
  | back => exact h.back hi hr
  | throwing e => exact h.unwind hi hcontained hr
  | awaitSuspend p t =>
    simp only [Call.run] at hr
    split at hr
    · rename_i r hres
      cases hr
      have htok : 0 < Call.tokens t ⟨.awaitSuspend p t, stack⟩ := by
        simp only [Call.tokens, Control.tokens, ite_true]
        omega
      obtain ⟨-, -, hruns⟩ := h.owing hi htok
      have hout := ((h.coroutines t).kept r hres).resolve_right fun hne => hne hruns
      exact h.move hi (fun q => rfl) (fun q => rfl) ⟨hok.stack, hok.owes, hout, hok.control⟩
    · rename_i hnone
      cases hr
      exact h.register hi hnone
  | callback t p r inline =>
    change w.shared.callback isStd t p r inline stack = some (s', call') at hr
    rcases h.callback hi with ⟨e, rfl, he, heq⟩ | ⟨k, g, inside, hk, hheard, heq⟩
    · rw [heq] at hr
      cases hr
      exact h.logged hi (.inl ⟨e, rfl, he, rfl⟩) id
    · rw [heq] at hr
      cases hr
      exact h.deliver hi hk hheard g inside

theorem Coroutines.Inv.step {isStd : E → Bool} {w w' : Coroutines V E} {a : Action V E}
    (h : w.Inv isStd) (hcontained : w.Contained a) (hstep : w.step isStd a = some w') :
    w.Goes isStd w' := by
  have hlast : (w.calls ++ [(⟨.back, []⟩ : Call V E)])[w.calls.length]? = some ⟨.back, []⟩ :=
    List.getElem?_concat_length ..
  have hset : ∀ call : Call V E, (w.calls ++ [(⟨.back, []⟩ : Call V E)]).set w.calls.length call =
      w.calls ++ [call] := by
    intro call
    rw [List.set_append_right _ _ (Nat.le_refl _), Nat.sub_self, List.set_cons_zero]
  cases a with
  | start kind executer b =>
    cases hstep
    have hnew : Coroutines.Goes isStd (w.enter ⟨.back, []⟩)
        ⟨w.shared.create kind (executer.initialExecute w.shared.next b).1,
          (w.calls ++ [(⟨.back, []⟩ : Call V E)]).set w.calls.length
            ⟨(executer.initialExecute w.shared.next b).2, []⟩⟩ := by
      refine h.idle.create kind _ hlast (fun p => ?_) (fun t => ?_) fun hg => ?_
      · simp only [Call.lives, executer.initialExecute_lives kind, List.map_nil, List.sum_nil,
          Nat.add_zero]
        exact (Nat.zero_add _).symm
      · simp only [Call.tokens, executer.initialExecute_tokens]
        rfl
      · exact .of_settled nofun nofun (by rw [executer.initialExecute_owes]; exact nofun)
          (executer.initialExecute_ok _ _ nofun)
    rw [hset] at hnew
    exact ⟨hnew.inv, hnew.grows⟩
  | resume c r =>
    simp only [Coroutines.step] at hstep
    split at hstep
    · rename_i k hk
      cases hstep
      have hx := h.coroutines c
      have hgrow := Shared.Grows.modify (s := w.shared) (c := c)
        (f := fun x => { x with status := .active }) (fun _ hr => ⟨hr, rfl⟩) id
      have hnew : Coroutines.Goes isStd (w.enter ⟨.back, []⟩) ⟨w.shared.setStatus c .active,
          (w.calls ++ [(⟨.back, []⟩ : Call V E)]).set w.calls.length ⟨.body c (k r), []⟩⟩ := by
        refine h.idle.modify hlast (fun p => ?_) (fun t => rfl) hgrow rfl
          (.inr fun t k' hk' => ?_) ⟨nofun, nofun, nofun⟩ (fun p hp => .inl hp)
          { hx with ended := fun hout => ?_ } (h.lt_next fun hnone => ?_)
        · simp only [World.enter, Call.lives, Control.lives, Coroutine.actives, hk, List.map_nil,
            List.sum_nil, ite_self]
          omega
        · exact absurd (hk.symm.trans hk') nofun
        · rcases hx.ended hout with hst | hst <;> exact absurd (hk.symm.trans hst) nofun
        · rw [hnone] at hk
          cases hk
      rw [hset] at hnew
      exact ⟨hnew.inv, hnew.grows⟩
    · cases hstep
  | step i =>
    obtain ⟨call, s', call', hi, hr, rfl⟩ := advance_cases hstep
    exact h.run hi (hcontained call hi) hr

theorem Coroutines.init_inv (isStd : E → Bool) :
    (Coroutines.init : Coroutines V E).Inv isStd where
  live _ := rfl
  owed _ := rfl
  calls := nofun
  registered := nofun
  coroutines _ := { Coroutine.new_ok isStd .value .done with }
  fresh _ _ := rfl

/-! ## Parents -/

theorem Shared.Settled.tokens {s : Shared V E} {stack : List (Return V E)} (h : s.Settled stack)
    (t : ℕ) : (stack.map (Return.tokens t)).sum = 0 := by
  refine List.sum_eq_zero_iff_forall_eq_nat.mpr fun x hx => ?_
  obtain ⟨ret, hret, rfl⟩ := List.mem_map.mp hx
  cases ret with
  | calling c n k => rfl
  | notifyAllCbs c r cbs handler =>
    simp only [Return.tokens, (h c r cbs handler hret).1, List.length_nil, ite_self]
  | awaitSuspend t p k => rfl

theorem Call.Ok.owing {isStd : E → Bool} {s : Shared V E} {call : Call V E} {t : ℕ}
    (h : call.Ok isStd s) (ht : 0 < call.tokens t) :
    (∃ p, call.control = .awaitSuspend p t) ∨
    (∃ p r inline, call.control = .callback t p r inline) ∨
    ∃ p r cbs handler stack, call = ⟨.back, .notifyAllCbs t r (p :: cbs) handler :: stack⟩ := by
  obtain ⟨control, stack⟩ := call
  unfold Call.tokens at ht
  cases control with
  | body c b =>
    rw [Shared.Settled.tokens h.control] at ht
    exact absurd ht (Nat.lt_irrefl 0)
  | throwing e =>
    rw [h.control.2.tokens] at ht
    exact absurd ht (Nat.lt_irrefl 0)
  | awaitSuspend p t' =>
    rw [Shared.Settled.tokens h.control] at ht
    simp only [Control.tokens] at ht
    split at ht
    · rename_i htt
      exact .inl ⟨p, by rw [htt]⟩
    · exact absurd ht (Nat.lt_irrefl 0)
  | callback t' p r inline =>
    have hzero : (stack.map (Return.tokens t)).sum = 0 := by
      cases inline with
      | true => exact h.control.2.tokens t
      | false =>
        obtain ⟨-, handler, rest, rfl, hs⟩ := h.control
        simp only [List.map_cons, List.sum_cons, hs.tokens t, Return.tokens, List.length_nil,
          ite_self]
    rw [hzero] at ht
    simp only [Control.tokens] at ht
    split at ht
    · rename_i htt
      exact .inr (.inl ⟨p, r, inline, by rw [htt]⟩)
    · exact absurd ht (Nat.lt_irrefl 0)
  | back =>
    cases stack with
    | nil => exact absurd ht (Nat.lt_irrefl 0)
    | cons ret stack =>
      have hs : s.Settled stack := h.control
      simp only [Control.tokens, List.map_cons, List.sum_cons, hs.tokens t, Nat.zero_add,
        Nat.add_zero] at ht
      cases ret with
      | calling c n k => exact absurd ht (Nat.lt_irrefl 0)
      | awaitSuspend t' p k => exact absurd ht (Nat.lt_irrefl 0)
      | notifyAllCbs c r cbs handler =>
        simp only [Return.tokens] at ht
        split at ht
        · rename_i htc
          cases cbs with
          | nil => exact absurd ht (Nat.lt_irrefl 0)
          | cons p cbs => exact .inr (.inr ⟨p, r, cbs, handler, stack, by rw [htc]⟩)
        · exact absurd ht (Nat.lt_irrefl 0)

theorem Coroutines.step_run {isStd : E → Bool} {w : Coroutines V E} {i : ℕ} {call call' : Call V E}
    {s' : Shared V E} (hi : w.calls[i]? = some call)
    (hr : call.run isStd w.shared = some (s', call')) :
    w.step isStd (.step i) = some ⟨s', w.calls.set i call'⟩ := advance_eq hi hr

/-- Where nothing is thrown, nothing has to be contained. -/
theorem Coroutines.contained_of {w : Coroutines V E} {i : ℕ} {call : Call V E}
    (hi : w.calls[i]? = some call) (hcontrol : ∀ e, call.control ≠ .throwing e) :
    w.Contained (.step i) := by
  intro call' hi' e ret stack heq
  rw [hi, Option.some.injEq] at hi'
  rw [hi', heq] at hcontrol
  exact absurd rfl (hcontrol e)

theorem Coroutines.Inv.callback_resumes {isStd : E → Bool} {w : Coroutines V E} (h : w.Inv isStd)
    {i t p : ℕ} {r : Result V E} {inline : Bool} {stack : List (Return V E)}
    (hi : w.calls[i]? = some ⟨.callback t p r inline, stack⟩)
    (hheard : (w.shared.co t).Heard isStd r) :
    ∃ w', w.step isStd (.step i) = some w' ∧ (w'.shared.co t).resumptions = [r] := by
  obtain ⟨-, -, hruns⟩ := h.owing hi (Call.tokens_callback t p r inline stack)
  rcases h.callback hi with ⟨e, rfl, he, -⟩ | ⟨k, g, inside, -, -, heq⟩
  · have hfalse := (hheard e rfl).1
    rw [he] at hfalse
    cases hfalse
  · refine ⟨_, step_run hi heq, ?_⟩
    simp only [Shared.setStatus, Shared.modify_co, Coroutine.resumptions, ite_true]
    split <;> rw [hruns] <;> rfl

theorem Coroutines.Inv.resumes_next {isStd : E → Bool} {w : Coroutines V E} (h : w.Inv isStd)
    {i t p : ℕ} {r r' : Result V E} {inline : Bool} {call : Call V E} {stack : List (Return V E)}
    (hi : w.calls[i]? = some call) (hcontrol : ∀ e, call.control ≠ .throwing e)
    (hrun : call.run isStd w.shared = some (w.shared, ⟨.callback t p r' inline, stack⟩))
    (hout : (w.shared.co t).outcome = some r) (hheard : (w.shared.co t).Heard isStd r) :
    w.Resumes isStd t r := by
  have hcontained := contained_of hi hcontrol
  have hnext := (h.run hi (hcontained call hi) hrun).inv
  have hi' := List.getElem?_set_self (a := ⟨.callback t p r' inline, stack⟩)
    (List.getElem?_eq_some_iff.mp hi).1
  have hok := hnext.calls _ (List.mem_of_getElem? hi')
  cases hout.symm.trans hok.callback.2.1
  obtain ⟨w', hstep, hw'⟩ := hnext.callback_resumes hi' hheard
  refine ⟨i, 2, w', by omega, ⟨hcontained, fun u hu => ⟨?_, fun _ _ => trivial⟩⟩, ?_, hw'⟩
  · rw [step_run hi hrun, Option.some.injEq] at hu
    exact hu ▸ contained_of hi' nofun
  · simp only [List.replicate, exec, step_run hi hrun, hstep, Option.bind_some]

theorem Coroutines.Inv.runs {isStd : E → Bool} {w : Coroutines V E} (h : w.Inv isStd) {t : ℕ}
    {r : Result V E} (hout : (w.shared.co t).outcome = some r) :
    (w.shared.co t).runs = [] ∨ (w.shared.co t).runs = [some r] ∨
      (w.shared.co t).runs = [none] ∧ ∃ e, r = .error e ∧ isStd e = true := by
  have hx := h.coroutines t
  have howed := h.owed t
  have hone := (w.shared.co t).awaits_le_one
  cases hruns : (w.shared.co t).runs with
  | nil => exact .inl rfl
  | cons o rest =>
    rw [hruns, List.length_cons] at howed
    have hrest : rest = [] := List.eq_nil_of_length_eq_zero (by omega)
    subst hrest
    have hmem : o ∈ (w.shared.co t).runs := by
      rw [hruns]
      exact List.mem_singleton_self o
    cases o with
    | some r' =>
      cases hout.symm.trans (hx.runs r' hmem).1
      exact .inr (.inl rfl)
    | none =>
      obtain ⟨e, he, hstd⟩ := hx.lost hmem
      cases hout.symm.trans he
      exact .inr (.inr ⟨rfl, e, rfl, hstd⟩)

theorem Coroutines.Inv.resumes {isStd : E → Bool} {w : Coroutines V E} (h : w.Inv isStd) {t p : ℕ}
    {r : Result V E} (htask : (w.shared.co t).task = .awaited p)
    (hout : (w.shared.co t).outcome = some r) (hheard : (w.shared.co t).Heard isStd r) :
    w.Resumes isStd t r := by
  have hx := h.coroutines t
  rcases h.runs hout with hruns | hruns | ⟨-, e, rfl, hstd⟩
  · -- nothing was run yet and nothing waits in the promise, so a call owes the callback
    have hwait : (w.shared.co t).waiting isStd = 0 := by
      cases r with
      | ok v => exact Coroutine.waiting_notified hout nofun
      | error e =>
        obtain ⟨hstd, hearly⟩ := hheard e rfl
        simp only [Coroutine.waiting, hout, hstd, Bool.false_eq_true, ite_false,
          (hx.early e hout hstd).mp hearly, List.length_nil]
    have howed := h.owed t
    simp only [hwait, hruns, List.length_nil, Coroutine.awaits, htask] at howed
    obtain ⟨i, call, hi, htok⟩ := exists_of_sum_pos (f := Call.tokens t) (l := w.calls) (by omega)
    have hok := h.calls _ (List.mem_of_getElem? hi)
    rcases hok.owing htok with ⟨p', hc⟩ | ⟨p', r', inline, hc⟩ | ⟨p', r', cbs, handler, stack, rfl⟩
    · obtain ⟨control, stack⟩ := call
      cases hc
      have hres : ∃ r', (w.shared.co t).result = some r' := by
        refine Option.ne_none_iff_exists'.mp fun hnone => ?_
        rw [hx.result.mp hnone] at hout
        cases hout
      obtain ⟨r', hres⟩ := hres
      have hrun : Call.run isStd w.shared ⟨.awaitSuspend p' t, stack⟩ =
          some (w.shared, ⟨.callback t p' r' true, stack⟩) := by
        simp only [Call.run, hres]
      exact h.resumes_next hi (fun e he => by cases he) hrun hout hheard
    · obtain ⟨control, stack⟩ := call
      cases hc
      cases hout.symm.trans hok.callback.2.1
      obtain ⟨w', hstep, hw'⟩ := h.callback_resumes hi hheard
      have hcontained : w.Contained (.step i) := contained_of hi fun e he => by cases he
      refine ⟨i, 1, w', by omega, ⟨hcontained, fun _ _ => trivial⟩, ?_, hw'⟩
      simp only [List.replicate, exec, hstep, Option.bind_some]
    · exact h.resumes_next hi (fun e he => by cases he) rfl hout hheard
  · exact ⟨0, 0, w, by omega, trivial, rfl, by rw [Coroutine.resumptions, hruns]; rfl⟩
  · have hfalse := (hheard e rfl).1
    rw [hstd] at hfalse
    cases hfalse

theorem Coroutines.Inv.heard {isStd : E → Bool} {w : Coroutines V E} (h : w.Inv isStd) {t : ℕ}
    {r : Result V E} (hout : (w.shared.co t).outcome = some r) (hres : w.Resumes isStd t r) :
    (w.shared.co t).Heard isStd r := by
  obtain ⟨i, n, w', -, hguard, hexec, hw'⟩ := hres
  have hgo : w.Goes isStd w' := @exec_guarded _ _ (Coroutines.step isStd) Contained (w.Goes isStd)
    (fun s a s' hs hcontained hstep => hs.trans (hs.inv.step hcontained hstep))
    _ _ _ ⟨h, fun _ _ hr => ⟨hr, rfl⟩, fun _ => id⟩ hguard hexec
  have hmem : some r ∈ (w'.shared.co t).runs := by
    have hr : r ∈ (w'.shared.co t).resumptions := hw' ▸ List.mem_singleton_self r
    obtain ⟨o, ho, rfl⟩ := List.mem_filterMap.mp hr
    exact ho
  intro e he
  obtain ⟨hstd, hearly⟩ := ((hgo.inv.coroutines t).runs r hmem).2 e he
  exact ⟨hstd, (hgo.grows.outcome t r hout).2 ▸ hearly⟩

theorem Coroutines.Inv.unresumed {isStd : E → Bool} {w : Coroutines V E} (h : w.Inv isStd) {t : ℕ}
    (hout : (w.shared.co t).outcome = none) : (w.shared.co t).resumptions = [] := by
  rw [Coroutine.resumptions, (h.coroutines t).unheard hout]
  rfl

theorem Coroutines.Inv.resumed_once {isStd : E → Bool} {w : Coroutines V E} (h : w.Inv isStd)
    {t : ℕ} {r : Result V E} (hout : (w.shared.co t).outcome = some r) :
    (w.shared.co t).resumptions = [] ∨ (w.shared.co t).resumptions = [r] := by
  rcases h.runs hout with hruns | hruns | ⟨hruns, -⟩
  · exact .inl (by rw [Coroutine.resumptions, hruns]; rfl)
  · exact .inr (by rw [Coroutine.resumptions, hruns]; rfl)
  · exact .inl (by rw [Coroutine.resumptions, hruns]; rfl)

theorem Coroutines.inv {isStd : E → Bool} {as : List (Action V E)} {w : Coroutines V E}
    (hrun : exec (Coroutines.step isStd) init as = some w)
    (hguard : Guarded (Coroutines.step isStd) Contained init as) : w.Inv isStd :=
  exec_guarded (fun _ _ _ hs hcontained hstep => (Inv.step hs hcontained hstep).inv)
    (init_inv isStd) hguard hrun

/-- In every state of every run in which no exception makes an ended coroutine go on: each parent
is resumed once, with the end of its child, exactly if no awaited child has ended with an exception
that its parent does not hear of. -/
theorem awaited_child_resumes_parent {isStd : E → Bool} {as : List (Action V E)}
    {w : Coroutines V E} (hrun : exec (Coroutines.step isStd) Coroutines.init as = some w)
    (hguard : Guarded (Coroutines.step isStd) Coroutines.Contained Coroutines.init as) :
    w.ParentsResumed isStd ↔ ∀ t p r, (w.shared.co t).task = .awaited p →
      (w.shared.co t).outcome = some r → (w.shared.co t).Heard isStd r := by
  have h := Coroutines.inv hrun hguard
  constructor
  · intro hall t p r htask hout
    exact h.heard hout ((hall t p htask).2 r hout).2
  · intro hheard t p htask
    refine ⟨h.unresumed, fun r hout => ⟨h.resumed_once hout, ?_⟩⟩
    exact h.resumes htask hout (hheard t p r htask hout)

theorem Coroutines.Inv.contained {isStd : E → Bool} {w : Coroutines V E} (h : w.Inv isStd)
    (hstd : ∀ e, isStd e = true) (a : Action V E) : w.Contained a := by
  cases a with
  | start kind executer b => trivial
  | resume c r => trivial
  | step i =>
    rintro call hi e ret stack rfl
    have hfalse := (h.calls _ (List.mem_of_getElem? hi)).control.1
    rw [hstd e] at hfalse
    cases hfalse

/-- A program that throws `std::exception`s only never makes an ended coroutine go on. -/
theorem Coroutines.guarded_of_std {isStd : E → Bool} (hstd : ∀ e, isStd e = true)
    (as : List (Action V E)) : Guarded (Coroutines.step isStd) Contained init as := by
  have hiff := @guarded_iff (Coroutines V E) (Action V E) (Coroutines.step isStd)
    (fun _ _ => True) Contained (fun _ _ => True) (Inv isStd)
    (fun w a h _ => iff_true_intro (h.contained hstd a))
    (fun w a w' h _ hcontained hstep => (h.step hcontained hstep).inv) init as
  exact (hiff (init_inv isStd) (guarded_true _ _ as)).mpr (guarded_true _ _ as)

end

def ended (v : ℕ) : Body ℕ String := .coReturn v fun _ => none

def parent (kind : Kind) (child : Body ℕ String) (k : Result ℕ String → Body ℕ String) :
    Body ℕ String :=
  .call kind .base child fun
    | .error e => .throw e
    | .ok t => .coAwait t k

def passOn : Result ℕ String → Body ℕ String
  | .error e => .throw e
  | .ok v => ended (v.getD 0)

def startAndRun (kind : Kind) (child : Body ℕ String) (n : ℕ) : List (Action ℕ String) :=
  .start .value .base (parent kind child passOn) :: List.replicate n (.step 0)

def endLater (kind : Kind) (child : Body ℕ String) (n : ℕ) : List (Action ℕ String) :=
  startAndRun kind (.suspend fun _ => child) 5 ++ .resume 1 (.ok 0) :: List.replicate n (.step 1)

theorem returned_value_resumes_parent :
    ∃ w : Coroutines ℕ String,
      exec (Coroutines.step fun _ => true) Coroutines.init (endLater .value (ended 5) 6) = some w ∧
      (w.shared.co 1).task = .awaited 0 ∧ (w.shared.co 1).resumptions = [.ok (some 5)] ∧
      w.ParentsResumed fun _ => true := by
  have hall : ∀ w : Coroutines ℕ String,
      exec (Coroutines.step fun _ => true) Coroutines.init (endLater .value (ended 5) 6) = some w →
      w.shared.next = 2 → (∀ t < 2, (w.shared.co t).outcome = some (.ok (some 5))) →
      w.ParentsResumed fun _ => true := by
    intro w hw hnext hout
    have hguard := Coroutines.guarded_of_std (fun _ => rfl) (endLater .value (ended 5) 6)
    have h := Coroutines.inv hw hguard
    refine (awaited_child_resumes_parent hw hguard).mpr ?_
    rintro t p r - ht e rfl
    by_cases hlt : t < 2
    · rw [hout t hlt] at ht
      cases ht
    · rw [h.fresh t (by omega)] at ht
      cases ht
  refine ⟨_, rfl, rfl, rfl, hall _ rfl rfl fun t ht => ?_⟩
  match t, ht with
  | 0, _ => rfl
  | 1, _ => rfl

/-- The child ends with a `std::exception` before the parent registers, or after it: no call is
left, and the parent has not been resumed. -/
theorem thrown_exception_strands_parent :
    (∃ w : Coroutines ℕ String, exec (Coroutines.step fun _ => true) Coroutines.init
        (startAndRun .value (.throw "boom") 7) = some w ∧
      w.calls = [⟨.back, []⟩] ∧ (w.shared.co 0).outcome = none ∧ ¬ w.ParentsResumed fun _ => true) ∧
    ∃ w : Coroutines ℕ String, exec (Coroutines.step fun _ => true) Coroutines.init
        (endLater .void (.throw "boom") 4) = some w ∧
      w.calls = [⟨.back, []⟩, ⟨.back, []⟩] ∧ (w.shared.co 0).outcome = none ∧
      ¬ w.ParentsResumed fun _ => true := by
  have hstranded : ∀ as (w : Coroutines ℕ String),
      exec (Coroutines.step fun _ => true) Coroutines.init as = some w →
      (w.shared.co 1).task = .awaited 0 → (w.shared.co 1).outcome = some (.error "boom") →
      ¬ w.ParentsResumed fun _ => true := by
    intro as w hexec htask hout hall
    have h := Coroutines.inv hexec (Coroutines.guarded_of_std (fun _ => rfl) as)
    have hfalse := (h.heard hout ((hall 1 0 htask).2 _ hout).2 "boom" rfl).1
    cases hfalse
  refine ⟨⟨_, rfl, rfl, rfl, ?_⟩, ⟨_, rfl, rfl, rfl, ?_⟩⟩
  · exact hstranded (startAndRun .value (.throw "boom") 7) _ rfl rfl rfl
  · exact hstranded (endLater .void (.throw "boom") 4) _ rfl rfl rfl

/-- The child has ended before the parent registers, and the parent then throws what is no
`std::exception`. It comes out of `await_suspend`, and the parent goes on behind its `co_await`
again. -/
theorem escaped_exception_resumes_parent_twice :
    ∃ w : Coroutines ℕ String, exec (Coroutines.step fun _ => false) Coroutines.init
        (.start .value .base (parent .value (ended 5) fun
          | .ok _ => .throw "5"
          | .error _ => ended 1) :: List.replicate 11 (.step 0)) = some w ∧
      (w.shared.co 1).task = .awaited 0 ∧ (w.shared.co 1).outcome = some (.ok (some 5)) ∧
      (w.shared.co 1).resumptions = [.ok (some 5), .error "5"] ∧
      ¬ w.ParentsResumed fun _ => false := by
  refine ⟨_, rfl, rfl, rfl, rfl, fun hall => ?_⟩
  rcases ((hall 1 0 rfl).2 _ rfl).1 with hnone | hone
  · cases hnone
  · cases hone

end MSylar.Coro.Await
