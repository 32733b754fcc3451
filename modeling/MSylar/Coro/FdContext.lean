import Mathlib.Data.Int.Notation
import Mathlib.Data.List.Basic

/-!
# Fd contexts and their registered tasks (fdContext.cc:11-81, 198-284)

An `FdContext` holds the events a descriptor is registered for and one handler
for each direction. Handlers (`TaskCoro20`) have the type `κ`; `none` is a task
of type UNKNOWN, which a moved-from or reset task has.
-/

namespace MSylar.Coro
variable {κ : Type*}

/-- `FdContext::Event`, a mask over `EPOLLIN` and `EPOLLOUT`. -/
abbrev Event := BitVec 32

def Event.none : Event := 0x0
def Event.read : Event := 0x1
def Event.write : Event := 0x4

structure FdContext (κ : Type*) where
  fd : ℤ
  event : Event
  cbRead : Option κ
  cbWrite : Option κ
  deriving DecidableEq

namespace FdContext

def new (fd : ℤ) : FdContext κ := ⟨fd, Event.none, .none, .none⟩

def hasEvent (c : FdContext κ) : Bool := c.event != Event.none

/-- A mask with both bits moves the handler to the read side first, so the write side
gets what the move left behind. -/
def addEvent (c : FdContext κ) (event : Event) (task : Option κ) : FdContext κ :=
  let merged := { c with event := c.event ||| event }
  let (stored, left) :=
    if event &&& Event.read ≠ 0 then ({ merged with cbRead := task }, .none) else (merged, task)
  if event &&& Event.write ≠ 0 then { stored with cbWrite := left } else stored

def delEvent (c : FdContext κ) (event : Event) : FdContext κ :=
  let kept := c.event &&& ~~~event
  { c with event := kept
           cbRead := if kept &&& Event.read = 0 then .none else c.cbRead
           cbWrite := if kept &&& Event.write = 0 then .none else c.cbWrite }

/-- The handlers that `trigger` starts, in order; the context itself does not change. -/
def trigger (c : FdContext κ) (event : Event) : List κ :=
  let merge := c.event &&& event
  (if merge &&& Event.read ≠ 0 then c.cbRead.toList else []) ++
    (if merge &&& Event.write ≠ 0 then c.cbWrite.toList else [])

def reset (c : FdContext κ) : FdContext κ := .new c.fd

end FdContext

inductive RegistedTask (κ : Type*) where
  | del (event : Event)
  | add (event : Event) (task : Option κ)
  | trigger (event : Event)
  | close (event : Event)
  | closeNoCloseFd (event : Event)
  deriving DecidableEq

def RegistedTask.run (c : FdContext κ) : RegistedTask κ → FdContext κ × List κ
  | .del event => (c.delEvent event, [])
  | .add event task => (c.addEvent event task, [])
  | .trigger event => (c, c.trigger event)
  | .close _ => (c.reset, [])
  | .closeNoCloseFd _ => (c.reset, [])

theorem RegistedTask.run_fd (c : FdContext κ) (task : RegistedTask κ) :
    (task.run c).1.fd = c.fd := by
  cases task with
  | add event task =>
    simp only [RegistedTask.run, FdContext.addEvent]
    split_ifs <;> rfl
  | del event => rfl
  | trigger event => rfl
  | close event => rfl
  | closeNoCloseFd event => rfl

/-! ### The bits of a mask -/

inductive Dir where
  | read
  | write
  deriving DecidableEq

def Dir.event : Dir → Event
  | .read => Event.read
  | .write => Event.write

def has (event : Event) (d : Dir) : Prop := event &&& d.event ≠ 0

instance (event : Event) (d : Dir) : Decidable (has event d) :=
  inferInstanceAs (Decidable (event &&& d.event ≠ 0))

def Dir.bit : Dir → ℕ
  | .read => 0
  | .write => 2

theorem has_iff (event : Event) (d : Dir) : has event d ↔ event.getLsbD d.bit = true := by
  have hpow : d.event = BitVec.twoPow 32 d.bit := by cases d <;> rfl
  have hne : BitVec.twoPow 32 d.bit ≠ 0 := by cases d <;> decide
  rw [has, hpow, BitVec.and_twoPow]
  split_ifs with hbit
  · exact iff_of_true hne hbit
  · exact iff_of_false (fun hn => hn rfl) hbit

theorem has_or (a b : Event) (d : Dir) : has (a ||| b) d ↔ has a d ∨ has b d := by
  simp only [has_iff, BitVec.getLsbD_or, Bool.or_eq_true]

theorem has_and (a b : Event) (d : Dir) : has (a &&& b) d ↔ has a d ∧ has b d := by
  simp only [has_iff, BitVec.getLsbD_and, Bool.and_eq_true]

theorem has_and_not (a b : Event) (d : Dir) : has (a &&& ~~~b) d ↔ has a d ∧ ¬ has b d := by
  have hlt : d.bit < 32 := by cases d <;> decide
  simp only [has_iff, BitVec.getLsbD_and, BitVec.getLsbD_not, hlt, decide_true, Bool.true_and,
    Bool.and_eq_true, Bool.not_eq_true', Bool.not_eq_true]

/-- The values for the bits of the mask, first READ. -/
def select {β : Type*} (event : Event) (f : Dir → Option β) : List β :=
  [Dir.read, Dir.write].flatMap fun d => if has event d then (f d).toList else []

namespace FdContext

def handler (c : FdContext κ) : Dir → Option κ
  | .read => c.cbRead
  | .write => c.cbWrite

/-- What a trigger of `d` starts. -/
def serving (c : FdContext κ) (d : Dir) : Option κ :=
  if has c.event d then handler c d else none

theorem trigger_eq (c : FdContext κ) (event : Event) :
    c.trigger event = select event (serving c) := by
  have hbranch : ∀ (d : Dir) (cb : Option κ),
      (if (c.event &&& event) &&& d.event ≠ 0 then cb.toList else []) =
        if has event d then (if has c.event d then cb else none).toList else [] := by
    intro d cb
    have hand : (c.event &&& event) &&& d.event ≠ 0 ↔ has c.event d ∧ has event d :=
      has_and c.event event d
    by_cases hreg : has c.event d <;> by_cases hev : has event d <;>
      simp only [hand, hreg, hev, and_true, and_false, ite_true, ite_false, Option.toList_none]
  rw [select, List.flatMap_cons, List.flatMap_cons, List.flatMap_nil, List.append_nil]
  exact congrArg₂ (· ++ ·) (hbranch .read c.cbRead) (hbranch .write c.cbWrite)

theorem addEvent_eq (c : FdContext κ) (event : Event) (task : Option κ) :
    c.addEvent event task =
      { fd := c.fd, event := c.event ||| event
        cbRead := if has event .read then task else c.cbRead
        cbWrite := if has event .write then (if has event .read then none else task)
          else c.cbWrite } := by
  have hread : has event .read = (event &&& Event.read ≠ 0) := rfl
  have hwrite : has event .write = (event &&& Event.write ≠ 0) := rfl
  by_cases hr : has event .read <;> by_cases hw : has event .write
  all_goals
    rw [FdContext.addEvent]
    simp only [hr, hw, ← hread, ← hwrite, ite_true, ite_false]

end FdContext
end MSylar.Coro
