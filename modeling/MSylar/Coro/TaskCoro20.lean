import Mathlib.Data.List.Nodup
import Mathlib.Data.Nat.Basic
import MSylar.Coro.FdContext
import MSylar.Lib.Execution

/-!
# The tasks of an fd context (fiber.h:33-272, fdContext.cc:11-81, mysql.cc:11-24)

A `TaskCoro20` is a function or a coroutine that has been called and waits in its first frame. It is
moved into a slot of an `FdContext`, and a trigger starts clones of it. The slots of `Coro.FdContext`
hold what such a clone runs.
-/

namespace MSylar.Coro.Fiber
open MSylar.Execution
variable {κ : Type*}

inductive TaskType where
  | unknown
  | coro
  | func
  deriving DecidableEq

/-- The frame that a call of the coroutine `body` has made. -/
structure Handle (κ : Type*) where
  id : ℕ
  body : κ
  deriving DecidableEq

structure TaskCoro20 (κ : Type*) where
  funcTask : Option κ
  coroTask : Option κ
  task : Option (Handle κ)
  isInited : Bool
  finished : Bool
  type : TaskType
  callable : type = .coro → coroTask.isSome

namespace TaskCoro20

def empty : TaskCoro20 κ := ⟨none, none, none, false, false, .unknown, nofun⟩

def createFunc (task : Option κ) : TaskCoro20 κ := ⟨task, none, none, true, false, .func, nofun⟩

/-- `frames` is the number of frames that have been made. -/
def createCoro (task : κ) (frames : ℕ) : TaskCoro20 κ × ℕ :=
  (⟨none, some task, some ⟨frames, task⟩, true, false, .coro, fun _ => rfl⟩, frames + 1)

def clone (t : TaskCoro20 κ) (frames : ℕ) : TaskCoro20 κ × ℕ :=
  match h : t.type with
  | .func => (createFunc t.funcTask, frames)
  | .coro => createCoro (t.coroTask.get (t.callable h)) frames
  | .unknown => (empty, frames)

/-- The assignment from `std::move(other)` takes every member of `other`. The functions and flags of
`other` are copied, so only its frame and its type change. -/
def assign (_self other : TaskCoro20 κ) : TaskCoro20 κ × TaskCoro20 κ :=
  (other, { other with task := none, type := .unknown, callable := nofun })

def reset (t : TaskCoro20 κ) : TaskCoro20 κ :=
  { t with funcTask := none, coroTask := none, isInited := false, type := .unknown
           callable := nofun }

def isLegal (t : TaskCoro20 κ) : Bool :=
  let taskState := match t.type with
    | .coro => t.task.isSome
    | .func => t.funcTask.isSome
    | .unknown => false
  t.isInited && taskState

end TaskCoro20

/-- What `start` runs. -/
inductive Started (κ : Type*) where
  | coro (handle : Handle κ)
  | func (f : κ)
  deriving DecidableEq

def TaskCoro20.start (t : TaskCoro20 κ) : List (Started κ) :=
  match t.type with
  | .coro => t.task.toList.map .coro
  | .func => t.funcTask.toList.map .func
  | .unknown => []

structure FdContext (κ : Type*) where
  fd : ℤ
  event : Event
  cbRead : TaskCoro20 κ
  cbWrite : TaskCoro20 κ

namespace FdContext

def new (fd : ℤ) : FdContext κ := ⟨fd, Event.none, .empty, .empty⟩

def addEvent (c : FdContext κ) (event : Event) (task : TaskCoro20 κ) : FdContext κ :=
  let merged := { c with event := c.event ||| event }
  let (stored, left) :=
    if event &&& Event.read ≠ 0 then
      let (cb, moved) := merged.cbRead.assign task
      ({ merged with cbRead := cb }, moved)
    else (merged, task)
  if event &&& Event.write ≠ 0 then { stored with cbWrite := (stored.cbWrite.assign left).1 }
  else stored

def delEvent (c : FdContext κ) (event : Event) : FdContext κ :=
  let kept := c.event &&& ~~~event
  { c with event := kept
           cbRead := if kept &&& Event.read = 0 then c.cbRead.reset else c.cbRead
           cbWrite := if kept &&& Event.write = 0 then c.cbWrite.reset else c.cbWrite }

/-- One branch of `trigger`. -/
def fire (cb : TaskCoro20 κ) (frames : ℕ) : List (Started κ) × ℕ :=
  let (t, frames) := cb.clone frames
  (if t.isLegal then t.start else [], frames)

def trigger (c : FdContext κ) (event : Event) (frames : ℕ) : List (Started κ) × ℕ :=
  let merge := c.event &&& event
  let (reads, frames) := if merge &&& Event.read ≠ 0 then fire c.cbRead frames else ([], frames)
  let (writes, frames) := if merge &&& Event.write ≠ 0 then fire c.cbWrite frames else ([], frames)
  (reads ++ writes, frames)

end FdContext

/-! ### What a clone runs -/

inductive Body (κ : Type*) where
  | coro (f : κ)
  | func (f : κ)
  deriving DecidableEq

def Started.body : Started κ → Body κ
  | .coro h => .coro h.body
  | .func f => .func f

def Started.frame : Started κ → Option ℕ
  | .coro h => some h.id
  | .func _ => none

def TaskCoro20.body (t : TaskCoro20 κ) : Option (Body κ) :=
  match t.type with
  | .coro => t.coroTask.map .coro
  | .func => t.funcTask.map .func
  | .unknown => none

/-- The frames of `started` are new ones, each of its own. -/
def Fresh (started : List (Started κ)) (frames next : ℕ) : Prop :=
  (started.filterMap Started.frame).Nodup ∧
    ∀ f ∈ started.filterMap Started.frame, frames ≤ f ∧ f < next

theorem Fresh.nil {frames next : ℕ} : Fresh ([] : List (Started κ)) frames next :=
  ⟨List.nodup_nil, nofun⟩

theorem Fresh.append {as bs : List (Started κ)} {m n k : ℕ} (ha : Fresh as m n) (hb : Fresh bs n k)
    (hmn : m ≤ n) (hnk : n ≤ k) : Fresh (as ++ bs) m k := by
  simp only [Fresh, List.filterMap_append, List.nodup_append, List.mem_append]
  refine ⟨⟨ha.1, hb.1, fun f hf g hg => ?_⟩, ?_⟩
  · have hlt := (ha.2 f hf).2
    have hle := (hb.2 g hg).1
    omega
  · rintro f (hf | hf)
    · have hin := ha.2 f hf
      omega
    · have hin := hb.2 f hf
      omega

def FdContext.slots (c : FdContext κ) : Coro.FdContext (Body κ) :=
  ⟨c.fd, c.event, c.cbRead.body, c.cbWrite.body⟩

inductive Op (κ : Type*) where
  | addEvent (event : Event) (task : TaskCoro20 κ)
  | delEvent (event : Event)
  | trigger (event : Event)

/-- `registered`: for each bit the task that was last added for it and not deleted. -/
structure Registry (κ : Type*) where
  context : FdContext κ
  frames : ℕ
  registered : Dir → Option (TaskCoro20 κ)

def FdContext.cb (c : FdContext κ) : Dir → TaskCoro20 κ
  | .read => c.cbRead
  | .write => c.cbWrite

/-- Of a state that is given, what its own triggers start is registered. -/
def Registry.init (c : FdContext κ) (frames : ℕ) : Registry κ where
  context := c
  frames := frames
  registered d := if has c.event d ∧ (c.cb d).body.isSome then some (c.cb d) else none

def Registry.step (s : Registry κ) : Op κ → Option (Registry κ)
  | .addEvent event task => some
      { s with context := s.context.addEvent event task
               registered := fun d => if has event d then some task else s.registered d }
  | .delEvent event => some
      { s with context := s.context.delEvent event
               registered := fun d => if has event d then none else s.registered d }
  | .trigger event => some { s with frames := (s.context.trigger event s.frames).2 }

/-- The tasks that a trigger is to start. -/
def Registry.due (s : Registry κ) (event : Event) : List (TaskCoro20 κ) := select event s.registered

/-- The mask has one of the bits and the task can be started, or it has none of them. -/
def single : Op κ → Prop
  | .addEvent event task => ∀ d, has event d → task.body.isSome ∧ ∀ d', has event d' → d' = d
  | _ => True

/-- The slot of `d` runs what is registered for `d`. -/
def Registry.Serves (s : Registry κ) (d : Dir) : Prop :=
  (s.context.slots.serving d).map some = (s.registered d).map TaskCoro20.body

/-- The mask that `MysqlAwaiter` registers for a status of the client library
(`MYSQL_WAIT_READ` is 1 and `MYSQL_WAIT_WRITE` is 2). -/
def MysqlAwaiter.event (status : BitVec 32) : Event :=
  let event := if status &&& 1 ≠ 0 then Event.none ||| Event.read else Event.none
  if status &&& 2 ≠ 0 then event ||| Event.write else event

end MSylar.Coro.Fiber
