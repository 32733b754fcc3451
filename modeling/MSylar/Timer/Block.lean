import MSylar.Lib.Multimap
import MSylar.Lib.Word

/-!
# Timer tasks and time blocks (timer_task.hpp, timer_block.cc)

A `TimerBlock` holds the tasks whose execute time lies in `[startTime, endTime)`,
ordered by execute time. Times are milliseconds of the steady clock.
-/

namespace MSylar.Timer
open MSylar.Word

/-- A `TimeTask` as the store sees it; `ref` stands for the address of the shared
object, so two tasks with equal times stay apart. The callbacks are not read by
the store. -/
structure TimeTask where
  ref : ℕ
  intrevalMs : ℕ
  executeMs : ℕ
  isCycle : Bool
  isCanceled : Bool := false
  deriving DecidableEq, Repr

def TimeTask.create (ref now ms : ℕ) (isCycle : Bool) : TimeTask :=
  { ref := ref, intrevalMs := ms, executeMs := add64 now ms, isCycle := isCycle }

/-- `TimeTask::next` (timer_task.cc:29-37). -/
def TimeTask.next (t : TimeTask) : TimeTask :=
  { t with executeMs := if t.isCycle then add64 t.executeMs t.intrevalMs else 0 }

def TimeTask.cancel (t : TimeTask) : TimeTask := { t with isCanceled := true }

structure TimerBlock where
  startTime : ℕ
  endTime : ℕ
  timeTasks : Multimap ℕ TimeTask
  taskCount : ℕ
  deriving DecidableEq

namespace TimerBlock

def new (start finish : ℕ) : TimerBlock := ⟨start, finish, .empty, 0⟩

/-- `TimerBlock::insert` (timer_block.cc:8-12). -/
def insert (b : TimerBlock) (task : TimeTask) : TimerBlock :=
  { b with taskCount := add64 b.taskCount 1
           timeTasks := b.timeTasks.insert task.executeMs task }

/-- `TimerBlock::getAndRemove` (timer_block.cc:15-26): the expired tasks and the
block without them. -/
def getAndRemove (b : TimerBlock) (timeMs : ℕ) : List TimeTask × TimerBlock :=
  let expired := b.timeTasks.upTo timeMs
  (expired.map Prod.snd,
    { b with taskCount := sub64 b.taskCount expired.length
             timeTasks := b.timeTasks.above timeMs })

def isEmpty (b : TimerBlock) : Bool := b.timeTasks.entries.isEmpty

def getNextExecuteTime (b : TimerBlock) : ℕ :=
  match b.timeTasks.entries with
  | [] => uint64Max
  | e :: _ => e.1

def tasks (b : TimerBlock) : List TimeTask := b.timeTasks.entries.map Prod.snd

/-- Every task is stored under its own execute time, inside the range of the block. -/
def Filed (b : TimerBlock) : Prop :=
  ∀ e ∈ b.timeTasks.entries, e.1 = e.2.executeMs ∧ b.startTime ≤ e.1 ∧ e.1 < b.endTime

theorem tasks_insert (b : TimerBlock) (task : TimeTask) :
    (b.insert task).tasks.Perm (task :: b.tasks) :=
  (b.timeTasks.insert_perm task.executeMs task).map Prod.snd

theorem filed_insert {b : TimerBlock} {task : TimeTask} (h : b.Filed)
    (hs : b.startTime ≤ task.executeMs) (he : task.executeMs < b.endTime) :
    (b.insert task).Filed := by
  intro e hmem
  rcases Multimap.mem_insert.mp hmem with rfl | hmem
  · exact ⟨rfl, hs, he⟩
  · exact h e hmem

theorem filed_getAndRemove {b : TimerBlock} (h : b.Filed) (timeMs : ℕ) :
    (b.getAndRemove timeMs).2.Filed := by
  intro e hmem
  change e ∈ (b.timeTasks.above timeMs).entries at hmem
  rw [Multimap.above_eq_filter] at hmem
  exact h e (List.mem_of_mem_filter hmem)

theorem getAndRemove_append (b : TimerBlock) (timeMs : ℕ) :
    (b.getAndRemove timeMs).1 ++ (b.getAndRemove timeMs).2.tasks = b.tasks := by
  simp only [getAndRemove, tasks, ← List.map_append, Multimap.upTo_append_above]

theorem getAndRemove_expired {b : TimerBlock} (h : b.Filed) (timeMs : ℕ) :
    (b.getAndRemove timeMs).1 = b.tasks.filter fun t => t.executeMs ≤ timeMs := by
  simp only [getAndRemove, tasks, Multimap.upTo_eq_filter, List.filter_map]
  congr 1
  refine List.filter_congr fun e he => ?_
  simp only [Function.comp_apply, (h e he).1]

theorem getAndRemove_rest {b : TimerBlock} (h : b.Filed) (timeMs : ℕ) :
    (b.getAndRemove timeMs).2.tasks = b.tasks.filter fun t => timeMs < t.executeMs := by
  simp only [getAndRemove, tasks, Multimap.above_eq_filter, List.filter_map]
  congr 1
  refine List.filter_congr fun e he => ?_
  simp only [Function.comp_apply, (h e he).1]

theorem Filed.mem_range {b : TimerBlock} (h : b.Filed) {t : TimeTask} (ht : t ∈ b.tasks) :
    b.startTime ≤ t.executeMs ∧ t.executeMs < b.endTime := by
  obtain ⟨e, he, rfl⟩ := List.mem_map.mp ht
  obtain ⟨hk, hs, hl⟩ := h e he
  exact ⟨hk ▸ hs, hk ▸ hl⟩

theorem getAndRemove_over {b : TimerBlock} (h : b.Filed) {timeMs : ℕ} (hend : b.endTime ≤ timeMs) :
    (b.getAndRemove timeMs).2.tasks = [] := by
  rw [getAndRemove_rest h]
  refine List.filter_eq_nil_iff.mpr fun t ht => ?_
  have hr := h.mem_range ht
  simp only [decide_eq_true_eq, not_lt]
  omega

theorem Filed.tasks_sorted {b : TimerBlock} (h : b.Filed) :
    b.tasks.Pairwise fun s t => s.executeMs ≤ t.executeMs := by
  unfold tasks
  rw [List.pairwise_map]
  refine b.timeTasks.sorted.imp_of_mem fun {x y} hx hy hle => ?_
  rwa [(h x hx).1, (h y hy).1] at hle

theorem isEmpty_iff (b : TimerBlock) : b.isEmpty = true ↔ b.tasks = [] := by
  simp only [isEmpty, tasks, List.isEmpty_iff, List.map_eq_nil_iff]

end TimerBlock
end MSylar.Timer
