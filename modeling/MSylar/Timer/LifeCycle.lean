import Mathlib.Algebra.BigOperators.Intervals
import MSylar.Timer.Threads

/-!
# The life of a TimeTask (timer_task.cc, timer.cc:395-423)

Timers are added, triggered, run, re-inserted and canceled by any number of threads. The tasks are
shared objects: `next` and `cancel` change them in place, the store and the calls of `Threads` know
them by `ref`. Between the run and the re-insertion `runTimeTask` reads the flag once.
-/

namespace MSylar.Timer.LifeCycle
open MSylar.Word MSylar.Execution MSylar.Calls

/-- What happens to a task: `addTimer`, `TimerBlock::insert`, the start of a run and the end of
`runner`, the call of `insertTimeTask` in `runTimeTask`, and `cancel`. -/
inductive Stage where
  | added
  | stored
  | started
  | completed
  | enrolled
  | canceled
  deriving DecidableEq

structure Timed extends Shared where
  objs : ℕ → TimeTask
  log : ℕ → List Stage

/-- A call on the store, or `runTimeTask` in the callbacks and before it reads the flag. -/
inductive Point where
  | call (c : Call)
  | running (ref : ℕ)
  | checking (ref : ℕ)
  | left
  deriving DecidableEq

abbrev Timers := World Timed Point

def Timers.init (blockSizeMs baseTime : ℕ) (tasks : ℕ → TimeTask) : Timers :=
  ⟨⟨(Threads.init blockSizeMs baseTime).shared, tasks, fun _ => []⟩, []⟩

def Timed.note (s : Timed) (ref : ℕ) (e : Stage) : Timed :=
  { s with log := Function.update s.log ref (s.log ref ++ [e]) }

def Point.run (ok : Bool) (s : Timed) : Point → Option (Timed × Point)
  -- `TimerBlock::insert` reads the execute time of the object again
  | .call (.placing t p) =>
    if s.store.inRange p t.executeMs then
      some ({ s with store := s.store.insertInBlock p (s.objs t.ref)
                     inserted := s.inserted ++ [s.objs t.ref] }.note t.ref .stored,
        .call (.comparing t))
    else some (s, .call (.returned (-1)))
  | .call c => (c.run ok s.toShared).map fun r => ({ s with toShared := r.1 }, .call r.2)
  | .running ref =>
    some ({ s with objs := Function.update s.objs ref (s.objs ref).next }.note ref .completed,
      .checking ref)
  | .checking ref =>
    if !(s.objs ref).isCanceled && (s.objs ref).isCycle then
      some (s.note ref .enrolled, .call (.entered (s.objs ref)))
    else some (s, .left)
  | .left => none

inductive Action where
  | tick (ms : ℕ)
  | add (ref : ℕ)
  | trigger
  | start (ref : ℕ)
  | cancel (ref : ℕ)
  | next (i : ℕ) (ok : Bool)

def tally (ref : ℕ) (ts : List TimeTask) : ℕ := (ts.map TimeTask.ref).count ref

/-- How often `runTimeTask` has been scheduled for a task. -/
def scheduledFor (m : TimeManager) (ref : ℕ) : ℕ := tally ref m.scheduled

def Timers.step (w : Timers) : Action → Option Timers
  | .tick ms => some ⟨{ w.shared with clock := w.shared.clock + ms }, w.calls⟩
  | .add ref => some ⟨w.shared.note ref .added, w.calls ++ [.call (.entered (w.shared.objs ref))]⟩
  | .trigger => some (w.enter (.call .triggered))
  -- a worker takes one of the scheduled coroutines that have not started
  | .start ref =>
    if (w.shared.log ref).count .started < scheduledFor w.shared.store ref then
      some ⟨w.shared.note ref .started, w.calls ++ [.running ref]⟩
    else none
  | .cancel ref =>
    let objs := Function.update w.shared.objs ref (w.shared.objs ref).cancel
    some ⟨{ w.shared with objs := objs }.note ref .canceled, w.calls⟩
  | .next i ok => w.advance (Point.run ok) i

/-! ### Where a task is -/

/-- In the blocks, those that the map no longer holds included. -/
def storedFor (m : TimeManager) (ref : ℕ) : ℕ :=
  ∑ p ∈ Finset.range m.fresh, tally ref (m.blocks p).tasks

/-- The tasks a call has in hand: to insert, or taken from the blocks and not yet scheduled. -/
def inHand : Call → List TimeTask
  | .entered t | .checking t | .lookup t | .creating t _ | .placing t _ => [t]
  | c => c.expired

def Point.holds (ref : ℕ) : Point → ℕ
  | .call c => tally ref (inHand c)
  | _ => 0

def Point.runs (ref : ℕ) : Point → ℕ
  | .running x => if x = ref then 1 else 0
  | .checking x => if x = ref then 1 else 0
  | _ => 0

def Timers.held (w : Timers) (ref : ℕ) : ℕ := (w.calls.map (Point.holds ref)).sum

def Timers.running (w : Timers) (ref : ℕ) : ℕ := (w.calls.map (Point.runs ref)).sum

/-- Scheduled and not yet started. -/
def Timers.waiting (w : Timers) (ref : ℕ) : ℕ :=
  scheduledFor w.shared.store ref - (w.shared.log ref).count .started

/-! ### Steps on the store

A step passes a task on between the blocks, the hands of the calls and the scheduler. -/

theorem tally_cons (ref : ℕ) (t : TimeTask) (ts : List TimeTask) :
    tally ref (t :: ts) = tally ref ts + tally ref [t] := by
  simp only [tally, List.map_cons, List.map_nil, List.count_cons, List.count_nil, Nat.zero_add]

theorem tally_append (ref : ℕ) (ts us : List TimeTask) :
    tally ref (ts ++ us) = tally ref ts + tally ref us := by
  simp only [tally, List.map_append, List.count_append]

theorem tally_ref (ref : ℕ) {t u : TimeTask} (h : t.ref = u.ref) : tally ref [t] = tally ref [u] := by
  simp only [tally, List.map_cons, h, List.map_nil]

def Below (m : TimeManager) : Prop := ∀ e ∈ m.timeBlocks.entries, e.2 < m.fresh

theorem storedFor_setBlock (m : TimeManager) {p : ℕ} (hp : p < m.fresh) (b : TimerBlock) (ref : ℕ) :
    storedFor (m.setBlock p b) ref + tally ref (m.blocks p).tasks =
      storedFor m ref + tally ref b.tasks := by
  have hmem : p ∈ Finset.range m.fresh := Finset.mem_range.mpr hp
  have hrest : ∑ q ∈ (Finset.range m.fresh).erase p, tally ref ((m.setBlock p b).blocks q).tasks =
      ∑ q ∈ (Finset.range m.fresh).erase p, tally ref (m.blocks q).tasks := by
    refine Finset.sum_congr rfl fun q hq => ?_
    simp only [TimeManager.setBlock, Function.update_of_ne (Finset.ne_of_mem_erase hq)]
  have hnew := Finset.add_sum_erase (Finset.range m.fresh)
    (fun q => tally ref ((m.setBlock p b).blocks q).tasks) hmem
  have hold := Finset.add_sum_erase (Finset.range m.fresh)
    (fun q => tally ref (m.blocks q).tasks) hmem
  have hself : (m.setBlock p b).blocks p = b := by
    simp only [TimeManager.setBlock, Function.update_self]
  simp only [hrest, hself] at hnew
  unfold storedFor
  change (∑ q ∈ Finset.range m.fresh, _) + _ = _
  omega

theorem storedFor_insert {m : TimeManager} {p : ℕ} (hp : p < m.fresh) (t : TimeTask) (ref : ℕ) :
    storedFor (m.insertInBlock p t) ref = storedFor m ref + tally ref [t] := by
  have hset := storedFor_setBlock m hp ((m.blocks p).insert t) ref
  have hperm : tally ref ((m.blocks p).insert t).tasks = tally ref (t :: (m.blocks p).tasks) :=
    ((TimerBlock.tasks_insert (m.blocks p) t).map TimeTask.ref).count_eq ref
  rw [hperm, tally_cons] at hset
  unfold TimeManager.insertInBlock
  omega

theorem storedFor_drain (m : TimeManager) {p : ℕ} (hp : p < m.fresh) (now ref : ℕ) :
    storedFor (m.drainBlock p now).2 ref + tally ref (m.drainBlock p now).1 = storedFor m ref := by
  have hset := storedFor_setBlock m hp ((m.blocks p).getAndRemove now).2 ref
  rw [← TimerBlock.getAndRemove_append (m.blocks p) now, tally_append] at hset
  unfold TimeManager.drainBlock
  dsimp only
  omega

theorem storedFor_create (m : TimeManager) (start ref : ℕ) :
    storedFor (m.createBlock start).2 ref = storedFor m ref := by
  cases hf : m.timeBlocks.find start with
  | some p => rw [TimeManager.createBlock_found hf]
  | none =>
    rw [TimeManager.createBlock_fresh hf]
    unfold storedFor
    dsimp only
    rw [Finset.sum_range_succ, Function.update_self]
    refine (Nat.add_zero _).trans (Finset.sum_congr rfl fun q hq => ?_)
    rw [Function.update_of_ne (Finset.mem_range.mp hq).ne]

theorem createBlock_below {m : TimeManager} (h : Below m) (start : ℕ) :
    Below (m.createBlock start).2 ∧ (m.createBlock start).1 < (m.createBlock start).2.fresh ∧
      m.fresh ≤ (m.createBlock start).2.fresh ∧
      (m.createBlock start).2.scheduled = m.scheduled := by
  cases hf : m.timeBlocks.find start with
  | some p =>
    rw [TimeManager.createBlock_found hf]
    exact ⟨h, h _ (Multimap.find_mem hf), le_rfl, rfl⟩
  | none =>
    rw [TimeManager.createBlock_fresh hf]
    refine ⟨fun e he => ?_, Nat.lt_succ_self _, Nat.le_succ _, rfl⟩
    rcases Multimap.mem_insert.mp he with rfl | he
    · exact Nat.lt_succ_self _
    · exact Nat.lt_succ_of_lt (h e he)

theorem scheduledFor_schedule (m : TimeManager) (t : TimeTask) (ref : ℕ) :
    scheduledFor (m.schedule t) ref = scheduledFor m ref + tally ref [t] := by
  unfold scheduledFor TimeManager.schedule
  rw [tally_append]

theorem scheduledFor_fire (m : TimeManager) (t : TimeTask) (ref : ℕ) :
    scheduledFor (m.fire t) ref = scheduledFor m ref + tally ref [t] :=
  scheduledFor_schedule { m with timerCount := sub64 m.timerCount 1 } t ref

/-- The blocks a call is going to read or write. -/
def aims : Call → List ℕ
  | .placing _ p => [p]
  | .draining _ rest _ => rest
  | _ => []

def Aimed (m : TimeManager) (c : Call) : Prop := ∀ p ∈ aims c, p < m.fresh

/-- A step of a call other than `TimerBlock::insert`. -/
structure Passed (s s' : Shared) (c c' : Call) : Prop where
  below : Below s'.store
  aimed : Aimed s'.store c'
  fresh : s.store.fresh ≤ s'.store.fresh
  more : ∀ ref, scheduledFor s.store ref ≤ scheduledFor s'.store ref
  flow : ∀ ref, storedFor s'.store ref + scheduledFor s'.store ref + tally ref (inHand c') ≤
    storedFor s.store ref + scheduledFor s.store ref + tally ref (inHand c)

/-- Most steps leave map, blocks and scheduler as they are. -/
theorem Passed.of_same {s s' : Shared} {c c' : Call} (h : Below s.store)
    (hmap : s'.store.timeBlocks = s.store.timeBlocks) (hheap : s'.store.blocks = s.store.blocks)
    (hfresh : s'.store.fresh = s.store.fresh) (hsch : s'.store.scheduled = s.store.scheduled)
    (haimed : Aimed s'.store c') (hhand : ∀ ref, tally ref (inHand c') ≤ tally ref (inHand c)) :
    Passed s s' c c' := by
  refine ⟨?_, haimed, hfresh.ge, ?_, ?_⟩
  · unfold Below
    rw [hmap, hfresh]
    exact h
  · intro ref
    rw [scheduledFor, scheduledFor, hsch]
  · intro ref
    rw [storedFor, storedFor, hheap, hfresh, scheduledFor, scheduledFor, hsch]
    exact Nat.add_le_add_left (hhand ref) _

theorem aimed_nil {m : TimeManager} {c : Call} (h : aims c = []) : Aimed m c := by
  unfold Aimed
  rw [h]
  exact fun p hp => absurd hp List.not_mem_nil

theorem Passed.idle {s s' : Shared} {c c' : Call} (h : Below s.store)
    (hmap : s'.store.timeBlocks = s.store.timeBlocks) (hheap : s'.store.blocks = s.store.blocks)
    (hfresh : s'.store.fresh = s.store.fresh) (hsch : s'.store.scheduled = s.store.scheduled)
    (haims : aims c' = []) (hhand : inHand c' = inHand c ∨ inHand c' = []) : Passed s s' c c' := by
  refine Passed.of_same h hmap hheap hfresh hsch (aimed_nil haims) fun ref => ?_
  rcases hhand with hhand | hhand
  · rw [hhand]
  · rw [hhand]
    exact Nat.zero_le _

theorem Cont.resume_inHand (k : Cont) :
    inHand k.resume = k.expired ∧ inHand k.failed = k.expired ∧ aims k.resume = [] ∧
      aims k.failed = [] := by
  cases k <;> exact ⟨rfl, rfl, rfl, rfl⟩

theorem Call.run_passed {ok : Bool} {s s' : Shared} {c c' : Call} (h : Below s.store)
    (hc : Aimed s.store c) (hplacing : ∀ t p, c ≠ .placing t p)
    (hrun : c.run ok s = some (s', c')) : Passed s s' c c' := by
  cases Call.next_of_run hrun with
  | due t =>
    refine ⟨h, aimed_nil rfl, le_rfl, fun ref => ?_, fun ref => ?_⟩
    · rw [scheduledFor_schedule]
      exact Nat.le_add_right _ _
    · rw [scheduledFor_schedule]
      exact (Nat.add_assoc _ _ _).ge
  | ahead t _ | future t | missing t _ | arm e k | lock e now k _ _ =>
    exact Passed.idle h rfl rfl rfl rfl rfl (.inl rfl)
  | past t | sooner t | later t _ | count | trigger | finish =>
    exact Passed.idle h rfl rfl rfl rfl rfl (.inr rfl)
  | found t p hfind =>
    refine Passed.of_same h rfl rfl rfl rfl ?_ fun ref => le_rfl
    intro q hq
    cases List.mem_singleton.mp hq
    exact h _ (Multimap.find_mem hfind)
  | create t start =>
    obtain ⟨hbelow, hlt, hfresh, hsch⟩ := createBlock_below h start
    refine ⟨hbelow, ?_, hfresh, fun ref => ?_, fun ref => ?_⟩
    · intro q hq
      cases List.mem_singleton.mp hq
      exact hlt
    · rw [scheduledFor, scheduledFor, hsch]
    · rw [storedFor_create, scheduledFor, scheduledFor, hsch]
      exact le_rfl
  | place t p _ | refuse t p => exact absurd rfl (hplacing t p)
  | collect now =>
    refine Passed.of_same h rfl rfl rfl rfl ?_ fun ref => le_rfl
    intro p hp
    obtain ⟨k, -, hmem⟩ := TimeManager.mem_collect.mp hp
    exact h _ hmem
  | drain now p ps expired =>
    refine ⟨h, fun q hq => hc q (List.mem_cons_of_mem p hq), le_rfl, fun ref => le_rfl,
      fun ref => ?_⟩
    have hdrain := storedFor_drain s.store (hc p List.mem_cons_self) now ref
    change storedFor (s.store.drainBlock p now).2 ref + scheduledFor s.store ref +
      tally ref (expired ++ (s.store.drainBlock p now).1) ≤ _ + _ + tally ref expired
    rw [tally_append]
    omega
  | erase now expired _ hc' =>
    have hbelow : Below (s.store.eraseAndReset now).2 :=
      fun e he => h e (List.mem_of_mem_filter he)
    refine ⟨hbelow, ?_, le_rfl, fun ref => le_rfl, fun ref => ?_⟩
    · rcases hc' with rfl | ⟨e, rfl⟩ <;> exact aimed_nil rfl
    · rcases hc' with rfl | ⟨e, rfl⟩ <;> exact le_rfl
  | fire t ts =>
    refine ⟨h, aimed_nil rfl, le_rfl, fun ref => ?_, fun ref => ?_⟩
    · rw [scheduledFor_fire]
      exact Nat.le_add_right _ _
    · rw [scheduledFor_fire]
      change storedFor s.store ref + _ + tally ref ts ≤ _ + _ + tally ref (t :: ts)
      rw [tally_cons ref t ts]
      omega
  | armed e now k _ =>
    exact Passed.idle h rfl rfl rfl rfl (Cont.resume_inHand k).2.2.1 (.inl (Cont.resume_inHand k).1)
  | set e now k _ =>
    exact Passed.idle h rfl rfl rfl rfl (Cont.resume_inHand k).2.2.1 (.inl (Cont.resume_inHand k).1)
  | fail e now k _ =>
    exact Passed.idle h rfl rfl rfl rfl (Cont.resume_inHand k).2.2.2
      (.inl (Cont.resume_inHand k).2.1)

/-! ### The books of one task

`task` is the object as it was created, `obj` as it is now. -/

structure Books (task obj : TimeTask) (log : List Stage) (stored scheduled held running : ℕ) :
    Prop where
  flow : stored + scheduled + held ≤ log.count .added + log.count .enrolled
  turns : log.count .enrolled + running ≤ log.count .started
  started : log.count .started ≤ scheduled
  first : log.count .added = 0 → log.count .enrolled = 0
  kind : obj.isCycle = task.isCycle ∧ obj.intrevalMs = task.intrevalMs
  time : task.isCycle = true →
    obj.executeMs = (task.executeMs + log.count .completed * task.intrevalMs) % 2^64
  once : task.isCycle = false → log.count .enrolled = 0
  flag : .canceled ∈ log → obj.isCanceled = true
  -- a run that started after `cancel` was the last place the task could be in
  last : log.count .added ≤ 1 → [.canceled, .started].Sublist log →
    log.count .started = log.count .added + log.count .enrolled
  never : log.count .added ≤ 1 → ∀ e ∈ [Stage.started, .stored, .enrolled],
    ¬ [.canceled, .started, e].Sublist log

section Books
variable {task obj : TimeTask} {log : List Stage} {stored scheduled held running : ℕ}

theorem sublist_note {l log : List Stage} {e : Stage} (h : l.Sublist (log ++ [e])) :
    l.Sublist log ∨ ∃ r, l = r ++ [e] ∧ r.Sublist log := by
  obtain ⟨l₁, l₂, rfl, h₁, h₂⟩ := List.sublist_append_iff.mp h
  rcases List.sublist_singleton.mp h₂ with rfl | rfl
  · exact .inl (by rwa [List.append_nil])
  · exact .inr ⟨l₁, rfl, h₁⟩

theorem ran_note {log : List Stage} {e : Stage} (h : [.canceled, .started].Sublist (log ++ [e])) :
    [Stage.canceled, .started].Sublist log ∨ e = .started ∧ .canceled ∈ log := by
  rcases sublist_note h with h | ⟨l, heq, hl⟩
  · exact .inl h
  · have hsplit : [Stage.canceled] ++ [.started] = l ++ [e] := heq
    obtain ⟨rfl, hlast⟩ := List.append_inj' hsplit rfl
    cases hlast
    exact .inr ⟨rfl, List.singleton_sublist.mp hl⟩

theorem never_note {log : List Stage} {e : Stage}
    (h : ∀ x ∈ [Stage.started, .stored, .enrolled], ¬ [.canceled, .started, x].Sublist log)
    (he : e ∈ [Stage.started, .stored, .enrolled] → ¬ [Stage.canceled, .started].Sublist log) :
    ∀ x ∈ [Stage.started, .stored, .enrolled], ¬ [.canceled, .started, x].Sublist (log ++ [e]) := by
  intro x hx hsub
  rcases sublist_note hsub with hsub | ⟨l, heq, hl⟩
  · exact h x hx hsub
  · have hsplit : [Stage.canceled, .started] ++ [x] = l ++ [e] := heq
    obtain ⟨rfl, hlast⟩ := List.append_inj' hsplit rfl
    cases hlast
    exact he hx hl

theorem count_note (log : List Stage) (e x : Stage) :
    (log ++ [e]).count x = log.count x + if e = x then 1 else 0 := by
  rw [List.count_append, List.count_singleton]
  simp only [beq_iff_eq]

theorem Books.init (task : TimeTask) (h : task.executeMs < 2^64) : Books task task [] 0 0 0 0 where
  flow := le_rfl
  turns := le_rfl
  started := le_rfl
  first := fun _ => rfl
  kind := ⟨rfl, rfl⟩
  time := fun _ => by
    rw [List.count_nil, Nat.zero_mul, Nat.add_zero]
    exact (Nat.mod_eq_of_lt h).symm
  once := fun _ => rfl
  flag := fun h => absurd h List.not_mem_nil
  last := fun _ h => absurd h.length_le (by decide)
  never := fun _ _ _ h => absurd h.length_le (by simp)

/-- The task changes hands, or is dropped. -/
theorem Books.passed (h : Books task obj log stored scheduled held running)
    {stored' scheduled' held' running' : ℕ} (hmore : scheduled ≤ scheduled')
    (hflow : stored' + scheduled' + held' ≤ stored + scheduled + held) (hruns : running' ≤ running) :
    Books task obj log stored' scheduled' held' running' where
  flow := hflow.trans h.flow
  turns := (Nat.add_le_add_left hruns _).trans h.turns
  started := h.started.trans hmore
  first := h.first
  kind := h.kind
  time := h.time
  once := h.once
  flag := h.flag
  last := h.last
  never := h.never

/-- A stage that is neither an insertion nor a run. -/
theorem Books.noted (h : Books task obj log stored scheduled held running) {obj' : TimeTask}
    {e : Stage} (he : e = .completed ∨ e = .canceled)
    (hkind : obj'.isCycle = task.isCycle ∧ obj'.intrevalMs = task.intrevalMs)
    (htime : task.isCycle = true → obj'.executeMs =
      (task.executeMs + (log ++ [e]).count .completed * task.intrevalMs) % 2^64)
    (hflag : .canceled ∈ log ++ [e] → obj'.isCanceled = true) :
    Books task obj' (log ++ [e]) stored scheduled held running := by
  have hcount : ∀ x ∈ [Stage.added, .started, .enrolled], (log ++ [e]).count x = log.count x := by
    intro x hx
    rw [count_note, if_neg, Nat.add_zero]
    rintro rfl
    rcases he with rfl | rfl <;> simp at hx
  have hadded := hcount .added (by simp)
  have hstarted := hcount .started (by simp)
  have henrolled := hcount .enrolled (by simp)
  constructor
  · rw [hadded, henrolled]
    exact h.flow
  · rw [henrolled, hstarted]
    exact h.turns
  · rw [hstarted]
    exact h.started
  · rw [hadded, henrolled]
    exact h.first
  · exact hkind
  · exact htime
  · rw [henrolled]
    exact h.once
  · exact hflag
  · rw [hadded, hstarted, henrolled]
    intro hadd hsub
    rcases ran_note hsub with hsub | ⟨rfl, -⟩
    · exact h.last hadd hsub
    · rcases he with heq | heq <;> cases heq
  · rw [hadded]
    intro hadd
    refine never_note (h.never hadd) fun hmem => ?_
    rcases he with rfl | rfl <;> simp at hmem

theorem Books.complete (h : Books task obj log stored scheduled held running) :
    Books task obj.next (log ++ [.completed]) stored scheduled held running := by
  refine h.noted (.inl rfl) h.kind (fun hcycle => ?_) fun hmem => ?_
  · have htime := h.time hcycle
    have hobj : obj.isCycle = true := h.kind.1.trans hcycle
    rw [count_note, if_pos rfl, Nat.add_mul, Nat.one_mul, ← Nat.add_assoc]
    simp only [TimeTask.next, hobj, if_true, add64, htime, h.kind.2]
    exact Nat.mod_add_mod _ _ _
  · exact h.flag ((List.mem_append.mp hmem).resolve_right (by simp))

theorem Books.cancel (h : Books task obj log stored scheduled held running) :
    Books task obj.cancel (log ++ [.canceled]) stored scheduled held running := by
  refine h.noted (.inr rfl) h.kind (fun hcycle => ?_) fun _ => rfl
  rw [count_note, if_neg (by simp)]
  exact h.time hcycle

/-- Nothing is left of a canceled task that has run again. -/
theorem Books.exhausted (h : Books task obj log stored scheduled held running)
    (hadd : log.count .added ≤ 1) (hran : [Stage.canceled, .started].Sublist log) :
    stored = 0 ∧ held = 0 ∧ scheduled = log.count .started := by
  have hlast := h.last hadd hran
  have hflow := h.flow
  have hstarted := h.started
  omega

theorem Books.never_ran (h : Books task obj log stored scheduled held running)
    (hzero : log.count .added = 0) : ¬ [Stage.canceled, .started].Sublist log := by
  intro hsub
  have hmem : Stage.started ∈ log := hsub.subset (by simp)
  have hpos := List.count_pos_iff.mpr hmem
  have hflow := h.flow
  have hstarted := h.started
  have hfirst := h.first hzero
  omega

theorem Books.add (h : Books task obj log stored scheduled held running) :
    Books task obj (log ++ [.added]) stored scheduled (held + 1) running := by
  have hflow := h.flow
  constructor
  · simp only [count_note, reduceCtorEq, if_true, if_false]
    omega
  · simpa only [count_note, reduceCtorEq, if_false, Nat.add_zero] using h.turns
  · simpa only [count_note, reduceCtorEq, if_false, Nat.add_zero] using h.started
  · simp only [count_note, if_true]
    omega
  · exact h.kind
  · simpa only [count_note, reduceCtorEq, if_false, Nat.add_zero] using h.time
  · simpa only [count_note, reduceCtorEq, if_false, Nat.add_zero] using h.once
  · exact fun hmem => h.flag ((List.mem_append.mp hmem).resolve_right (by simp))
  · intro hadd hsub
    simp only [count_note, if_true] at hadd
    rcases ran_note hsub with hsub | ⟨heq, -⟩
    · exact absurd hsub (h.never_ran (by omega))
    · cases heq
  · intro hadd
    simp only [count_note, if_true] at hadd
    exact never_note (h.never (by omega)) (fun _ => h.never_ran (by omega))

theorem Books.put (h : Books task obj log stored scheduled held running) (hheld : 0 < held) :
    Books task obj (log ++ [.stored]) stored scheduled held running := by
  constructor
  · simpa only [count_note, reduceCtorEq, if_false, Nat.add_zero] using h.flow
  · simpa only [count_note, reduceCtorEq, if_false, Nat.add_zero] using h.turns
  · simpa only [count_note, reduceCtorEq, if_false, Nat.add_zero] using h.started
  · simpa only [count_note, reduceCtorEq, if_false, Nat.add_zero] using h.first
  · exact h.kind
  · simpa only [count_note, reduceCtorEq, if_false, Nat.add_zero] using h.time
  · simpa only [count_note, reduceCtorEq, if_false, Nat.add_zero] using h.once
  · exact fun hmem => h.flag ((List.mem_append.mp hmem).resolve_right (by simp))
  · intro hadd hsub
    simp only [count_note, reduceCtorEq, if_false, Nat.add_zero] at hadd ⊢
    rcases ran_note hsub with hsub | ⟨heq, -⟩
    · exact h.last hadd hsub
    · cases heq
  · intro hadd
    simp only [count_note, reduceCtorEq, if_false, Nat.add_zero] at hadd
    refine never_note (h.never hadd) fun _ hsub => ?_
    have hnone := (h.exhausted hadd hsub).2.1
    omega

theorem Books.start (h : Books task obj log stored scheduled held running)
    (hlt : log.count .started < scheduled) :
    Books task obj (log ++ [.started]) stored scheduled held (running + 1) := by
  have hflow := h.flow
  have hturns := h.turns
  constructor
  · simpa only [count_note, reduceCtorEq, if_false, Nat.add_zero] using hflow
  · simp only [count_note, reduceCtorEq, if_true, if_false]
    omega
  · simp only [count_note, if_true]
    exact hlt
  · simpa only [count_note, reduceCtorEq, if_false, Nat.add_zero] using h.first
  · exact h.kind
  · simpa only [count_note, reduceCtorEq, if_false, Nat.add_zero] using h.time
  · simpa only [count_note, reduceCtorEq, if_false, Nat.add_zero] using h.once
  · exact fun hmem => h.flag ((List.mem_append.mp hmem).resolve_right (by simp))
  · -- the one place the task was in is the run that starts here
    intro hadd _
    simp only [count_note, reduceCtorEq, if_true, if_false, Nat.add_zero] at hadd ⊢
    omega
  · intro hadd
    simp only [count_note, reduceCtorEq, if_false, Nat.add_zero] at hadd
    refine never_note (h.never hadd) fun _ hsub => ?_
    have hall := (h.exhausted hadd hsub).2.2
    omega

theorem Books.enroll (h : Books task obj log stored scheduled held (running + 1))
    (hflag : obj.isCanceled = false) (hcycle : obj.isCycle = true) :
    Books task obj (log ++ [.enrolled]) stored scheduled (held + 1) running := by
  have hflow := h.flow
  have hturns := h.turns
  have hstarted := h.started
  have hnone : .canceled ∉ log := fun hmem => by
    rw [h.flag hmem] at hflag
    cases hflag
  have hran : ¬ [Stage.canceled, .started].Sublist log :=
    fun hsub => hnone (hsub.subset (by simp))
  constructor
  · simp only [count_note, reduceCtorEq, if_true, if_false]
    omega
  · simp only [count_note, reduceCtorEq, if_true, if_false]
    omega
  · simpa only [count_note, reduceCtorEq, if_false, Nat.add_zero] using hstarted
  · intro hzero
    simp only [count_note, reduceCtorEq, if_false, Nat.add_zero] at hzero
    have hfirst := h.first hzero
    omega
  · exact h.kind
  · simpa only [count_note, reduceCtorEq, if_false, Nat.add_zero] using h.time
  · intro hone
    rw [h.kind.1, hone] at hcycle
    cases hcycle
  · exact fun hmem => h.flag ((List.mem_append.mp hmem).resolve_right (by simp))
  · intro _ hsub
    rcases ran_note hsub with hsub | ⟨heq, -⟩
    · exact absurd hsub hran
    · cases heq
  · intro hadd
    simp only [count_note, reduceCtorEq, if_false, Nat.add_zero] at hadd
    exact never_note (h.never hadd) fun _ => hran

end Books

/-! ### Steps and runs -/

def Point.Ready (m : TimeManager) : Point → Prop
  | .call c => Aimed m c
  | _ => True

theorem Point.Ready.mono {m n : TimeManager} {c : Point} (h : c.Ready m) (hf : m.fresh ≤ n.fresh) :
    c.Ready n := by
  cases c with
  | call c => exact fun p hp => (h p hp).trans_le hf
  | _ => trivial

structure Timers.Inv (tasks : ℕ → TimeTask) (w : Timers) : Prop where
  below : Below w.shared.store
  ready : ∀ c ∈ w.calls, c.Ready w.shared.store
  refs : ∀ ref, (w.shared.objs ref).ref = ref
  books : ∀ ref, Books (tasks ref) (w.shared.objs ref) (w.shared.log ref)
    (storedFor w.shared.store ref) (scheduledFor w.shared.store ref) (w.held ref) (w.running ref)

theorem note_self (s : Timed) (ref : ℕ) (e : Stage) :
    (s.note ref e).log ref = s.log ref ++ [e] := Function.update_self ..

theorem note_of_ne (s : Timed) {ref x : ℕ} (h : ref ≠ x) (e : Stage) :
    (s.note x e).log ref = s.log ref := Function.update_of_ne h ..

theorem tally_one (ref : ℕ) {t : TimeTask} : tally ref [t] = if t.ref = ref then 1 else 0 := by
  simp only [tally, List.map_cons, List.map_nil, List.count_singleton, beq_iff_eq]

theorem held_set {w : Timers} {i : ℕ} {c : Point} (hc : w.calls[i]? = some c) (s : Timed) (c' : Point)
    (ref : ℕ) :
    Timers.held ⟨s, w.calls.set i c'⟩ ref + c.holds ref = w.held ref + c'.holds ref ∧
      Timers.running ⟨s, w.calls.set i c'⟩ ref + c.runs ref = w.running ref + c'.runs ref :=
  ⟨sum_set (Point.holds ref) hc c', sum_set (Point.runs ref) hc c'⟩

theorem held_enter (w : Timers) (s : Timed) (c : Point) (ref : ℕ) :
    Timers.held ⟨s, w.calls ++ [c]⟩ ref = w.held ref + c.holds ref ∧
      Timers.running ⟨s, w.calls ++ [c]⟩ ref = w.running ref + c.runs ref :=
  ⟨sum_enter (Point.holds ref) w.calls c, sum_enter (Point.runs ref) w.calls c⟩

/-- A step of a call that keeps objects and logs. -/
theorem Timers.Inv.passed {tasks : ℕ → TimeTask} {w : Timers} (h : w.Inv tasks) {i : ℕ}
    {c c' : Call} {s : Shared} (hc : w.calls[i]? = some (.call c))
    (hp : Passed w.shared.toShared s c c') :
    Timers.Inv tasks ⟨{ w.shared with toShared := s }, w.calls.set i (.call c')⟩ := by
  refine ⟨hp.below, forall_set h.ready (fun d _ hd => hd.mono hp.fresh) hp.aimed, h.refs, ?_⟩
  intro ref
  obtain ⟨hheld, hruns⟩ := held_set hc { w.shared with toShared := s } (.call c') ref
  have hflow := hp.flow ref
  change _ + tally ref (inHand c) = _ + tally ref (inHand c') at hheld
  change _ + 0 = _ + 0 at hruns
  refine (h.books ref).passed (hp.more ref) ?_ (by omega)
  change storedFor s.store ref + scheduledFor s.store ref + _ ≤ _
  omega

theorem Timers.Inv.place {tasks : ℕ → TimeTask} {w : Timers} (h : w.Inv tasks) {i p : ℕ}
    {t : TimeTask} (hc : w.calls[i]? = some (.call (.placing t p))) :
    Timers.Inv tasks ⟨{ w.shared with
        store := w.shared.store.insertInBlock p (w.shared.objs t.ref)
        inserted := w.shared.inserted ++ [w.shared.objs t.ref] }.note t.ref .stored,
      w.calls.set i (.call (.comparing t))⟩ := by
  have hp : p < w.shared.store.fresh :=
    h.ready _ (List.mem_of_getElem? hc) p (List.mem_singleton_self p)
  refine ⟨h.below, forall_set h.ready (fun d _ hd => hd.mono le_rfl) (aimed_nil rfl), h.refs, ?_⟩
  intro ref
  obtain ⟨hheld, hruns⟩ := held_set hc (({ w.shared with
    store := w.shared.store.insertInBlock p (w.shared.objs t.ref)
    inserted := w.shared.inserted ++ [w.shared.objs t.ref] } : Timed).note t.ref .stored)
    (.call (.comparing t)) ref
  change _ + tally ref [t] = _ + 0 at hheld
  change _ + 0 = _ + 0 at hruns
  have hstored := storedFor_insert hp (w.shared.objs t.ref) ref
  rw [tally_ref ref (h.refs t.ref)] at hstored
  have hbooks : Books (tasks ref) (w.shared.objs ref)
      (Function.update w.shared.log t.ref (w.shared.log t.ref ++ [.stored]) ref)
      (storedFor w.shared.store ref) (scheduledFor w.shared.store ref) (w.held ref)
      (w.running ref) := by
    by_cases hx : ref = t.ref
    · subst hx
      rw [Function.update_self]
      refine (h.books t.ref).put ?_
      rw [tally_one, if_pos rfl] at hheld
      omega
    · rw [Function.update_of_ne hx]
      exact h.books ref
  refine hbooks.passed le_rfl ?_ (by omega)
  change storedFor (w.shared.store.insertInBlock p (w.shared.objs t.ref)) ref + _ + _ ≤ _
  change _ + scheduledFor w.shared.store ref + _ ≤ _
  omega

/-- A step of `runTimeTask` between its calls. -/
theorem Timers.Inv.turn {tasks : ℕ → TimeTask} {w : Timers} (h : w.Inv tasks) {i : ℕ}
    {c c' : Point} {s : Timed} (hc : w.calls[i]? = some c)
    (hshared : s.toShared = w.shared.toShared) (hready : c'.Ready w.shared.store)
    (hrefs : ∀ ref, (s.objs ref).ref = ref)
    (hbooks : ∀ ref held running, held + c.holds ref = w.held ref + c'.holds ref →
      running + c.runs ref = w.running ref + c'.runs ref →
      Books (tasks ref) (s.objs ref) (s.log ref) (storedFor w.shared.store ref)
        (scheduledFor w.shared.store ref) held running) :
    Timers.Inv tasks ⟨s, w.calls.set i c'⟩ := by
  have hstore : s.store = w.shared.store := congrArg Shared.store hshared
  refine ⟨?_, ?_, hrefs, ?_⟩
  · change Below s.store
    rw [hstore]
    exact h.below
  · change ∀ d ∈ w.calls.set i c', d.Ready s.store
    rw [hstore]
    exact forall_set h.ready (fun d _ hd => hd) hready
  · intro ref
    obtain ⟨hheld, hruns⟩ := held_set hc s c' ref
    change Books _ _ _ (storedFor s.store ref) (scheduledFor s.store ref) _ _
    rw [hstore]
    exact hbooks ref _ _ hheld hruns

theorem Timers.Inv.run {tasks : ℕ → TimeTask} {w : Timers} (h : w.Inv tasks) {i : ℕ} {ok : Bool}
    {c c' : Point} {s : Timed} (hc : w.calls[i]? = some c)
    (hrun : c.run ok w.shared = some (s, c')) : Timers.Inv tasks ⟨s, w.calls.set i c'⟩ := by
  cases c with
  | call c =>
    by_cases hplacing : ∃ t p, c = .placing t p
    · obtain ⟨t, p, rfl⟩ := hplacing
      simp only [Point.run] at hrun
      split at hrun
      · cases hrun
        exact h.place hc
      · cases hrun
        exact h.passed hc (Passed.idle h.below rfl rfl rfl rfl rfl (.inr rfl))
    · have hother : ∀ t p, c ≠ .placing t p := fun t p heq => hplacing ⟨t, p, heq⟩
      have hpoint : (Point.call c).run ok w.shared =
          (c.run ok w.shared.toShared).map fun r =>
            ({ w.shared with toShared := r.1 }, .call r.2) := by
        cases c with
        | placing t p => exact absurd rfl (hother t p)
        | _ => rfl
      rw [hpoint] at hrun
      obtain ⟨⟨s₁, c₁⟩, hstep, heq⟩ := Option.map_eq_some_iff.mp hrun
      cases heq
      exact h.passed hc
        (Call.run_passed h.below (h.ready _ (List.mem_of_getElem? hc)) hother hstep)
  | running x =>
    cases hrun
    refine h.turn hc rfl trivial ?_ ?_
    · intro ref
      change (Function.update w.shared.objs x (w.shared.objs x).next ref).ref = ref
      by_cases hx : ref = x
      · subst hx
        rw [Function.update_self]
        exact h.refs ref
      · rw [Function.update_of_ne hx]
        exact h.refs ref
    · intro ref held running hheld hruns
      have hsame : held = w.held ref ∧ running = w.running ref := by
        change held + 0 = _ + 0 at hheld
        change running + (if x = ref then 1 else 0) = _ + (if x = ref then 1 else 0) at hruns
        omega
      rw [hsame.1, hsame.2]
      by_cases hx : ref = x
      · subst hx
        rw [note_self]
        change Books _ (Function.update w.shared.objs ref (w.shared.objs ref).next ref) _ _ _ _ _
        rw [Function.update_self]
        exact (h.books ref).complete
      · rw [note_of_ne _ hx]
        change Books _ (Function.update w.shared.objs x (w.shared.objs x).next ref) _ _ _ _ _
        rw [Function.update_of_ne hx]
        exact h.books ref
  | checking x =>
    simp only [Point.run] at hrun
    split at hrun
    · rename_i hagain
      simp only [Bool.and_eq_true, Bool.not_eq_true'] at hagain
      cases hrun
      refine h.turn hc rfl (aimed_nil rfl) h.refs ?_
      intro ref held running hheld hruns
      change held + 0 = _ + tally ref [w.shared.objs x] at hheld
      change running + (if x = ref then 1 else 0) = _ + 0 at hruns
      rw [tally_one, h.refs x] at hheld
      by_cases hx : ref = x
      · subst hx
        rw [if_pos rfl] at hheld hruns
        rw [note_self, show held = w.held ref + 1 from hheld]
        have hbooks := h.books ref
        rw [show w.running ref = running + 1 from hruns.symm] at hbooks
        exact hbooks.enroll hagain.1 hagain.2
      · rw [if_neg (Ne.symm hx)] at hheld hruns
        rw [note_of_ne _ hx, show held = w.held ref from hheld,
          show running = w.running ref from hruns]
        exact h.books ref
    · cases hrun
      refine h.turn hc rfl trivial h.refs ?_
      intro ref held running hheld hruns
      change held + 0 = _ + 0 at hheld
      change running + _ = _ + 0 at hruns
      exact (h.books ref).passed le_rfl (by omega) (by omega)
  | left => cases hrun

theorem Timers.init_inv (blockSizeMs baseTime : ℕ) {tasks : ℕ → TimeTask}
    (hrefs : ∀ ref, (tasks ref).ref = ref) (htime : ∀ ref, (tasks ref).executeMs < 2^64) :
    (Timers.init blockSizeMs baseTime tasks).Inv tasks where
  below := by intro e he; cases he
  ready := by intro c hc; cases hc
  refs := hrefs
  books := fun ref => Books.init (tasks ref) (htime ref)

theorem Timers.step_inv {tasks : ℕ → TimeTask} {w w' : Timers} {a : Action} (h : w.Inv tasks)
    (hs : w.step a = some w') : w'.Inv tasks := by
  cases a with
  | tick ms => cases hs; exact ⟨h.below, h.ready, h.refs, h.books⟩
  | add x =>
    cases hs
    refine ⟨h.below, forall_enter h.ready (aimed_nil rfl), h.refs, fun ref => ?_⟩
    obtain ⟨hheld, hruns⟩ := held_enter w (w.shared.note x .added)
      (.call (.entered (w.shared.objs x))) ref
    rw [hheld, hruns]
    change Books _ _ _ _ _ (w.held ref + tally ref [w.shared.objs x]) (w.running ref)
    rw [tally_one, h.refs x]
    by_cases hx : ref = x
    · subst hx
      rw [if_pos rfl, note_self]
      exact (h.books ref).add
    · rw [if_neg (Ne.symm hx), note_of_ne _ hx]
      exact h.books ref
  | trigger =>
    cases hs
    refine ⟨h.below, forall_enter h.ready (aimed_nil rfl), h.refs, fun ref => ?_⟩
    obtain ⟨hheld, hruns⟩ := held_enter w w.shared (.call .triggered) ref
    change Books _ _ _ _ _ (Timers.held ⟨w.shared, w.calls ++ [.call .triggered]⟩ ref)
      (Timers.running ⟨w.shared, w.calls ++ [.call .triggered]⟩ ref)
    rw [hheld, hruns]
    exact h.books ref
  | start x =>
    simp only [Timers.step] at hs
    split at hs
    · rename_i hlt
      cases hs
      refine ⟨h.below, forall_enter h.ready trivial, h.refs, fun ref => ?_⟩
      obtain ⟨hheld, hruns⟩ := held_enter w (w.shared.note x .started) (.running x) ref
      rw [hheld, hruns]
      change Books _ _ _ _ _ (w.held ref) (w.running ref + if x = ref then 1 else 0)
      by_cases hx : ref = x
      · subst hx
        rw [if_pos rfl, note_self]
        exact (h.books ref).start hlt
      · rw [if_neg (Ne.symm hx), note_of_ne _ hx]
        exact h.books ref
    · cases hs
  | cancel x =>
    cases hs
    refine ⟨h.below, h.ready, fun ref => ?_, fun ref => ?_⟩
    · change (Function.update w.shared.objs x (w.shared.objs x).cancel ref).ref = ref
      by_cases hx : ref = x
      · subst hx
        rw [Function.update_self]
        exact h.refs ref
      · rw [Function.update_of_ne hx]
        exact h.refs ref
    · change Books _ (Function.update w.shared.objs x (w.shared.objs x).cancel ref) _ _ _ _ _
      by_cases hx : ref = x
      · subst hx
        rw [note_self, Function.update_self]
        exact (h.books ref).cancel
      · rw [note_of_ne _ hx, Function.update_of_ne hx]
        exact h.books ref
  | next i ok =>
    obtain ⟨c, s, c', hc, hrun, rfl⟩ := advance_cases hs
    exact h.run hc hrun

/-- A task created at `t0` with interval `ms`, in every state of every run in which it has been
added at most once. -/
theorem timeTask_life_cycle (blockSizeMs baseTime : ℕ) (t0 ms : ℕ → ℕ) (cycle : ℕ → Bool)
    (as : List Action) (w : Timers)
    (hw : exec Timers.step (Timers.init blockSizeMs baseTime
      fun ref => .create ref (t0 ref) (ms ref) (cycle ref)) as = some w)
    (ref : ℕ) (hadd : (w.shared.log ref).count .added ≤ 1) :
    storedFor w.shared.store ref + w.waiting ref + w.running ref ≤ 1 ∧
    (cycle ref = true → (w.shared.objs ref).executeMs =
      (t0 ref + ms ref + (w.shared.log ref).count .completed * ms ref) % 2^64) ∧
    (cycle ref = false →
      (w.shared.log ref).count .started ≤ 1 ∧ .enrolled ∉ w.shared.log ref) ∧
    ∀ e ∈ [Stage.started, .stored, .enrolled],
      ¬ [.canceled, .started, e].Sublist (w.shared.log ref) := by
  have hinv := exec_invariant (fun _ _ _ hi hst => Timers.step_inv hi hst)
    (Timers.init_inv blockSizeMs baseTime (fun _ => rfl)
      fun _ => Nat.mod_lt _ (by omega)) hw
  have hbooks := hinv.books ref
  have hflow := hbooks.flow
  have hturns := hbooks.turns
  have hstarted := hbooks.started
  refine ⟨?_, ?_, ?_, hbooks.never hadd⟩
  · unfold Timers.waiting
    omega
  · intro hcycle
    rw [hbooks.time hcycle]
    exact Nat.mod_add_mod _ _ _
  · intro hone
    have hnone := hbooks.once hone
    exact ⟨by omega, List.count_eq_zero.mp hnone⟩

def canceledInItsRun : List Action :=
  .add 1 :: List.replicate 10 (.next 0 true) ++ [Action.tick 5, .trigger] ++
    List.replicate 6 (Action.next 1 true) ++ [Action.start 1, .next 2 true, .cancel 1, .next 2 true]

theorem canceled_in_its_run_life_cycle :
    ∃ w, exec Timers.step (Timers.init 10 0 fun ref => .create ref 0 5 true) canceledInItsRun =
        some w ∧
      w.shared.log 1 = [.added, .stored, .started, .completed, .canceled] ∧
      storedFor w.shared.store 1 + w.waiting 1 + w.running 1 ≤ 1 ∧
      (true = true → (w.shared.objs 1).executeMs =
        (0 + 5 + (w.shared.log 1).count .completed * 5) % 2^64) ∧
      (true = false → (w.shared.log 1).count .started ≤ 1 ∧ .enrolled ∉ w.shared.log 1) ∧
      ∀ e ∈ [Stage.started, .stored, .enrolled],
        ¬ [.canceled, .started, e].Sublist (w.shared.log 1) :=
  ⟨_, rfl, rfl, timeTask_life_cycle 10 0 (fun _ => 0) (fun _ => 5) (fun _ => true)
    canceledInItsRun _ rfl 1 (by decide)⟩

end MSylar.Timer.LifeCycle
