import Mathlib.Algebra.Order.BigOperators.Group.List
import MSylar.Coro.TaskPool

/-!
# Stopping the scheduler (scheduler.cc:28-166, scheduler.h:41-81)

`autoStop` sets `m_autoStop`, waits until it reads a task count of 0 and then until every worker
has left `run`. Producers may still be inside `schedule` meanwhile. `idle` and `tickle` are those
of `Scheduler`; the ones of `IOManager` only decide when a worker comes back from `idle`.
-/

namespace MSylar.Coro.AutoStop
open MSylar.Execution MSylar.Calls
variable {κ : Type*}

/-- `legal`: the task is initialised and has a function or a coroutine handle. -/
structure TaskCoro20 (κ : Type*) where
  func : κ
  legal : Bool
  finished : Bool
  deriving DecidableEq

namespace TaskCoro20

def isLegal (t : TaskCoro20 κ) : Bool := t.legal

def isFinished (t : TaskCoro20 κ) : Bool := t.isLegal && t.finished

def runnable (t : TaskCoro20 κ) : Bool := t.isLegal && !t.isFinished

end TaskCoro20

abbrev Tasks (κ : Type*) := Multiset (TaskCoro20 κ)

/-- `started` records the tasks whose `start` was called, and `before` the tasks of the `schedule`
calls that had returned when `autoStop` was entered. -/
structure Scheduler (κ : Type*) where
  pool : TaskPool (TaskCoro20 κ)
  idleThreadCount : ℕ
  threadsCount : ℕ
  autoStop : Bool
  stop : Bool
  started : List (TaskCoro20 κ)
  before : Option (List (TaskCoro20 κ))

/-- Where a thread is. A producer has dealt with `done` and still has `todo`. -/
inductive Thread (κ : Type*) where
  | pushing (done todo : List (TaskCoro20 κ))
  | inAlloc (call : PoolCall (TaskCoro20 κ)) (done todo : List (TaskCoro20 κ))
  | tickling (done : List (TaskCoro20 κ))
  | scheduled (done : List (TaskCoro20 κ))
  | head
  | inGet (call : PoolCall (TaskCoro20 κ)) (work : List (TaskCoro20 κ))
  | retrying (work : List (TaskCoro20 κ))
  | peeking (work : List (TaskCoro20 κ))
  | peekingIdle (work : List (TaskCoro20 κ))
  | spreading (work : List (TaskCoro20 κ))
  | executing (work : List (TaskCoro20 κ))
  | checkingStop
  | checkingCount
  | checkingAutoStop
  | continuing
  | idling
  | sleeping
  | leaving
  | left
  | autoStopping
  | draining
  | awaiting
  | stopping
  | joining
  | stopped

namespace Thread

def run (s : Scheduler κ) : Thread κ → Option (Scheduler κ × Thread κ)
  -- schedule: scheduleNoLock for each task, then tickle
  | .pushing done [] => some (s, .tickling done)
  | .pushing done (task :: todo) =>
    some (s, if task.isFinished || s.autoStop then .pushing (done ++ [task]) todo
      else .inAlloc (.alloc task) done todo)
  | .inAlloc (.allocated task) done todo => some (s, .pushing (done ++ [task]) todo)
  | .inAlloc call done todo =>
    (call.run s.pool).map fun r => ({ s with pool := r.1 }, .inAlloc r.2 done todo)
  | .tickling done => some (s, .scheduled done)
  | .scheduled _ => none
  -- run
  | .head => some (s, if s.stop then .leaving else .inGet .get [])
  | .inGet (.got rt tasks) work =>
    some (s, if rt = 0 then .retrying (work ++ tasks) else .peeking (work ++ tasks))
  | .inGet call work => (call.run s.pool).map fun r => ({ s with pool := r.1 }, .inGet r.2 work)
  | .retrying work => some (s, if s.pool.taskCount = 0 then .peeking work else .inGet .get work)
  | .peeking work =>
    some (s, if s.pool.taskCount = 0 then .executing work else .peekingIdle work)
  | .peekingIdle work =>
    some (s, if s.idleThreadCount = 0 then .executing work else .spreading work)
  | .spreading work => some (s, .executing work)
  | .executing [] => some (s, .checkingStop)
  | .executing (task :: work) =>
    some (if task.runnable then { s with started := s.started ++ [task] } else s, .executing work)
  | .checkingStop => some (s, if s.stop then .leaving else .checkingCount)
  | .checkingCount =>
    some (s, if s.pool.taskCount = 0 then .checkingAutoStop else .continuing)
  | .checkingAutoStop => some (s, if s.autoStop then .leaving else .continuing)
  | .continuing => some (s, if s.pool.taskCount = 0 then .idling else .head)
  | .idling => some ({ s with idleThreadCount := s.idleThreadCount + 1 }, .sleeping)
  | .sleeping => some ({ s with idleThreadCount := s.idleThreadCount - 1 }, .head)
  | .leaving => some ({ s with threadsCount := s.threadsCount - 1 }, .left)
  | .left => none
  -- autoStop, then stop; a thread that has left `run` is joined at once
  | .autoStopping => some ({ s with autoStop := true }, .draining)
  | .draining => some (s, if s.pool.taskCount = 0 then .awaiting else .draining)
  | .awaiting => some (s, if s.threadsCount = 0 then .stopping else .awaiting)
  | .stopping => some ({ s with stop := true }, .joining)
  | .joining => some (s, if s.threadsCount = 0 then .stopped else .joining)
  | .stopped => none

def call : Thread κ → Option (PoolCall (TaskCoro20 κ))
  | .inAlloc call _ _ => some call
  | .inGet call _ => some call
  | _ => none

def uncounted (t : Thread κ) : ℕ := t.call.elim 0 PoolCall.uncounted

def unsubtracted (t : Thread κ) : ℕ := t.call.elim 0 PoolCall.unsubtracted

def drains : Thread κ → Bool
  | .draining => true
  | _ => false

def returned : Thread κ → List (TaskCoro20 κ)
  | .scheduled done => done
  | _ => []

end Thread

inductive Action (κ : Type*) where
  | schedule (tasks : List (TaskCoro20 κ))
  | autoStop
  | next (i : ℕ)

namespace Scheduler

def step (w : World (Scheduler κ) (Thread κ)) : Action κ → Option (World (Scheduler κ) (Thread κ))
  | .schedule tasks => some (w.enter (.pushing [] tasks))
  | .autoStop =>
    match w.shared.before with
    | none => some ⟨{ w.shared with before := some (w.calls.map Thread.returned).flatten },
        w.calls ++ [.autoStopping]⟩
    | some _ => none
  | .next i => w.advance Thread.run i

/-- The constructor and `start`: `threadNum` workers and as many nodes. -/
def init (threadNum : ℕ) : World (Scheduler κ) (Thread κ) :=
  ⟨⟨.new threadNum, 0, threadNum, false, false, [], none⟩, List.replicate threadNum .head⟩

def required (s : Scheduler κ) : Tasks κ :=
  (s.before.getD [] : Tasks κ).filter fun task => task.runnable = true

/-- If `autoStop` has returned, the tasks of all `schedule` calls that had returned before it was
entered have been started. -/
def Drained (w : World (Scheduler κ) (Thread κ)) : Prop :=
  .stopped ∈ w.calls → w.shared.required ≤ (w.shared.started : Tasks κ)

/-- When `autoStop` reads a task count of 0, no `schedule` call is between its push and its
increment, and fewer than `2^32` tasks are in the nodes or taken out and not yet subtracted. -/
def CountHolds (w : World (Scheduler κ) (Thread κ)) : Action κ → Prop
  | .next i => w.calls[i]?.any Thread.drains = true → w.shared.pool.taskCount = 0 →
      (∀ t ∈ w.calls, t.uncounted = 0) ∧
        w.shared.pool.stored + (w.calls.map Thread.unsubtracted).sum < 2^32
  | _ => True

instance : (w : World (Scheduler κ) (Thread κ)) → (a : Action κ) → Decidable (CountHolds w a)
  | _, .next _ => inferInstanceAs (Decidable (_ → _ → _ ∧ _))
  | _, .schedule _ => isTrue trivial
  | _, .autoStop => isTrue trivial

end Scheduler

/-! ### One step -/

namespace Thread
variable {s s' : Scheduler κ} {t t' : Thread κ}

def Fits (nodeNum : ℕ) (t : Thread κ) : Prop := ∀ c ∈ t.call, c.Fits nodeNum

def Settled (t : Thread κ) : Prop := t.uncounted = 0 ∧ t.unsubtracted = 0

/-- The tasks a worker has taken out of the pool and not yet come to. -/
def held : Thread κ → Tasks κ
  | .inAlloc call _ _ => call.obtained
  | .inGet call work => (work : Tasks κ) + call.obtained
  | .retrying work | .peeking work | .peekingIdle work | .spreading work | .executing work => work
  | _ => 0

def handled : Thread κ → Tasks κ
  | .pushing done _ | .tickling done | .scheduled done => done
  | .inAlloc call done _ => (done : Tasks κ) + call.pushed
  | .inGet call _ => call.pushed
  | _ => 0

def alive : Thread κ → ℕ
  | .head | .inGet _ _ | .retrying _ | .peeking _ | .peekingIdle _ | .spreading _ | .executing _
  | .checkingStop | .checkingCount | .checkingAutoStop | .continuing | .idling | .sleeping
  | .leaving => 1
  | _ => 0

end Thread

def runnables (m : Tasks κ) : Tasks κ :=
  m.filter fun task => task.runnable = true

theorem runnables_add (m n : Tasks κ) :
    runnables (m + n) = runnables m + runnables n := Multiset.filter_add _ m n

theorem runnables_le {m n : Tasks κ} (h : m ≤ n) : runnables m ≤ runnables n :=
  Multiset.filter_le_filter _ h

theorem runnables_sum (ms : List (Tasks κ)) :
    runnables ms.sum = (ms.map runnables).sum := by
  induction ms with
  | nil => rfl
  | cons m ms ih => rw [List.sum_cons, runnables_add, List.map_cons, List.sum_cons, ih]

namespace Thread
variable {s s' : Scheduler κ} {t t' : Thread κ}

theorem fits_none (h : t.call = none) (n : ℕ) : t.Fits n := by
  intro c hc
  rw [h] at hc
  cases hc

theorem fits_some {c : PoolCall (TaskCoro20 κ)} {n : ℕ} (h : t.call = some c) (hc : c.Fits n) :
    t.Fits n := by
  intro d hd
  rw [h] at hd
  cases hd
  exact hc

/-- A step that leaves the pool alone. -/
structure Quiet (s : Scheduler κ) (t : Thread κ) (s' : Scheduler κ) (t' : Thread κ) : Prop where
  pool : s'.pool = s.pool
  settled : t.Settled
  settled' : t'.Settled
  fits : t'.Fits s.pool.nodes.length
  held : (s'.started : Tasks κ) + runnables t'.held = s.started + runnables t.held
  handled : s.autoStop = false → runnables t'.handled = runnables t.handled

theorem Quiet.silent {u u' : Thread κ} (hp : s'.pool = s.pool) (hs : s'.started = s.started)
    (hc : u.call = none) (hc' : u'.call = none) (hheld : u'.held = u.held)
    (hhandled : u'.handled = u.handled) : Quiet s u s' u' where
  pool := hp
  settled := by simp [Settled, uncounted, unsubtracted, hc]
  settled' := by simp [Settled, uncounted, unsubtracted, hc']
  fits := fits_none hc' _
  held := by rw [hs, hheld]
  handled _ := by rw [hhandled]

theorem Quiet.gets {u : Thread κ} {work : List (TaskCoro20 κ)} (hc : u.call = none)
    (hheld : u.held = work) (hhandled : u.handled = 0) : Quiet s u s (.inGet .get work) where
  pool := rfl
  settled := by simp [Settled, uncounted, unsubtracted, hc]
  settled' := ⟨rfl, rfl⟩
  fits := fits_some rfl trivial
  held := by
    rw [hheld]
    exact congrArg _ (congrArg _ (add_zero _))
  handled _ := by rw [hhandled]; rfl

theorem run_cases (h : run s t = some (s', t')) :
    (∃ c c' done todo p, t = .inAlloc c done todo ∧ t' = .inAlloc c' done todo ∧
        PoolCall.run s.pool c = some (p, c') ∧ s' = { s with pool := p }) ∨
      (∃ c c' work p, t = .inGet c work ∧ t' = .inGet c' work ∧
        PoolCall.run s.pool c = some (p, c') ∧ s' = { s with pool := p }) ∨
      Quiet s t s' t' := by
  cases t with
  | pushing done todo =>
    refine Or.inr (Or.inr ?_)
    cases todo with
    | nil =>
      cases h
      exact .silent rfl rfl rfl rfl rfl rfl
    | cons task todo =>
      simp only [run, Option.some.injEq, Prod.mk.injEq] at h
      obtain ⟨rfl, rfl⟩ := h
      split
      · rename_i hskip
        refine ⟨rfl, ⟨rfl, rfl⟩, ⟨rfl, rfl⟩, fits_none rfl _, rfl, fun hrun => ?_⟩
        have hfin : task.isFinished = true := by simpa [hrun] using hskip
        have hnot : task.runnable = false := by simp [TaskCoro20.runnable, hfin]
        simp [handled, runnables, ← Multiset.coe_add, hnot]
      · refine ⟨rfl, ⟨rfl, rfl⟩, ⟨rfl, rfl⟩, fits_some rfl trivial, rfl, fun _ => ?_⟩
        exact congrArg _ (add_zero _)
  | inAlloc c done todo =>
    cases c with
    | allocated task =>
      cases h
      refine Or.inr (Or.inr ⟨rfl, ⟨rfl, rfl⟩, ⟨rfl, rfl⟩, fits_none rfl _, rfl, fun _ => ?_⟩)
      rfl
    | got rt tasks => cases h
    | _ =>
      cases h
      exact Or.inl ⟨_, _, _, _, _, rfl, rfl, rfl, rfl⟩
  | inGet c work =>
    cases c with
    | got rt tasks =>
      cases h
      refine Or.inr (Or.inr ?_)
      split
      · exact ⟨rfl, ⟨rfl, rfl⟩, ⟨rfl, rfl⟩, fits_none rfl _, rfl, fun _ => rfl⟩
      · exact ⟨rfl, ⟨rfl, rfl⟩, ⟨rfl, rfl⟩, fits_none rfl _, rfl, fun _ => rfl⟩
    | allocated task => cases h
    | _ =>
      cases h
      exact Or.inr (Or.inl ⟨_, _, _, _, rfl, rfl, rfl, rfl⟩)
  | executing work =>
    refine Or.inr (Or.inr ?_)
    cases work with
    | nil =>
      cases h
      exact .silent rfl rfl rfl rfl rfl rfl
    | cons task work =>
      cases h
      refine ⟨?_, ⟨rfl, rfl⟩, ⟨rfl, rfl⟩, fits_none rfl _, ?_, fun _ => rfl⟩
      · split <;> rfl
      · cases hrun : task.runnable with
        | true =>
          simp only [if_true, held, runnables, ← Multiset.cons_coe]
          rw [← Multiset.coe_add, Multiset.coe_singleton, ← Multiset.singleton_add, add_assoc,
            Multiset.filter_add, Multiset.filter_singleton, if_pos hrun]
        | false => simp [held, runnables, ← Multiset.cons_coe, hrun]
  | scheduled done => cases h
  | left => cases h
  | stopped => cases h
  | head =>
    refine Or.inr (Or.inr ?_)
    cases h
    split
    · exact .silent rfl rfl rfl rfl rfl rfl
    · exact .gets rfl rfl rfl
  | retrying work =>
    refine Or.inr (Or.inr ?_)
    cases h
    split
    · exact .silent rfl rfl rfl rfl rfl rfl
    · exact .gets rfl rfl rfl
  | _ =>
    refine Or.inr (Or.inr ?_)
    cases h
    first
      | exact .silent rfl rfl rfl rfl rfl rfl
      | split <;> exact .silent rfl rfl rfl rfl rfl rfl

theorem run_nodes (h : run s t = some (s', t')) :
    s'.pool.nodes.length = s.pool.nodes.length := by
  obtain ⟨c, c', _, _, p, _, _, hrun, rfl⟩ | ⟨c, c', _, p, _, _, hrun, rfl⟩ | hq := run_cases h
  · exact PoolCall.run_length hrun
  · exact PoolCall.run_length hrun
  · rw [hq.pool]

theorem run_fits (hp : 0 < s.pool.nodes.length) (h : run s t = some (s', t')) :
    t'.Fits s.pool.nodes.length := by
  obtain ⟨c, c', _, _, p, _, rfl, hrun, _⟩ | ⟨c, c', _, p, _, rfl, hrun, _⟩ | hq := run_cases h
  · exact fits_some rfl (PoolCall.run_fits hp hrun)
  · exact fits_some rfl (PoolCall.run_fits hp hrun)
  · exact hq.fits

theorem run_count (hc : t.Fits s.pool.nodes.length) (h : run s t = some (s', t')) :
    (s'.pool.taskCount + t'.uncounted + (s.pool.stored + t.unsubtracted)) % 2^32 =
      (s.pool.taskCount + t.uncounted + (s'.pool.stored + t'.unsubtracted)) % 2^32 := by
  obtain ⟨c, c', _, _, p, rfl, rfl, hrun, rfl⟩ | ⟨c, c', _, p, rfl, rfl, hrun, rfl⟩ | hq :=
    run_cases h
  · exact PoolCall.run_count (hc c rfl) hrun
  · exact PoolCall.run_count (hc c rfl) hrun
  · rw [hq.pool, hq.settled.1, hq.settled.2, hq.settled'.1, hq.settled'.2]

end Thread

/-- All tasks that were ever put into a node. -/
def Scheduler.pushed (s : Scheduler κ) : Tasks κ :=
  (s.pool.pushed.map Prod.snd : List (TaskCoro20 κ))

namespace Thread
variable {s s' : Scheduler κ} {t t' : Thread κ}

theorem run_flow (hc : t.Fits s.pool.nodes.length) (h : run s t = some (s', t')) :
    runnables s'.pushed + ((s.started : Tasks κ) + runnables t.held + runnables s.pool.inNodes) =
      runnables s.pushed + (s'.started + runnables t'.held + runnables s'.pool.inNodes) := by
  have hpool : ∀ {c c' : PoolCall (TaskCoro20 κ)} {p : TaskPool (TaskCoro20 κ)}
      (work : Tasks κ), c.Fits s.pool.nodes.length →
      PoolCall.run s.pool c = some (p, c') →
      runnables ((p.pushed.map Prod.snd : List (TaskCoro20 κ)) : Tasks κ) +
          ((s.started : Tasks κ) + runnables (work + (c.obtained : Tasks κ)) + runnables s.pool.inNodes) =
        runnables s.pushed +
          ((s.started : Tasks κ) + runnables (work + (c'.obtained : Tasks κ)) + runnables p.inNodes) := by
    intro c c' p work hfits hrun
    have hbal := congrArg runnables (PoolCall.run_balance hfits hrun)
    simp only [runnables_add] at hbal ⊢
    calc _ = (s.started : Tasks κ) + runnables work +
              (runnables (p.pushed.map Prod.snd : List (TaskCoro20 κ)) +
                runnables c.obtained + runnables s.pool.inNodes) := by abel
      _ = _ := by
          rw [hbal, Scheduler.pushed]
          abel
  obtain ⟨c, c', _, _, p, rfl, rfl, hrun, rfl⟩ | ⟨c, c', work, p, rfl, rfl, hrun, rfl⟩ | hq :=
    run_cases h
  · have hflow := hpool 0 (hc c rfl) hrun
    rw [zero_add, zero_add] at hflow
    exact hflow
  · exact hpool work (hc c rfl) hrun
  · rw [Scheduler.pushed, Scheduler.pushed, hq.pool, hq.held]

theorem run_handled (hstop : s.autoStop = false) (h : run s t = some (s', t')) :
    runnables s'.pushed + runnables t.handled = runnables s.pushed + runnables t'.handled := by
  have hpool : ∀ {c c' : PoolCall (TaskCoro20 κ)} {p : TaskPool (TaskCoro20 κ)}
      (done : Tasks κ), PoolCall.run s.pool c = some (p, c') →
      runnables ((p.pushed.map Prod.snd : List (TaskCoro20 κ)) : Tasks κ) +
        runnables (done + c.pushed) = runnables s.pushed + runnables (done + c'.pushed) := by
    intro c c' p done hrun
    rw [← runnables_add, ← runnables_add, add_left_comm, (PoolCall.run_logs hrun).1,
      Scheduler.pushed, add_left_comm]
  obtain ⟨c, c', done, _, p, rfl, rfl, hrun, rfl⟩ | ⟨c, c', _, p, rfl, rfl, hrun, rfl⟩ | hq :=
    run_cases h
  · exact hpool done hrun
  · have hflow := hpool 0 hrun
    rw [zero_add, zero_add] at hflow
    exact hflow
  · rw [Scheduler.pushed, Scheduler.pushed, hq.pool, hq.handled hstop]

theorem run_records (h : run s t = some (s', t')) :
    s'.before = s.before ∧ s.started <+: s'.started ∧ s.pool.pushed <+: s'.pool.pushed := by
  cases t with
  | pushing done todo => cases todo <;> cases h <;> exact ⟨rfl, List.prefix_rfl, List.prefix_rfl⟩
  | inAlloc c done todo =>
    cases c with
    | adding node task => cases h; exact ⟨rfl, List.prefix_rfl, List.prefix_append ..⟩
    | _ => cases h <;> exact ⟨rfl, List.prefix_rfl, List.prefix_rfl⟩
  | inGet c work =>
    cases c with
    | adding node task => cases h; exact ⟨rfl, List.prefix_rfl, List.prefix_append ..⟩
    | _ => cases h <;> exact ⟨rfl, List.prefix_rfl, List.prefix_rfl⟩
  | executing work =>
    cases work <;> cases h
    · exact ⟨rfl, List.prefix_rfl, List.prefix_rfl⟩
    · split
      · exact ⟨rfl, List.prefix_append .., List.prefix_rfl⟩
      · exact ⟨rfl, List.prefix_rfl, List.prefix_rfl⟩
  | _ => cases h <;> exact ⟨rfl, List.prefix_rfl, List.prefix_rfl⟩

theorem run_keeps (h : run s t = some (s', t')) :
    (s.started : Tasks κ) + runnables t.held ≤ s'.started + runnables t'.held := by
  have hpool : ∀ {c c' : PoolCall (TaskCoro20 κ)} {p : TaskPool (TaskCoro20 κ)},
      PoolCall.run s.pool c = some (p, c') → (c.obtained : Tasks κ) ≤ c'.obtained := by
    intro c c' p hrun
    cases c with
    | getting node => exact Multiset.zero_le _
    | _ => cases hrun <;> exact le_rfl
  obtain ⟨c, c', _, _, p, rfl, rfl, hrun, rfl⟩ | ⟨c, c', work, p, rfl, rfl, hrun, rfl⟩ | hq :=
    run_cases h
  · exact add_le_add_right (runnables_le (hpool hrun)) _
  · exact add_le_add_right (runnables_le (add_le_add_right (hpool hrun) _)) _
  · exact hq.held.ge

def Stops : Thread κ → Prop
  | .autoStopping | .draining | .awaiting | .stopping | .joining | .stopped => True
  | _ => False

/-- `autoStop` has read a task count of 0. -/
def Empty : Thread κ → Prop
  | .awaiting | .stopping | .joining | .stopped => True
  | _ => False

/-- `autoStop` has read a thread count of 0. -/
def Alone : Thread κ → Prop
  | .stopping | .joining | .stopped => True
  | _ => False

def Apt : Thread κ → Prop
  | .inAlloc (.alloc _) _ _ | .inAlloc (.adding _ _) _ _ | .inAlloc (.counting _) _ _
  | .inAlloc (.allocated _) _ _ => True
  | .inAlloc _ _ _ => False
  | _ => True

/-- What a step does apart from moving tasks. -/
theorem run_control (h : run s t = some (s', t')) :
    (t.Apt → t'.Apt) ∧ (t'.Stops → t.Stops) ∧ (s'.autoStop = s.autoStop ∨ t.Stops ∧ s'.autoStop = true) ∧
      (t'.Empty → t.Empty ∨ t = .draining ∧ s' = s ∧ s.pool.taskCount = 0) ∧
      (t'.Alone → t.Alone ∨ t = .awaiting ∧ s' = s ∧ s.threadsCount = 0) ∧
      (s'.threadsCount = s.threadsCount ∧ t'.alive = t.alive ∨
        s'.threadsCount = s.threadsCount - 1 ∧ t.alive = 1 ∧ t'.alive = 0) := by
  cases t with
  | pushing done todo =>
    cases todo <;> cases h
    · exact ⟨id, id, .inl rfl, .inl, .inl, .inl ⟨rfl, rfl⟩⟩
    · split <;> exact ⟨id, id, .inl rfl, .inl, .inl, .inl ⟨rfl, rfl⟩⟩
  | inAlloc c done todo =>
    cases c <;> cases h <;> exact ⟨id, id, .inl rfl, .inl, .inl, .inl ⟨rfl, rfl⟩⟩
  | inGet c work =>
    cases c <;> cases h <;>
      first
        | exact ⟨id, id, .inl rfl, .inl, .inl, .inl ⟨rfl, rfl⟩⟩
        | split <;> exact ⟨id, id, .inl rfl, .inl, .inl, .inl ⟨rfl, rfl⟩⟩
  | executing work =>
    cases work <;> cases h
    · exact ⟨id, id, .inl rfl, .inl, .inl, .inl ⟨rfl, rfl⟩⟩
    · split <;> exact ⟨id, id, .inl rfl, .inl, .inl, .inl ⟨rfl, rfl⟩⟩
  | leaving => cases h; exact ⟨id, id, .inl rfl, .inl, .inl, .inr ⟨rfl, rfl, rfl⟩⟩
  | autoStopping => cases h; exact ⟨id, id, .inr ⟨trivial, rfl⟩, .inl, .inl, .inl ⟨rfl, rfl⟩⟩
  | draining =>
    cases h
    split
    · exact ⟨id, id, .inl rfl, fun _ => .inr ⟨rfl, rfl, ‹_›⟩, .inl, .inl ⟨rfl, rfl⟩⟩
    · exact ⟨id, id, .inl rfl, .inl, .inl, .inl ⟨rfl, rfl⟩⟩
  | awaiting =>
    cases h
    split
    · exact ⟨id, id, .inl rfl, .inl, fun _ => .inr ⟨rfl, rfl, ‹_›⟩, .inl ⟨rfl, rfl⟩⟩
    · exact ⟨id, id, .inl rfl, .inl, .inl, .inl ⟨rfl, rfl⟩⟩
  | scheduled done => cases h
  | left => cases h
  | stopped => cases h
  | _ =>
    cases h
    first
      | exact ⟨id, id, .inl rfl, .inl, .inl, .inl ⟨rfl, rfl⟩⟩
      | split <;> exact ⟨id, id, .inl rfl, .inl, .inl, .inl ⟨rfl, rfl⟩⟩

theorem held_of_not_alive (ht : t.Apt) (h : t.alive = 0) : t.held = 0 := by
  cases t with
  | inAlloc c done todo => cases c <;> first | rfl | cases ht
  | _ => first | rfl | cases h

end Thread

/-! ### Whole runs -/

namespace Scheduler

structure Inv (w : World (Scheduler κ) (Thread κ)) : Prop where
  nodes : 0 < w.shared.pool.nodes.length
  fits : ∀ t ∈ w.calls, t.Fits w.shared.pool.nodes.length
  apt : ∀ t ∈ w.calls, t.Apt
  count : (w.shared.pool.taskCount + (w.calls.map Thread.uncounted).sum) % 2^32 =
    (w.shared.pool.stored + (w.calls.map Thread.unsubtracted).sum) % 2^32
  flow : runnables w.shared.pushed = (w.shared.started : Tasks κ) +
    (w.calls.map fun t => runnables t.held).sum + runnables w.shared.pool.inNodes
  handled : w.shared.autoStop = false →
    runnables w.shared.pushed = (w.calls.map fun t => runnables t.handled).sum
  alive : (w.calls.map Thread.alive).sum = w.shared.threadsCount
  fresh : w.shared.before = none → w.shared.autoStop = false ∧ ∀ t ∈ w.calls, ¬ t.Stops
  required : w.shared.required ≤ runnables w.shared.pushed
  empty : (∃ t ∈ w.calls, t.Empty) → w.shared.required ≤
    (w.shared.started : Tasks κ) + (w.calls.map fun t => runnables t.held).sum
  alone : (∃ t ∈ w.calls, t.Alone) → w.shared.required ≤ (w.shared.started : Tasks κ)

theorem init_inv {threadNum : ℕ} (h : 1 ≤ threadNum) :
    Inv (init threadNum : World (Scheduler κ) _) where
  nodes := by
    simp only [init, TaskPool.new, List.length_replicate]
    omega
  fits t ht := by
    rw [List.eq_of_mem_replicate ht]
    exact Thread.fits_none rfl _
  apt t ht := by
    rw [List.eq_of_mem_replicate ht]
    trivial
  count := by simp [init, TaskPool.new, TaskPool.stored, Thread.uncounted, Thread.unsubtracted,
    Thread.call]
  flow := by simp [init, TaskPool.new, pushed, TaskPool.inNodes, Thread.held, runnables]
  handled _ := by simp [init, TaskPool.new, pushed, Thread.handled, runnables]
  alive := by simp [init, Thread.alive]
  fresh _ := ⟨rfl, fun t ht => by rw [List.eq_of_mem_replicate ht]; exact id⟩
  required := Multiset.zero_le _
  empty _ := Multiset.zero_le _
  alone _ := Multiset.zero_le _

theorem schedule_inv {w : World (Scheduler κ) (Thread κ)} (h : Inv w)
    (tasks : List (TaskCoro20 κ)) : Inv (w.enter (.pushing [] tasks)) where
  nodes := h.nodes
  fits := forall_enter h.fits (Thread.fits_none rfl _)
  apt := forall_enter h.apt trivial
  count := by
    simp only [World.enter, sum_enter]
    exact h.count
  flow := by
    simp only [World.enter, sum_enter, Thread.held, runnables, Multiset.filter_zero, add_zero]
    exact h.flow
  handled hstop := by
    simp only [World.enter, sum_enter, Thread.handled, runnables, Multiset.coe_nil,
      Multiset.filter_zero, add_zero]
    exact h.handled hstop
  alive := by
    simp only [World.enter, sum_enter, Thread.alive, add_zero]
    exact h.alive
  fresh hb := ⟨(h.fresh hb).1, forall_enter (h.fresh hb).2 id⟩
  required := h.required
  empty hex := by
    simp only [World.enter, sum_enter, Thread.held, runnables, Multiset.filter_zero, add_zero]
    exact h.empty (exists_of_enter id hex)
  alone hex := h.alone (exists_of_enter id hex)

theorem autoStop_inv {w : World (Scheduler κ) (Thread κ)} (h : Inv w)
    (hb : w.shared.before = none) :
    Inv ⟨{ w.shared with before := some (w.calls.map Thread.returned).flatten },
      w.calls ++ [.autoStopping]⟩ := by
  obtain ⟨hstop, hnone⟩ := h.fresh hb
  have hfirst : ∀ {P : Thread κ → Prop}, ¬ P .autoStopping → (∀ t, P t → t.Stops) →
      ¬ ∃ t ∈ w.calls ++ [.autoStopping], P t := by
    intro P hnew hstops hex
    obtain ⟨t, ht, hp⟩ := exists_of_enter hnew hex
    exact hnone t ht (hstops t hp)
  refine ⟨h.nodes, forall_enter h.fits (Thread.fits_none rfl _), forall_enter h.apt trivial,
    ?_, ?_, fun _ => ?_, ?_, nofun, ?_, fun hex => ?_, fun hex => ?_⟩
  · simp only [sum_enter]
    exact h.count
  · simp only [sum_enter, Thread.held, runnables, Multiset.filter_zero, add_zero]
    exact h.flow
  · simp only [sum_enter, Thread.handled, runnables, Multiset.filter_zero, add_zero]
    exact h.handled hstop
  · simp only [sum_enter, Thread.alive, add_zero]
    exact h.alive
  · have hle : ∀ t ∈ w.calls, runnables (t.returned : Tasks κ) ≤ runnables t.handled := by
      intro t _
      cases t with
      | scheduled done => exact le_rfl
      | _ => exact Multiset.zero_le _
    calc required { w.shared with before := some (w.calls.map Thread.returned).flatten }
        = runnables ((w.calls.map Thread.returned).flatten : List (TaskCoro20 κ)) := rfl
      _ = (w.calls.map fun t => runnables (t.returned : Tasks κ)).sum := by
          rw [TaskPool.coe_flatten, runnables_sum, List.map_map, List.map_map]
          rfl
      _ ≤ (w.calls.map fun t => runnables t.handled).sum := List.sum_le_sum hle
      _ = runnables w.shared.pushed := (h.handled hstop).symm
  · exact absurd hex (hfirst id fun t => by cases t <;> first | exact id | exact False.elim)
  · exact absurd hex (hfirst id fun t => by cases t <;> first | exact id | exact False.elim)

theorem Inv.nodes_empty {w : World (Scheduler κ) (Thread κ)} (h : Inv w)
    (hzero : w.shared.pool.taskCount = 0) (hun : ∀ t ∈ w.calls, t.uncounted = 0)
    (hsmall : w.shared.pool.stored + (w.calls.map Thread.unsubtracted).sum < 2^32) :
    w.shared.pool.inNodes = 0 := by
  have hsum : (w.calls.map Thread.uncounted).sum = 0 := by
    apply List.sum_eq_zero
    intro n hn
    obtain ⟨t, ht, rfl⟩ := List.mem_map.mp hn
    exact hun t ht
  have hcount := h.count
  rw [hzero, hsum] at hcount
  rw [← Multiset.card_eq_zero, ← TaskPool.stored_eq]
  omega

theorem Inv.nothing_held {w : World (Scheduler κ) (Thread κ)} (h : Inv w)
    (hzero : w.shared.threadsCount = 0) : (w.calls.map fun t => runnables t.held).sum = 0 := by
  apply List.sum_eq_zero
  intro m hm
  obtain ⟨t, ht, rfl⟩ := List.mem_map.mp hm
  have hdead : t.alive = 0 := List.sum_eq_zero_iff_forall_eq_nat.mp (h.alive.trans hzero) _
    (List.mem_map_of_mem ht)
  rw [Thread.held_of_not_alive (h.apt t ht) hdead]
  rfl

theorem advance_inv {w w' : World (Scheduler κ) (Thread κ)} {i : ℕ} (h : Inv w)
    (hguard : CountHolds w (.next i)) (hadvance : w.advance Thread.run i = some w') : Inv w' := by
  obtain ⟨t, s', t', hi, hrun, rfl⟩ := advance_cases hadvance
  have hmem := List.mem_of_getElem? hi
  have hfits := h.fits t hmem
  have hlen := Thread.run_nodes hrun
  obtain ⟨hbefore, hstarted, hpushed⟩ := Thread.run_records hrun
  obtain ⟨hapt, hstops, hauto, hempty, halone, halive⟩ := Thread.run_control hrun
  have hreq : s'.required = w.shared.required := by rw [required, hbefore, required]
  have hheld := sum_set (fun t => runnables t.held) hi t'
  have hkeeps : (w.shared.started : Tasks κ) + (w.calls.map fun t => runnables t.held).sum ≤
      (s'.started : Tasks κ) + ((w.calls.set i t').map fun t => runnables t.held).sum := by
    apply le_of_add_le_add_right (a := runnables t.held)
    calc _ = (w.shared.started : Tasks κ) + runnables t.held +
            (w.calls.map fun t => runnables t.held).sum := by abel
      _ ≤ (s'.started : Tasks κ) + runnables t'.held +
            (w.calls.map fun t => runnables t.held).sum :=
          add_le_add_left (Thread.run_keeps hrun) _
      _ = (s'.started : Tasks κ) + ((w.calls.map fun t => runnables t.held).sum +
            runnables t'.held) := by abel
      _ = _ := by
          rw [← hheld]
          abel
  refine ⟨by rw [hlen]; exact h.nodes, ?_, forall_set h.apt (fun u _ hu => hu) (hapt (h.apt t hmem)),
    ?_, ?_, fun hstop => ?_, ?_, fun hb => ?_, ?_, fun hex => ?_, fun hex => ?_⟩
  · dsimp only
    rw [hlen]
    exact forall_set h.fits (fun u _ hu => hu) (Thread.run_fits h.nodes hrun)
  · have hstep := Thread.run_count hfits hrun
    have hold := h.count
    have hn := sum_set Thread.uncounted hi t'
    have hs := sum_set Thread.unsubtracted hi t'
    dsimp only
    omega
  · have hflow := Thread.run_flow hfits hrun
    rw [h.flow] at hflow
    dsimp only
    apply add_right_cancel
      (b := (w.shared.started : Tasks κ) + runnables t.held + runnables w.shared.pool.inNodes)
    rw [hflow]
    calc _ = (w.shared.started : Tasks κ) + runnables w.shared.pool.inNodes + s'.started +
            runnables s'.pool.inNodes + ((w.calls.map fun t => runnables t.held).sum +
              runnables t'.held) := by abel
      _ = _ := by
          rw [← hheld]
          abel
  · have hold : w.shared.autoStop = false := by
      rcases hauto with hsame | ⟨_, htrue⟩
      · exact hsame.symm.trans hstop
      · exact absurd (htrue.symm.trans hstop) Bool.true_eq_false.mp
    have hstep := Thread.run_handled hold hrun
    rw [h.handled hold, ← sum_set (fun t => runnables t.handled) hi t'] at hstep
    exact add_right_cancel hstep
  · have hsum := sum_set Thread.alive hi t'
    have hold := h.alive
    have hpos := le_sum (f := Thread.alive) hi
    dsimp only
    omega
  · obtain ⟨hstop, hnone⟩ := h.fresh (hbefore.symm.trans hb)
    refine ⟨?_, forall_set hnone (fun u _ hu => hu) (hnone t hmem ∘ hstops)⟩
    rcases hauto with hsame | ⟨hts, _⟩
    · exact hsame.trans hstop
    · exact absurd hts (hnone t hmem)
  · dsimp only
    rw [hreq]
    exact h.required.trans (runnables_le (Multiset.coe_le.mpr (hpushed.sublist.map _).subperm))
  · dsimp only
    rw [hreq]
    refine le_trans ?_ hkeeps
    rcases exists_of_set hex with hnew | hold
    · rcases hempty hnew with hold | ⟨rfl, rfl, hzero⟩
      · exact h.empty ⟨t, hmem, hold⟩
      · obtain ⟨hun, hsmall⟩ := hguard (by rw [hi]; rfl) hzero
        refine h.required.trans (le_of_eq ?_)
        rw [h.flow, h.nodes_empty hzero hun hsmall]
        exact add_zero _
    · exact h.empty hold
  · dsimp only
    rw [hreq]
    refine le_trans ?_ (Multiset.coe_le.mpr hstarted.sublist.subperm)
    rcases exists_of_set hex with hnew | hold
    · rcases halone hnew with hold | ⟨rfl, rfl, hzero⟩
      · exact h.alone ⟨t, hmem, hold⟩
      · refine (h.empty ⟨_, hmem, trivial⟩).trans (le_of_eq ?_)
        rw [h.nothing_held hzero, add_zero]
    · exact h.alone hold

theorem step_inv {w w' : World (Scheduler κ) (Thread κ)} {a : Action κ} (h : Inv w)
    (hguard : CountHolds w a) (hstep : step w a = some w') : Inv w' := by
  cases a with
  | schedule tasks =>
    cases hstep
    exact schedule_inv h tasks
  | autoStop =>
    simp only [step] at hstep
    split at hstep
    · cases hstep
      exact autoStop_inv h ‹_›
    · cases hstep
  | next i => exact advance_inv h hguard hstep

theorem Inv.drained {w : World (Scheduler κ) (Thread κ)} (h : Inv w) : Drained w :=
  fun hstopped => h.alone ⟨_, hstopped, trivial⟩

end Scheduler

/-- In every run in which `autoStop` does not read a count of 0 that leaves out a half-finished
`schedule` or has wrapped around, it returns only after every task scheduled before it was
entered has been started. -/
theorem autoStop_drains_pool {threadNum : ℕ} (hthreads : 1 ≤ threadNum) {acts : List (Action κ)}
    {w : World (Scheduler κ) (Thread κ)}
    (hguard : Guarded Scheduler.step Scheduler.CountHolds (Scheduler.init threadNum) acts)
    (hexec : exec Scheduler.step (Scheduler.init threadNum) acts = some w) :
    Scheduler.Drained w := by
  have hinv : Scheduler.Inv w := by
    refine exec_guarded ?_ (Scheduler.init_inv hthreads) hguard hexec
    intro s a t hs hg hstep
    exact Scheduler.step_inv hs hg hstep
  exact hinv.drained

def task (n : ℕ) : TaskCoro20 ℕ := ⟨n, true, false⟩

def nexts (n i : ℕ) : List (Action ℕ) := List.replicate n (.next i)

def drainedRun : List (Action ℕ) :=
  List.flatten [[.schedule [task 0]], nexts 7 1, [.autoStop], nexts 1 2, nexts 12 0, nexts 4 2]

theorem one_task_started_before_stop :
    ∃ w : World (Scheduler ℕ) (Thread ℕ), 1 ≤ 1 ∧
      Guarded Scheduler.step Scheduler.CountHolds (Scheduler.init 1) drainedRun ∧
      exec Scheduler.step (Scheduler.init 1) drainedRun = some w ∧ .stopped ∈ w.calls ∧
      w.shared.before = some [task 0] ∧ Scheduler.Drained w := by
  have hguard : Guarded Scheduler.step Scheduler.CountHolds (Scheduler.init 1) drainedRun := by
    decide
  exact ⟨_, le_rfl, hguard, rfl, List.mem_of_getElem? (i := 2) rfl, rfl,
    autoStop_drains_pool le_rfl hguard rfl⟩

/-- Two workers. A producer has pushed task 0 and not counted it when task 1 is scheduled; the
first worker takes task 0 and subtracts it, so both it and `autoStop` read a count of 0. -/
def lostRun : List (Action ℕ) :=
  List.flatten [nexts 14 0, nexts 10 1, [.schedule [task 0]], nexts 3 2, [.schedule [task 1]],
    nexts 7 3, [.autoStop], nexts 1 4, nexts 12 0, nexts 2 1, nexts 4 4]

theorem half_finished_schedule_loses_task :
    ¬ ∀ (threadNum : ℕ) (w : World (Scheduler ℕ) (Thread ℕ)), 1 ≤ threadNum →
      Reachable Scheduler.step (Scheduler.init threadNum) w → Scheduler.Drained w := by
  intro hall
  obtain ⟨w, hw, hstopped, hbefore, hstarted⟩ : ∃ w : World (Scheduler ℕ) (Thread ℕ),
      exec Scheduler.step (Scheduler.init 2) lostRun = some w ∧ .stopped ∈ w.calls ∧
        w.shared.before = some [task 1] ∧ w.shared.started = [task 0] :=
    ⟨_, rfl, List.mem_of_getElem? (i := 4) rfl, rfl, rfl⟩
  have hle := hall 2 w (by decide) ⟨lostRun, hw⟩ hstopped
  rw [Scheduler.required, hbefore, hstarted] at hle
  exact absurd (Multiset.mem_of_le hle (show task 1 ∈ _ by decide)) (by decide)

end MSylar.Coro.AutoStop
