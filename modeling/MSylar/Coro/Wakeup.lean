import MSylar.Coro.TaskPool

/-!
# Waking idle workers (scheduler.cc:68-120, scheduler.h:41-81, ioManager.cc:256-328)

Producers push tasks into the pool and write the eventfd; workers take tasks and, once they read a
task count of 0, block in `epoll_wait` until the edge of the eventfd is delivered to them. The
scheduler is not being stopped.
-/

namespace MSylar.Coro.Wakeup
open MSylar.Execution MSylar.Calls
variable {τ : Type*}

/-- `edge`: the eventfd was written since its last edge was delivered or swallowed. -/
structure Scheduler (τ : Type*) where
  pool : TaskPool τ
  idleThreadCount : ℕ
  eventCount : ℕ
  edge : Bool

-- `IOManager::tickle`.
def Scheduler.tickle (s : Scheduler τ) : Scheduler τ :=
  { s with eventCount := s.eventCount + 1, edge := true }

/-- Where a thread is. A producer in `schedule` has the tasks still to push, and `begun` once it
has pushed one; a worker in `run` has its work list. -/
inductive Thread (τ : Type*) where
  | pushing (begun : Bool) (todo : List τ)
  | inAlloc (begun : Bool) (call : PoolCall τ) (todo : List τ)
  | tickling (begun : Bool)
  | scheduled
  | inGet (call : PoolCall τ) (work : List τ)
  | retrying (work : List τ)
  | peeking (work : List τ)
  | peekingIdle (work : List τ)
  | spreading (work : List τ)
  | executing (work : List τ)
  | deciding
  | entering
  | waiting
  | serving
  | woken
  | draining

/-- What the kernel decides: `epoll_wait` returns with the edge of the eventfd or with other
events or none, and a `read` of the eventfd takes a pending edge with it. -/
inductive Kernel where
  | plain
  | edge
  | others
  | swallow

namespace Thread

def run (k : Kernel) (s : Scheduler τ) : Thread τ → Option (Scheduler τ × Thread τ)
  -- schedule: taskAlloc for each task, then tickle
  | .pushing begun [] => some (s, .tickling begun)
  | .pushing begun (task :: todo) => some (s, .inAlloc begun (.alloc task) todo)
  | .inAlloc _ (.allocated _) todo => some (s, .pushing true todo)
  | .inAlloc begun call todo =>
    (call.run s.pool).map fun r => ({ s with pool := r.1 }, .inAlloc begun r.2 todo)
  | .tickling _ => some (s.tickle, .scheduled)
  | .scheduled => none
  -- run: taskGet until it returns tasks or the count is 0
  | .inGet (.got rt tasks) work =>
    some (s, if rt = 0 then .retrying (work ++ tasks) else .peeking (work ++ tasks))
  | .inGet call work => (call.run s.pool).map fun r => ({ s with pool := r.1 }, .inGet r.2 work)
  | .retrying work => some (s, if s.pool.taskCount = 0 then .peeking work else .inGet .get work)
  | .peeking work =>
    some (s, if s.pool.taskCount = 0 then .executing work else .peekingIdle work)
  | .peekingIdle work =>
    some (s, if s.idleThreadCount = 0 then .executing work else .spreading work)
  | .spreading work => some (s.tickle, .executing work)
  | .executing [] => some (s, .deciding)
  | .executing (_ :: work) => some (s, .executing work)
  | .deciding => some (s, if s.pool.taskCount = 0 then .entering else .inGet .get [])
  -- idle: epoll_wait until the eventfd is among the events
  | .entering => some ({ s with idleThreadCount := s.idleThreadCount + 1 }, .waiting)
  | .waiting =>
    match k with
    | .edge => if s.edge then some ({ s with edge := false }, .woken) else none
    | .others => some ({ s with idleThreadCount := s.idleThreadCount - 1 }, .serving)
    | _ => none
  | .serving => some ({ s with idleThreadCount := s.idleThreadCount + 1 }, .waiting)
  | .woken => some ({ s with idleThreadCount := s.idleThreadCount - 1 }, .draining)
  | .draining =>
    if s.eventCount = 0 then some (s, .inGet .get [])
    else
      match k with
      | .swallow => some ({ s with eventCount := 0, edge := false }, .draining)
      | _ => some ({ s with eventCount := 0 }, .draining)

def InFlight : Thread τ → Prop
  | .pushing begun _ => begun = true
  | .inAlloc begun call _ => begun = true ∨ call.pushed ≠ 0
  | .tickling begun => begun = true
  | _ => False

def Awake : Thread τ → Prop
  | .inGet _ _ | .retrying _ | .peeking _ | .peekingIdle _ | .spreading _ | .executing _
  | .deciding | .woken | .draining => True
  | _ => False

def Running : Thread τ → Prop
  | .entering | .serving => True
  | t => t.Awake

def call : Thread τ → Option (PoolCall τ)
  | .inAlloc _ call _ => some call
  | .inGet call _ => some call
  | _ => none

def uncounted (t : Thread τ) : ℕ := t.call.elim 0 PoolCall.uncounted

def unsubtracted (t : Thread τ) : ℕ := t.call.elim 0 PoolCall.unsubtracted

end Thread

inductive SchedulerAction (τ : Type*) where
  | start
  | schedule (tasks : List τ)
  | next (i : ℕ) (k : Kernel)

namespace Scheduler

def step (w : World (Scheduler τ) (Thread τ)) :
    SchedulerAction τ → Option (World (Scheduler τ) (Thread τ))
  | .start => some (w.enter (.inGet .get []))
  | .schedule tasks => some (w.enter (.pushing false tasks))
  | .next i k => w.advance (Thread.run k) i

def init (nodeNum : ℕ) : World (Scheduler τ) (Thread τ) := ⟨⟨.new nodeNum, 0, 0, false⟩, []⟩

/-- Tasks are stored, every worker is blocked, no edge is undelivered and no producer is about to
write the eventfd. -/
def Stranded (w : World (Scheduler τ) (Thread τ)) : Prop :=
  w.shared.pool.stored ≠ 0 ∧ (∀ t ∈ w.calls, ¬ t.Running) ∧ w.shared.edge = false ∧
    ∀ t ∈ w.calls, ¬ t.InFlight

/-- A worker that decides whether to block does not read a count of 0 while `2^32` or more tasks
are in the nodes or taken out and not yet subtracted. -/
def CountHolds (w : World (Scheduler τ) (Thread τ)) : SchedulerAction τ → Prop
  | .next i _ => (match w.calls[i]? with
      | some .deciding => w.shared.pool.taskCount = 0 →
          w.shared.pool.stored + (w.calls.map Thread.unsubtracted).sum < 2^32
      | _ => True)
  | _ => True

end Scheduler

/-! ### One step -/

namespace Thread
variable {k : Kernel} {s s' : Scheduler τ} {t t' : Thread τ}

def Fits (nodeNum : ℕ) (t : Thread τ) : Prop := ∀ c ∈ t.call, c.Fits nodeNum

def Settled (t : Thread τ) : Prop := ∀ c ∈ t.call, c.uncounted = 0 ∧ c.unsubtracted = 0

theorem Settled.zero (h : t.Settled) : t.uncounted = 0 ∧ t.unsubtracted = 0 := by
  unfold uncounted unsubtracted
  cases hc : t.call with
  | none => exact ⟨rfl, rfl⟩
  | some c => exact h c hc

theorem settled_none (h : t.call = none) : t.Settled := by
  intro c hc
  rw [h] at hc
  cases hc

theorem settled_some {c : PoolCall τ} (h : t.call = some c)
    (hc : c.uncounted = 0 ∧ c.unsubtracted = 0) : t.Settled := by
  intro d hd
  rw [h] at hd
  cases hd
  exact hc

theorem fits_none (h : t.call = none) (n : ℕ) : t.Fits n := by
  intro c hc
  rw [h] at hc
  cases hc

theorem fits_some {c : PoolCall τ} {n : ℕ} (h : t.call = some c) (hc : c.Fits n) : t.Fits n := by
  intro d hd
  rw [h] at hd
  cases hd
  exact hc

theorem run_pool (h : run k s t = some (s', t')) :
    (∃ c c', t.call = some c ∧ PoolCall.run s.pool c = some (s'.pool, c') ∧ t'.call = some c') ∨
      s'.pool = s.pool ∧ t.Settled ∧ t'.Settled ∧ t'.Fits s.pool.nodes.length := by
  have hnone : ∀ u u' : Thread τ, u.call = none → u'.call = none →
      u.Settled ∧ u'.Settled ∧ u'.Fits s.pool.nodes.length :=
    fun u u' hu hu' => ⟨settled_none hu, settled_none hu', fits_none hu' _⟩
  have hget : ∀ (u : Thread τ) (work : List τ), u.call = none →
      u.Settled ∧ (inGet PoolCall.get work).Settled ∧
        (inGet PoolCall.get work).Fits s.pool.nodes.length :=
    fun u work hu => ⟨settled_none hu, settled_some rfl ⟨rfl, rfl⟩, fits_some rfl trivial⟩
  cases t with
  | pushing begun todo =>
    cases todo with
    | nil =>
      cases h
      exact Or.inr ⟨rfl, hnone _ _ rfl rfl⟩
    | cons task todo =>
      cases h
      exact Or.inr ⟨rfl, settled_none rfl, settled_some rfl ⟨rfl, rfl⟩, fits_some rfl trivial⟩
  | inAlloc begun c todo =>
    cases c with
    | allocated task =>
      cases h
      exact Or.inr ⟨rfl, settled_some rfl ⟨rfl, rfl⟩, settled_none rfl, fits_none rfl _⟩
    | got rt tasks => cases h
    | _ =>
      cases h
      exact Or.inl ⟨_, _, rfl, rfl, rfl⟩
  | inGet c work =>
    cases c with
    | got rt tasks =>
      cases h
      refine Or.inr ⟨rfl, settled_some rfl ⟨rfl, rfl⟩, ?_⟩
      split
      · exact ⟨settled_none rfl, fits_none rfl _⟩
      · exact ⟨settled_none rfl, fits_none rfl _⟩
    | allocated task => cases h
    | _ =>
      cases h
      exact Or.inl ⟨_, _, rfl, rfl, rfl⟩
  | retrying work =>
    cases h
    refine Or.inr ⟨rfl, ?_⟩
    split
    · exact hnone _ _ rfl rfl
    · exact hget _ _ rfl
  | peeking work =>
    cases h
    refine Or.inr ⟨rfl, ?_⟩
    split
    · exact hnone _ _ rfl rfl
    · exact hnone _ _ rfl rfl
  | peekingIdle work =>
    cases h
    refine Or.inr ⟨rfl, ?_⟩
    split
    · exact hnone _ _ rfl rfl
    · exact hnone _ _ rfl rfl
  | executing work =>
    cases work with
    | nil =>
      cases h
      exact Or.inr ⟨rfl, hnone _ _ rfl rfl⟩
    | cons task work =>
      cases h
      exact Or.inr ⟨rfl, hnone _ _ rfl rfl⟩
  | deciding =>
    cases h
    refine Or.inr ⟨rfl, ?_⟩
    split
    · exact hnone _ _ rfl rfl
    · exact hget _ _ rfl
  | waiting =>
    cases k with
    | edge =>
      simp only [run] at h
      split at h
      · cases h
        exact Or.inr ⟨rfl, hnone _ _ rfl rfl⟩
      · cases h
    | others =>
      cases h
      exact Or.inr ⟨rfl, hnone _ _ rfl rfl⟩
    | plain => cases h
    | swallow => cases h
  | draining =>
    simp only [run] at h
    split at h
    · cases h
      exact Or.inr ⟨rfl, hget _ _ rfl⟩
    · cases k with
      | swallow =>
        cases h
        exact Or.inr ⟨rfl, hnone _ _ rfl rfl⟩
      | _ =>
        cases h
        exact Or.inr ⟨rfl, hnone _ _ rfl rfl⟩
  | scheduled => cases h
  | _ =>
    cases h
    exact Or.inr ⟨rfl, hnone _ _ rfl rfl⟩

theorem run_nodes (h : run k s t = some (s', t')) :
    s'.pool.nodes.length = s.pool.nodes.length := by
  obtain ⟨c, c', _, hrun, _⟩ | ⟨hpool, _⟩ := run_pool h
  · exact PoolCall.run_length hrun
  · rw [hpool]

theorem run_fits (hp : 0 < s.pool.nodes.length) (h : run k s t = some (s', t')) :
    t'.Fits s.pool.nodes.length := by
  obtain ⟨c, c', _, hrun, ht'⟩ | ⟨_, _, _, hfits⟩ := run_pool h
  · exact fits_some ht' (PoolCall.run_fits hp hrun)
  · exact hfits

theorem run_count (hc : t.Fits s.pool.nodes.length) (h : run k s t = some (s', t')) :
    (s'.pool.taskCount + t'.uncounted + (s.pool.stored + t.unsubtracted)) % 2^32 =
      (s.pool.taskCount + t.uncounted + (s'.pool.stored + t'.unsubtracted)) % 2^32 := by
  obtain ⟨c, c', ht, hrun, ht'⟩ | ⟨hpool, hset, hset', _⟩ := run_pool h
  · have hcount := PoolCall.run_count (hc c ht) hrun
    simpa only [uncounted, unsubtracted, ht, ht', Option.elim_some] using hcount
  · rw [hpool, hset.zero.1, hset.zero.2, hset'.zero.1, hset'.zero.2]

def Apt : Thread τ → Prop
  | .inAlloc _ (.alloc _) _ | .inAlloc _ (.adding _ _) _ | .inAlloc _ (.counting _) _
  | .inAlloc _ (.allocated _) _ => True
  | .inAlloc _ _ _ => False
  | _ => True

theorem run_apt (ht : t.Apt) (h : run k s t = some (s', t')) : t'.Apt := by
  cases t with
  | pushing begun todo => cases todo <;> cases h <;> trivial
  | inAlloc begun c todo => cases c <;> cases h <;> trivial
  | inGet c work => cases c <;> cases h <;> first | trivial | (split <;> trivial)
  | executing work => cases work <;> cases h <;> trivial
  | waiting =>
    cases k with
    | edge =>
      simp only [run] at h
      split at h
      · cases h
        trivial
      · cases h
    | _ => cases h <;> trivial
  | draining =>
    simp only [run] at h
    split at h
    · cases h
      trivial
    · cases k <;> cases h <;> trivial
  | retrying work => cases h; split <;> trivial
  | peeking work => cases h; split <;> trivial
  | peekingIdle work => cases h; split <;> trivial
  | deciding => cases h; split <;> trivial
  | scheduled => cases h
  | _ => cases h; trivial

/-- After a step an edge is pending, or the thread that took it will still write the eventfd or
read the count; or it was no such thread before; or it is a worker that has read a count of 0. -/
theorem run_alert (ht : t.Apt) (h : run k s t = some (s', t')) :
    (s'.edge = true ∨ t'.InFlight ∨ t'.Awake) ∨
      (s'.edge = s.edge ∧ s'.pool.stored = s.pool.stored ∧ ¬ t.InFlight ∧ ¬ t.Awake) ∨
      (t = .deciding ∧ s' = s ∧ s.pool.taskCount = 0) := by
  have hawake : t'.Awake → (s'.edge = true ∨ t'.InFlight ∨ t'.Awake) ∨
      (s'.edge = s.edge ∧ s'.pool.stored = s.pool.stored ∧ ¬ t.InFlight ∧ ¬ t.Awake) ∨
      (t = .deciding ∧ s' = s ∧ s.pool.taskCount = 0) := fun ha => Or.inl (Or.inr (Or.inr ha))
  cases t with
  | pushing begun todo =>
    cases begun with
    | true =>
      refine Or.inl (Or.inr (Or.inl ?_))
      cases todo with
      | nil => cases h; rfl
      | cons task todo => cases h; exact Or.inl rfl
    | false =>
      refine Or.inr (Or.inl ?_)
      cases todo <;> cases h <;> exact ⟨rfl, rfl, Bool.false_ne_true, id⟩
  | inAlloc begun c todo =>
    cases c with
    | alloc task =>
      cases h
      cases begun with
      | true => exact Or.inl (Or.inr (Or.inl (Or.inl rfl)))
      | false => exact Or.inr (Or.inl ⟨rfl, rfl, by simp [InFlight, PoolCall.pushed], id⟩)
    | adding node task =>
      cases h
      exact Or.inl (Or.inr (Or.inl (Or.inr (Multiset.singleton_ne_zero task))))
    | counting task =>
      cases h
      exact Or.inl (Or.inr (Or.inl (Or.inr (Multiset.singleton_ne_zero task))))
    | allocated task =>
      cases h
      exact Or.inl (Or.inr (Or.inl rfl))
    | _ => cases ht
  | inGet c work =>
    apply hawake
    cases c <;> cases h <;> first | trivial | (split <;> trivial)
  | tickling begun => cases h; exact Or.inl (Or.inl rfl)
  | scheduled => cases h
  | deciding =>
    cases h
    split
    · exact Or.inr (Or.inr ⟨rfl, rfl, ‹_›⟩)
    · exact Or.inl (Or.inr (Or.inr trivial))
  | entering => cases h; exact Or.inr (Or.inl ⟨rfl, rfl, id, id⟩)
  | serving => cases h; exact Or.inr (Or.inl ⟨rfl, rfl, id, id⟩)
  | waiting =>
    cases k with
    | edge =>
      simp only [run] at h
      split at h
      · cases h
        exact hawake trivial
      · cases h
    | others => cases h; exact Or.inr (Or.inl ⟨rfl, rfl, id, id⟩)
    | plain => cases h
    | swallow => cases h
  | draining =>
    apply hawake
    simp only [run] at h
    split at h
    · cases h
      trivial
    · cases k <;> cases h <;> trivial
  | executing work => apply hawake; cases work <;> cases h <;> trivial
  | retrying work => apply hawake; cases h; split <;> trivial
  | peeking work => apply hawake; cases h; split <;> trivial
  | peekingIdle work => apply hawake; cases h; split <;> trivial
  | _ => apply hawake; cases h; trivial

theorem inFlight_of_uncounted (ht : t.Apt) (h : t.uncounted ≠ 0) : t.InFlight ∨ t.Awake := by
  cases t with
  | inAlloc begun c todo =>
    cases c with
    | counting task => exact Or.inl (Or.inr (Multiset.singleton_ne_zero task))
    | _ => exact absurd rfl h
  | inGet c work => exact Or.inr trivial
  | _ => exact absurd rfl h

end Thread

namespace Scheduler

structure Inv (w : World (Scheduler τ) (Thread τ)) : Prop where
  nodes : 0 < w.shared.pool.nodes.length
  fits : ∀ t ∈ w.calls, t.Fits w.shared.pool.nodes.length
  apt : ∀ t ∈ w.calls, t.Apt
  count : (w.shared.pool.taskCount + (w.calls.map Thread.uncounted).sum) % 2^32 =
    (w.shared.pool.stored + (w.calls.map Thread.unsubtracted).sum) % 2^32
  alert : w.shared.pool.stored ≠ 0 →
    w.shared.edge = true ∨ ∃ t ∈ w.calls, t.InFlight ∨ t.Awake

theorem init_inv {nodeNum : ℕ} (h : 1 ≤ nodeNum) : Inv (init nodeNum : World (Scheduler τ) _) where
  nodes := by
    simp only [init, TaskPool.new, List.length_replicate]
    omega
  fits := by simp [init]
  apt := by simp [init]
  count := by simp [init, TaskPool.new, TaskPool.stored]
  alert h := absurd (by simp [init, TaskPool.new, TaskPool.stored]) h

theorem enter_inv {w : World (Scheduler τ) (Thread τ)} (h : Inv w) {t : Thread τ}
    (hfits : t.Fits w.shared.pool.nodes.length) (hapt : t.Apt) (hset : t.Settled) :
    Inv (w.enter t) where
  nodes := h.nodes
  fits := forall_enter h.fits hfits
  apt := forall_enter h.apt hapt
  count := by
    simp only [World.enter, sum_enter, hset.zero.1, hset.zero.2, add_zero]
    exact h.count
  alert hstored := by
    rcases h.alert hstored with hedge | ⟨u, hu, halert⟩
    · exact Or.inl hedge
    · exact Or.inr ⟨u, List.mem_append_left _ hu, halert⟩

theorem Inv.uncounted {w : World (Scheduler τ) (Thread τ)} (h : Inv w)
    (hcount : w.shared.pool.taskCount = 0) (hstored : w.shared.pool.stored ≠ 0)
    (hsmall : w.shared.pool.stored + (w.calls.map Thread.unsubtracted).sum < 2^32) :
    ∃ t ∈ w.calls, t.uncounted ≠ 0 := by
  by_contra hnone
  push Not at hnone
  have hsum : (w.calls.map Thread.uncounted).sum = 0 := by
    apply List.sum_eq_zero
    intro n hn
    obtain ⟨t, ht, rfl⟩ := List.mem_map.mp hn
    exact hnone t ht
  have hrel := h.count
  rw [hcount, hsum] at hrel
  omega

theorem advance_inv {w w' : World (Scheduler τ) (Thread τ)} {i : ℕ} {k : Kernel} (h : Inv w)
    (hguard : CountHolds w (.next i k)) (hadvance : w.advance (Thread.run k) i = some w') :
    Inv w' := by
  obtain ⟨t, s', t', hi, hrun, rfl⟩ := advance_cases hadvance
  have hmem := List.mem_of_getElem? hi
  have hfits := h.fits t hmem
  have hlen := Thread.run_nodes hrun
  refine ⟨by rw [hlen]; exact h.nodes, ?_, ?_, ?_, fun hstored => ?_⟩
  · dsimp only
    rw [hlen]
    exact forall_set h.fits (fun u _ hu => hu) (Thread.run_fits h.nodes hrun)
  · exact forall_set h.apt (fun u _ hu => hu) (Thread.run_apt (h.apt t hmem) hrun)
  · have hstep := Thread.run_count hfits hrun
    have hold := h.count
    have hn := sum_set Thread.uncounted hi t'
    have hs := sum_set Thread.unsubtracted hi t'
    dsimp only
    omega
  · dsimp only at hstored ⊢
    obtain (hedge | halert) | ⟨hedge, hsame, hflight, hawake⟩ | ⟨rfl, rfl, hzero⟩ :=
      Thread.run_alert (h.apt t hmem) hrun
    · exact Or.inl hedge
    · exact Or.inr ⟨t', mem_set_self hi t', halert⟩
    · rw [hsame] at hstored
      rcases h.alert hstored with hold | ⟨u, hu, halert⟩
      · exact Or.inl (hedge.trans hold)
      · refine Or.inr ⟨u, mem_set_of_ne hi t' hu ?_, halert⟩
        rintro rfl
        exact halert.elim hflight hawake
    · -- the worker goes to sleep: a producer that has not counted its task will write the eventfd
      simp only [CountHolds, hi] at hguard
      obtain ⟨u, hu, hun⟩ := h.uncounted hzero hstored (hguard hzero)
      refine Or.inr ⟨u, mem_set_of_ne hi t' hu ?_, Thread.inFlight_of_uncounted (h.apt u hu) hun⟩
      rintro rfl
      exact hun rfl

theorem step_inv {w w' : World (Scheduler τ) (Thread τ)} {a : SchedulerAction τ} (h : Inv w)
    (hguard : CountHolds w a) (hstep : step w a = some w') : Inv w' := by
  cases a with
  | start =>
    cases hstep
    exact enter_inv h (Thread.fits_some rfl trivial) trivial (Thread.settled_some rfl ⟨rfl, rfl⟩)
  | schedule tasks =>
    cases hstep
    exact enter_inv h (Thread.fits_none rfl _) trivial (Thread.settled_none rfl)
  | next i k => exact advance_inv h hguard hstep

theorem Inv.not_stranded {w : World (Scheduler τ) (Thread τ)} (h : Inv w) : ¬ Stranded w := by
  rintro ⟨hstored, hblocked, hedge, hflight⟩
  rcases h.alert hstored with hpending | ⟨t, ht, halert | hawake⟩
  · rw [hedge] at hpending
    cases hpending
  · exact hflight t ht halert
  · refine hblocked t ht ?_
    cases t <;> first | exact hawake | cases hawake

end Scheduler

/-- In every run in which no worker reads a wrapped count when it decides to block, no task is
left behind with every worker asleep. -/
theorem no_task_stranded {nodeNum : ℕ} (hnodes : 1 ≤ nodeNum) {acts : List (SchedulerAction τ)}
    {w : World (Scheduler τ) (Thread τ)}
    (hguard : Guarded Scheduler.step Scheduler.CountHolds (Scheduler.init nodeNum) acts)
    (hexec : exec Scheduler.step (Scheduler.init nodeNum) acts = some w) :
    ¬ Scheduler.Stranded w := by
  have hinv : Scheduler.Inv w := by
    refine exec_guarded ?_ (Scheduler.init_inv hnodes) hguard hexec
    intro s a t hs hg hstep
    exact Scheduler.step_inv hs hg hstep
  exact hinv.not_stranded

theorem worker_and_producer_not_stranded :
    ∃ w : World (Scheduler Unit) (Thread Unit), 1 ≤ 1 ∧
      Guarded Scheduler.step Scheduler.CountHolds (Scheduler.init 1)
        [.start, .schedule [()], .next 1 .plain] ∧
      exec Scheduler.step (Scheduler.init 1) [.start, .schedule [()], .next 1 .plain] = some w ∧
      ¬ Scheduler.Stranded w := by
  have hguard : Guarded Scheduler.step Scheduler.CountHolds
      (Scheduler.init 1 : World (Scheduler Unit) (Thread Unit))
      [.start, .schedule [()], .next 1 .plain] := by
    refine ⟨trivial, fun t ht => ⟨trivial, fun u hu => ⟨?_, fun _ _ => trivial⟩⟩⟩
    cases ht
    cases hu
    trivial
  exact ⟨_, le_rfl, hguard, rfl, no_task_stranded le_rfl hguard rfl⟩

/-! ### A run of one worker and one producer -/

def follow (st : Scheduler τ × Thread τ) (k : Kernel) : Option (Scheduler τ × Thread τ) :=
  Thread.run k st.1 st.2

theorem exec_follow {s s' : Scheduler τ} {t t' : Thread τ} {ks : List Kernel}
    (h : exec follow (s, t) ks = some (s', t')) (a b : List (Thread τ)) :
    exec Scheduler.step ⟨s, a ++ t :: b⟩ (ks.map (.next a.length)) =
      some ⟨s', a ++ t' :: b⟩ := by
  induction ks generalizing s t with
  | nil =>
    cases h
    rfl
  | cons k ks ih =>
    obtain ⟨⟨s₁, t₁⟩, hrun, hrest⟩ := exec_cons h
    have hstep : Scheduler.step ⟨s, a ++ t :: b⟩ (.next a.length k) =
        some ⟨s₁, a ++ t₁ :: b⟩ := by
      have hget : (a ++ t :: b)[a.length]? = some t := by simp
      have hset : (a ++ t :: b).set a.length t₁ = a ++ t₁ :: b := by simp
      have hnext := @advance_eq _ _ (Thread.run k) ⟨s, a ++ t :: b⟩ _ _ _ _ hget hrun
      rwa [hset] at hnext
    rw [List.map_cons, exec, hstep, Option.bind_some]
    exact ih hrest

theorem follow_execute (s : Scheduler τ) (work : List τ) :
    exec follow (s, .executing work) (List.replicate work.length .plain) =
      some (s, .executing []) := by
  induction work with
  | nil => rfl
  | cons task work ih => exact ih

theorem follow_push (n : ℕ) {s : Scheduler Unit} {l : List Unit} (hnodes : s.pool.nodes = [l])
    (hsmall : s.pool.taskCount < 2^32) (begun : Bool) :
    ∃ (s' : Scheduler Unit) (begun' : Bool),
      Reachable follow (s, .pushing begun (List.replicate n ())) (s', .pushing begun' []) ∧
      s'.pool.nodes = [l ++ List.replicate n ()] ∧
      s'.pool.taskCount = (s.pool.taskCount + n) % 2^32 := by
  induction n generalizing s l begun with
  | zero =>
    exact ⟨s, begun, ⟨[], rfl⟩, by simp [hnodes], (Nat.mod_eq_of_lt hsmall).symm⟩
  | succ n ih =>
    let p := (s.pool.nextAlloc.2.addTask s.pool.nextAlloc.1 ()).count 1
    have hfirst : exec follow (s, .pushing begun (List.replicate (n + 1) ()))
        (List.replicate 5 .plain) = some ({ s with pool := p }, .pushing true (List.replicate n ())) :=
      rfl
    have hnode : s.pool.nextAlloc.1 = 0 := by
      rw [TaskPool.nextAlloc, hnodes]
      exact Nat.mod_one _
    have hp : p.nodes = [l ++ [()]] := by
      show s.pool.nodes.set s.pool.nextAlloc.1 (s.pool.nodes.getD s.pool.nextAlloc.1 [] ++ [()]) = _
      rw [hnode, hnodes]
      rfl
    have hcount₁ : p.taskCount = (s.pool.taskCount + 1) % 2^32 := by
      simp only [p, TaskPool.count, TaskPool.addTask, TaskPool.nextAlloc]
      omega
    obtain ⟨s', begun', ⟨ks, hks⟩, hl, hcount⟩ := @ih { s with pool := p } _ hp
      (by rw [hcount₁]; omega) true
    refine ⟨s', begun', Reachable.exec ⟨_, hfirst⟩ hks, ?_, ?_⟩
    · rw [hl, List.append_assoc, List.replicate_succ]
      rfl
    · rw [hcount, hcount₁]
      omega

theorem spliced_wrapped {l : List Unit} (h : l.length = 2^32 + 15) :
    TaskPool.spliced l 15 = (15, 15) := by
  have hempty : l.isEmpty = false := by
    cases l with
    | nil => cases h
    | cons x l => rfl
  have hint : Word.int32 l.length = 15 := by
    rw [h]
    decide
  rw [TaskPool.spliced, hempty, hint]
  rfl

theorem follow_take {s : Scheduler Unit} {l : List Unit} (hnodes : s.pool.nodes = [l])
    (hlen : l.length = 2^32 + 15) (hcount : s.pool.taskCount = 15) :
    ∃ s' : Scheduler Unit, Reachable follow (s, .inGet .get []) (s', .waiting) ∧
      s'.pool.nodes = [l.drop 15] ∧ s'.edge = s.edge := by
  let r := s.pool.nextLoop.2.getTask s.pool.nextLoop.1
  let s₁ : Scheduler Unit := { s with pool := r.2.2.count (-r.1) }
  have hnode : s.pool.nextLoop.1 = 0 := by
    rw [TaskPool.nextLoop, hnodes]
    exact Nat.mod_one _
  have hr : r = (15, l.take 15, { s.pool.nextLoop.2 with
      nodes := [l.drop 15]
      obtained := s.pool.obtained ++ (l.take 15).map (Prod.mk 0) }) := by
    have hget : s.pool.nextLoop.2.nodes = [l] := hnodes
    simp only [r, hnode, TaskPool.getTask, hget, List.getD_cons_zero, spliced_wrapped hlen]
    rfl
  have hfirst : exec follow (s, .inGet .get []) (List.replicate 3 .plain) =
      some (s₁, .inGet (.got r.1 r.2.1) []) := rfl
  have hzero : s₁.pool.taskCount = 0 := by
    simp only [s₁, hr, TaskPool.count, TaskPool.nextLoop, hcount]
    norm_num
  have hpeek : exec follow (s₁, .inGet (.got r.1 r.2.1) []) (List.replicate 2 .plain) =
      some (s₁, .executing (l.take 15)) := by
    simp only [List.replicate, exec, follow, Thread.run, hr, hzero, Option.bind_some, List.nil_append]
    rfl
  have hsleep : exec follow (s₁, .executing []) (List.replicate 3 .plain) =
      some ({ s₁ with idleThreadCount := s₁.idleThreadCount + 1 }, .waiting) := by
    simp only [List.replicate, exec, follow, Thread.run, hzero, Option.bind_some, if_true]
  have hexecute : exec follow (s₁, .executing (l.take 15)) _ = _ := follow_execute s₁ (l.take 15)
  refine ⟨_, ((Reachable.exec ⟨_, hfirst⟩ hpeek).exec hexecute).exec hsleep, ?_, rfl⟩
  simp only [s₁, hr, TaskPool.count]

theorem Scheduler.reach_follow {w : World (Scheduler τ) (Thread τ)} {s s' : Scheduler τ}
    {t t' : Thread τ} {a b : List (Thread τ)} (h : Reachable Scheduler.step w ⟨s, a ++ t :: b⟩)
    (hfollow : Reachable follow (s, t) (s', t')) :
    Reachable Scheduler.step w ⟨s', a ++ t' :: b⟩ := by
  obtain ⟨ks, hks⟩ := hfollow
  exact h.exec (exec_follow hks a b)

/-- One worker blocks; `2^32 + 15` tasks are scheduled; it wakes up, takes 15 of them, reads a
count of 0 and blocks again. -/
theorem wrapped_count_strands_tasks :
    ¬ ∀ (nodeNum : ℕ) (w : World (Scheduler Unit) (Thread Unit)), 1 ≤ nodeNum →
      Reachable Scheduler.step (Scheduler.init nodeNum) w → ¬ Scheduler.Stranded w := by
  intro hall
  let s₀ : Scheduler Unit := ⟨.new 1, 0, 0, false⟩
  let s₁ : Scheduler Unit := ⟨⟨[[]], 0, 1, 0, [], []⟩, 1, 0, false⟩
  have hblock : exec follow (s₀, .inGet .get []) (List.replicate 9 .plain) = some (s₁, .waiting) :=
    rfl
  have hstart : Reachable Scheduler.step (Scheduler.init 1) ⟨s₀, [] ++ .inGet .get [] :: []⟩ :=
    ⟨[.start], rfl⟩
  have hslept := Scheduler.reach_follow hstart ⟨_, hblock⟩
  have hsched : Reachable Scheduler.step (Scheduler.init 1)
      ⟨s₁, [.waiting] ++ .pushing false (List.replicate (2^32 + 15) ()) :: []⟩ := by
    obtain ⟨acts, hacts⟩ := hslept
    refine ⟨acts ++ [.schedule (List.replicate (2^32 + 15) ())], ?_⟩
    rw [exec_append, hacts]
    rfl
  obtain ⟨s₂, begun, hpush, hnodes, hcount⟩ :=
    follow_push (2^32 + 15) (show s₁.pool.nodes = [[]] from rfl) (by decide) false
  have hfifteen : s₂.pool.taskCount = 15 := by
    rw [hcount]
    simp only [s₁]
    norm_num
  rw [List.nil_append] at hnodes
  have htickle : exec follow (s₂, .pushing begun []) (List.replicate 2 .plain) =
      some (s₂.tickle, .scheduled) := rfl
  obtain ⟨ks, hks⟩ := hpush
  have htickled := Scheduler.reach_follow hsched (Reachable.exec ⟨ks, hks⟩ htickle)
  let s₃ : Scheduler Unit := ⟨s₂.pool, s₂.idleThreadCount - 1, 0, false⟩
  have hwake : exec follow (s₂.tickle, .waiting) [.edge, .plain, .plain, .plain] =
      some (s₃, .inGet .get []) := rfl
  obtain ⟨s₄, htake, hnodes₄, hedge⟩ := 
    follow_take (s := s₃) hnodes List.length_replicate hfifteen
  obtain ⟨ks', hks'⟩ := htake
  have hfinal : Reachable Scheduler.step (Scheduler.init 1) ⟨s₄, [] ++ .waiting :: [.scheduled]⟩ :=
    Scheduler.reach_follow (a := []) htickled (Reachable.exec ⟨_, hwake⟩ hks')
  refine hall 1 _ le_rfl hfinal ⟨?_, ?_, hedge, ?_⟩
  · simp only [TaskPool.stored, hnodes₄, List.map_cons, List.map_nil, List.sum_cons, List.sum_nil,
      List.length_drop, List.length_replicate]
    norm_num
  all_goals
    intro t ht
    simp only [List.nil_append, List.mem_cons, List.not_mem_nil, or_false] at ht
    rcases ht with rfl | rfl <;> exact id

end MSylar.Coro.Wakeup
