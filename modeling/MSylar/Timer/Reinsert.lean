import MSylar.Timer.Sequential
import MSylar.Timer.Threads

/-!
# insertTimeTask and the two readings of the clock

`insertTimeTask` compares the execute time with one reading (`<=`, timer.cc:488) and
`getOrCreateTimerBlock` with a later one (`<`, timer.cc:448). A time between the two is neither due
for the first nor in the future for the second. `runTimeTask` (timer.cc:411-423) re-inserts a
cyclic task after its run and ignores the result.
-/

namespace MSylar.Timer
open MSylar.Word MSylar.Execution MSylar.Calls

namespace TimeManager

/-- The blocks of the map cover the block size from their start on. -/
structure Tiled (m : TimeManager) : Prop where
  wf : m.Wf
  finish : ∀ e ∈ m.timeBlocks.entries, (m.blocks e.2).endTime = add64 e.1 m.blockSizeMs

theorem init_tiled (blockSizeMs baseTime : ℕ) : (init blockSizeMs baseTime).Tiled :=
  ⟨init_wf _ _, by intro e he; cases he⟩

theorem Tiled.congr {m n : TimeManager} (h : m.Tiled) (hb : n.timeBlocks = m.timeBlocks)
    (hh : n.blocks = m.blocks) (hf : n.fresh = m.fresh) (hs : n.blockSizeMs = m.blockSizeMs) :
    n.Tiled := by
  refine ⟨h.wf.congr hb hh hf, ?_⟩
  rw [hb, hh, hs]
  exact h.finish

theorem createBlock_tiled {m : TimeManager} (h : m.Tiled) {start : ℕ}
    (hr : start < add64 start m.blockSizeMs) : (m.createBlock start).2.Tiled := by
  refine ⟨createBlock_wf h.wf hr, ?_⟩
  cases hf : m.timeBlocks.find start with
  | some p =>
    rw [createBlock_found hf]
    exact h.finish
  | none =>
    rw [createBlock_fresh hf]
    intro e he
    rcases Multimap.mem_insert.mp he with rfl | he
    · simp only [Function.update_self, TimerBlock.new]
    · simp only [Function.update_of_ne (h.wf.below e he).ne, h.finish e he]

theorem Tiled.setBlock {m : TimeManager} (h : m.Tiled) {p : ℕ} {b : TimerBlock}
    (hend : b.endTime = (m.blocks p).endTime) (hwf : (m.setBlock p b).Wf) :
    (m.setBlock p b).Tiled := by
  refine ⟨hwf, fun e he => ?_⟩
  rw [← show add64 e.1 m.blockSizeMs = add64 e.1 (m.setBlock p b).blockSizeMs from rfl,
    ← h.finish e he]
  by_cases hp : e.2 = p
  · rw [hp, ← hend]
    simp only [TimeManager.setBlock, Function.update_self]
  · simp only [TimeManager.setBlock, Function.update_of_ne hp]

theorem eraseBlocks_tiled {m : TimeManager} (h : m.Tiled) (now : ℕ) : (m.eraseBlocks now).Tiled :=
  ⟨eraseBlocks_wf h.wf now, fun e he => h.finish e (List.mem_of_mem_filter he)⟩

end TimeManager

/-! ### The store in any interleaving -/

/-- What a call knows of the block it creates or writes to. -/
def Call.Grounded (m : TimeManager) : Call → Prop
  | .creating t start => m.blockRangeOk t.executeMs start = true
  | .placing _ p => p < m.fresh
  | _ => True

theorem Call.Grounded.mono {m n : TimeManager} {c : Call} (h : c.Grounded m)
    (hf : m.fresh ≤ n.fresh) (hs : n.blockSizeMs = m.blockSizeMs) : c.Grounded n := by
  cases c with
  | creating t start => simpa only [Call.Grounded, TimeManager.blockRangeOk, hs] using h
  | placing t p => exact lt_of_lt_of_le h hf
  | _ => trivial

theorem Cont.grounded (m : TimeManager) (k : Cont) :
    k.resume.Grounded m ∧ k.failed.Grounded m := by
  cases k <;> exact ⟨trivial, trivial⟩

theorem createBlock_frame (m : TimeManager) (start : ℕ) :
    m.fresh ≤ (m.createBlock start).2.fresh ∧
      (m.createBlock start).2.blockSizeMs = m.blockSizeMs := by
  cases hf : m.timeBlocks.find start with
  | some p => rw [TimeManager.createBlock_found hf]; exact ⟨le_rfl, rfl⟩
  | none => rw [TimeManager.createBlock_fresh hf]; exact ⟨Nat.le_succ _, rfl⟩

theorem Call.run_tiled {ok : Bool} {s s' : Shared} {c c' : Call} (h : s.store.Tiled)
    (hc : c.Grounded s.store) (hrun : c.run ok s = some (s', c')) :
    s'.store.Tiled ∧ c'.Grounded s'.store ∧ s.store.fresh ≤ s'.store.fresh ∧
      s'.store.blockSizeMs = s.store.blockSizeMs := by
  cases Call.next_of_run hrun with
  | ahead t _ | past t | future t | refuse t p | sooner t | later t _ | trigger | collect now
  | finish | arm e k | lock e now k _ _ => exact ⟨h, trivial, le_rfl, rfl⟩
  | due t | count | fire t ts => exact ⟨h.congr rfl rfl rfl rfl, trivial, le_rfl, rfl⟩
  | found t p hfind => exact ⟨h, h.wf.below _ (Multimap.find_mem hfind), le_rfl, rfl⟩
  | missing t hrange => exact ⟨h, hrange, le_rfl, rfl⟩
  | create t start =>
    simp only [Call.Grounded, TimeManager.blockRangeOk, Bool.and_eq_true, decide_eq_true_eq] at hc
    obtain ⟨hfresh, hsize⟩ := createBlock_frame s.store start
    exact ⟨TimeManager.createBlock_tiled h (lt_of_le_of_lt hc.1 hc.2),
      createBlock_lt h.wf start, hfresh, hsize⟩
  | place t p hrange =>
    exact ⟨h.setBlock rfl (TimeManager.insertInBlock_wf h.wf hc hrange), trivial, le_rfl, rfl⟩
  | drain now p ps expired =>
    exact ⟨h.setBlock rfl (TimeManager.drainBlock_wf h.wf p now), trivial, le_rfl, rfl⟩
  | erase now expired _ hc' =>
    refine ⟨(TimeManager.eraseBlocks_tiled h now).congr rfl rfl rfl rfl, ?_, le_rfl, rfl⟩
    rcases hc' with rfl | ⟨e, rfl⟩ <;> trivial
  | armed e now k _ => exact ⟨h, (k.grounded _).1, le_rfl, rfl⟩
  | set e now k _ => exact ⟨h.congr rfl rfl rfl rfl, (k.grounded _).1, le_rfl, rfl⟩
  | fail e now k _ => exact ⟨h, (k.grounded _).2, le_rfl, rfl⟩

theorem Threads.step_tiled {w w' : Threads} {a : Action}
    (h : w.shared.store.Tiled ∧ ∀ c ∈ w.calls, c.Grounded w.shared.store)
    (hs : w.step a = some w') :
    w'.shared.store.Tiled ∧ ∀ c ∈ w'.calls, c.Grounded w'.shared.store := by
  cases a with
  | tick ms => cases hs; exact h
  | insert task => cases hs; exact ⟨h.1, forall_enter h.2 trivial⟩
  | trigger => cases hs; exact ⟨h.1, forall_enter h.2 trivial⟩
  | next i ok =>
    obtain ⟨c, s, c', hc, hrun, rfl⟩ := advance_cases hs
    obtain ⟨htiled, hown, hfresh, hsize⟩ :=
      Call.run_tiled h.1 (h.2 c (List.mem_of_getElem? hc)) hrun
    exact ⟨htiled, forall_set h.2 (fun d _ hd => hd.mono hfresh hsize) hown⟩

theorem Threads.tiled {blockSizeMs baseTime : ℕ} {as : List Action} {w : Threads}
    (hw : exec Threads.step (Threads.init blockSizeMs baseTime) as = some w) :
    w.shared.store.Tiled := by
  have hinit : (Threads.init blockSizeMs baseTime).shared.store.Tiled ∧
      ∀ c ∈ (Threads.init blockSizeMs baseTime).calls,
        c.Grounded (Threads.init blockSizeMs baseTime).shared.store :=
    ⟨TimeManager.init_tiled _ _, by intro c hc; cases hc⟩
  exact (exec_invariant (fun _ _ _ hi hst => Threads.step_tiled hi hst) hinit hw).1

/-! ### One call -/

namespace TimeManager

/-- The task has been scheduled at once or has been put in a block of the map. -/
def Taken (m : TimeManager) (t : TimeTask) (r : TimeManager) : Prop :=
  (r.scheduled = m.scheduled ++ [t] ∧ r.stored = m.stored) ∨
    (r.scheduled = m.scheduled ∧ (r.stored : Multiset TimeTask) = t ::ₘ m.stored)

/-- The end of the block for the execute time is a `uint64_t`, and so are the times before. -/
def FitsIn (m : TimeManager) (executeTime : ℕ) : Prop :=
  m.baseTime ≤ executeTime ∧
    m.baseTime + (executeTime - m.baseTime) / m.blockSizeMs * m.blockSizeMs + m.blockSizeMs < 2^64

/-- The execute time is not after the first reading, or not before the second. -/
def Timely (m : TimeManager) (executeTime now nowBlock : ℕ) : Prop :=
  executeTime ≤ now ∨ m.blockSizeMs ≠ 0 ∧ nowBlock ≤ executeTime

theorem getOrCreate_tiled {m : TimeManager} (h : m.Tiled) {executeTime now : ℕ}
    (hsize : m.blockSizeMs ≠ 0) (hfits : m.FitsIn executeTime) (hn : now ≤ executeTime) :
    ∃ k p r, m.getOrCreateTimerBlock executeTime now = some (some p, r) ∧ r.Tiled ∧
      (k, p) ∈ r.timeBlocks.entries ∧ r.inRange p executeTime = true ∧ r.stored = m.stored ∧
      r.scheduled = m.scheduled ∧ r.blockSizeMs = m.blockSizeMs ∧ r.baseTime = m.baseTime := by
  obtain ⟨heq, hle, hlt⟩ := blockBegin_eq hfits.1 hfits.2 (Nat.pos_of_ne_zero hsize)
  have hsum : add64 (m.blockBegin executeTime) m.blockSizeMs =
      m.blockBegin executeTime + m.blockSizeMs := add64_of_lt (by rw [heq]; exact hfits.2)
  unfold getOrCreateTimerBlock
  rw [if_neg (not_lt.mpr hn), if_neg hsize]
  -- the block of the map starts where the execute time asks for it, and is as long as a new one
  have hrange : ∀ {r : TimeManager} {p : ℕ}, r.Tiled → r.blockSizeMs = m.blockSizeMs →
      (m.blockBegin executeTime, p) ∈ r.timeBlocks.entries → r.inRange p executeTime = true := by
    intro r p hr hrsize hmem
    have hstart := hr.wf.start _ hmem
    have hfinish := hr.finish _ hmem
    rw [hrsize, hsum] at hfinish
    exact inRange_iff.mpr ⟨hstart.trans_le hle, by rw [hfinish]; exact hlt⟩
  cases hf : m.timeBlocks.find (m.blockBegin executeTime) with
  | some p =>
    have hmem := Multimap.find_mem hf
    exact ⟨_, p, m, by simp only [hf], h, hmem, hrange h rfl hmem, rfl, rfl, rfl, rfl⟩
  | none =>
    have hok : m.blockRangeOk executeTime (m.blockBegin executeTime) = true := by
      simp only [blockRangeOk, hsum, Bool.and_eq_true, decide_eq_true_eq]
      exact ⟨hle, hlt⟩
    have hgrow : m.blockBegin executeTime < add64 (m.blockBegin executeTime) m.blockSizeMs := by
      omega
    have htiled := createBlock_tiled h hgrow
    have hmem := createBlock_mem (m := m) (m.blockBegin executeTime)
    have hst := createBlock_stored h.wf (m.blockBegin executeTime)
    simp only [hf, hok, ite_true]
    refine ⟨_, _, _, rfl, htiled, hmem, hrange htiled (createBlock_frame m _).2 hmem, hst, ?_⟩
    rw [createBlock_fresh hf]
    exact ⟨rfl, rfl, rfl⟩

theorem place_tiled {m : TimeManager} (h : m.Tiled) {k p : ℕ} {task : TimeTask} (now : ℕ)
    (hmem : (k, p) ∈ m.timeBlocks.entries) (hr : m.inRange p task.executeMs = true) :
    ∃ r, m.place task p now true = (0, r) ∧ r.Tiled ∧
      (r.stored : Multiset TimeTask) = task ::ₘ m.stored ∧ r.scheduled = m.scheduled ∧
      r.blockSizeMs = m.blockSizeMs ∧ r.baseTime = m.baseTime := by
  have hst := stored_insertInBlock h.wf hmem task
  have htiled : (m.insertInBlock p task).Tiled :=
    h.setBlock rfl (insertInBlock_wf h.wf (h.wf.below _ hmem) hr)
  unfold place
  rw [if_pos hr]
  dsimp only
  by_cases hlt : task.executeMs < (m.insertInBlock p task).nextTimerTime
  · have hge : ¬ (m.insertInBlock p task).nextTimerTime ≤ task.executeMs := not_le.mpr hlt
    simp only [if_pos hlt, updateTimerFd, if_neg hge, ite_true]
    exact ⟨_, rfl, htiled.congr rfl rfl rfl rfl, hst, rfl, rfl, rfl⟩
  · rw [if_neg hlt]
    exact ⟨_, rfl, htiled.congr rfl rfl rfl rfl, hst, rfl, rfl, rfl⟩

theorem insertTimeTask_timely {m : TimeManager} (h : m.Tiled) {t : TimeTask} {now nowBlock : ℕ}
    (nowFd : ℕ) (hfits : m.FitsIn t.executeMs) (htimely : m.Timely t.executeMs now nowBlock) :
    ∃ r, m.insertTimeTask (some t) now nowBlock nowFd true = some (0, r) ∧ r.Tiled ∧ m.Taken t r ∧
      r.blockSizeMs = m.blockSizeMs ∧ r.baseTime = m.baseTime := by
  by_cases hdue : t.executeMs ≤ now
  · refine ⟨m.schedule t, ?_, h.congr rfl rfl rfl rfl, .inl ⟨rfl, rfl⟩, rfl, rfl⟩
    simp only [insertTimeTask, if_pos hdue]
  · obtain ⟨hsize, hlate⟩ := htimely.resolve_left hdue
    obtain ⟨k, p, r, hget, hr, hmem, hin, hst, hsch, hsz, hbs⟩ := getOrCreate_tiled h hsize hfits hlate
    obtain ⟨q, hplace, hq, hqst, hqsch, hqsz, hqbs⟩ := place_tiled hr nowFd hmem hin
    refine ⟨q, ?_, hq, .inr ⟨hqsch.trans hsch, ?_⟩, hqsz.trans hsz, hqbs.trans hbs⟩
    · simp only [insertTimeTask, if_neg hdue, hget, Option.map_some, hplace]
    · rw [hqst, hst]

theorem insertTimeTask_untimely {m : TimeManager} {t : TimeTask} {now nowBlock : ℕ} (nowFd : ℕ)
    (h : ¬ m.Timely t.executeMs now nowBlock) :
    m.insertTimeTask (some t) now nowBlock nowFd true = none ∨
      m.insertTimeTask (some t) now nowBlock nowFd true = some (-1, m) := by
  obtain ⟨hdue, hlate⟩ := not_or.mp h
  simp only [insertTimeTask, if_neg hdue, getOrCreateTimerBlock]
  by_cases hpast : t.executeMs < nowBlock
  · exact .inr (by rw [if_pos hpast]; rfl)
  · have hsize : m.blockSizeMs = 0 := by
      by_contra hne
      exact hlate ⟨hne, not_lt.mp hpast⟩
    exact .inl (by rw [if_neg hpast, if_pos hsize]; rfl)

theorem scheduleExpired_frame (ts : List TimeTask) (m : TimeManager) :
    (scheduleExpired ts m).timeBlocks = m.timeBlocks ∧ (scheduleExpired ts m).blocks = m.blocks ∧
      (scheduleExpired ts m).fresh = m.fresh ∧
      (scheduleExpired ts m).blockSizeMs = m.blockSizeMs ∧
      (scheduleExpired ts m).baseTime = m.baseTime ∧
      (scheduleExpired ts m).scheduled = m.scheduled ++ ts := by
  unfold scheduleExpired
  induction ts generalizing m with
  | nil => exact ⟨rfl, rfl, rfl, rfl, rfl, (List.append_nil _).symm⟩
  | cons t ts ih =>
    obtain ⟨hmap, hheap, hfresh, hsize, hbase, hsch⟩ := ih (m.fire t)
    refine ⟨hmap, hheap, hfresh, hsize, hbase, ?_⟩
    rw [List.foldl_cons, hsch]
    exact List.append_cons m.scheduled t ts ▸ rfl

theorem rearm_frame (m : TimeManager) (next : Option ℕ) (now : ℕ) (ok : Bool) :
    (m.rearm next now ok).timeBlocks = m.timeBlocks ∧ (m.rearm next now ok).blocks = m.blocks ∧
      (m.rearm next now ok).fresh = m.fresh ∧ (m.rearm next now ok).blockSizeMs = m.blockSizeMs ∧
      (m.rearm next now ok).baseTime = m.baseTime ∧
      (m.rearm next now ok).scheduled = m.scheduled := by
  cases next with
  | none => exact ⟨rfl, rfl, rfl, rfl, rfl, rfl⟩
  | some t =>
    simp only [rearm, updateTimerFd]
    split_ifs <;> exact ⟨rfl, rfl, rfl, rfl, rfl, rfl⟩

/-- A trigger moves the tasks that are due from the blocks to the scheduler. -/
theorem onTimerTriggered_tiled {m : TimeManager} (h : m.Tiled) (now nowFd : ℕ) (ok : Bool) :
    (m.onTimerTriggered now nowFd ok).Tiled ∧
      (m.onTimerTriggered now nowFd ok).scheduled = m.scheduled ++ m.dueTasks now ∧
      (m.onTimerTriggered now nowFd ok).stored = (m.stored.filter fun t => now < t.executeMs) ∧
      (m.onTimerTriggered now nowFd ok).blockSizeMs = m.blockSizeMs ∧
      (m.onTimerTriggered now nowFd ok).baseTime = m.baseTime := by
  obtain ⟨hmap, hsize, hbase, -, hsch, hend⟩ := drained_frame h.wf now
  have hdrained : (m.drained now).Tiled := by
    refine ⟨drain_wf h.wf now _, fun e he => ?_⟩
    rw [hmap] at he
    rw [hend, hsize]
    exact h.finish e he
  have hkept : ((m.drained now).eraseAndReset now).2.Tiled :=
    (eraseBlocks_tiled hdrained now).congr rfl rfl rfl rfl
  have hkeptst : ((m.drained now).eraseAndReset now).2.stored = (m.drained now).stored :=
    (stored_congr rfl rfl).trans (eraseBlocks_stored (drained_over h.wf now))
  obtain ⟨hmap₁, hheap₁, hfresh₁, hsize₁, hbase₁, hsch₁⟩ := rearm_frame
    ((m.drained now).eraseAndReset now).2 ((m.drained now).eraseAndReset now).1 nowFd ok
  obtain ⟨hmap₂, hheap₂, hfresh₂, hsize₂, hbase₂, hsch₂⟩ := scheduleExpired_frame
    (drain now (m.collect now) m).1
    (((m.drained now).eraseAndReset now).2.rearm ((m.drained now).eraseAndReset now).1 nowFd ok)
  refine ⟨?_, ?_, ?_, ?_, ?_⟩
  · exact hkept.congr (hmap₂.trans hmap₁) (hheap₂.trans hheap₁) (hfresh₂.trans hfresh₁)
      (hsize₂.trans hsize₁)
  · refine hsch₂.trans ?_
    rw [hsch₁, drain_expired h.wf now]
    exact congrArg (· ++ m.dueTasks now) hsch
  · exact (stored_congr (hmap₂.trans hmap₁) (hheap₂.trans hheap₁)).trans
      (hkeptst.trans (drain_stored h.wf now))
  · exact (hsize₂.trans hsize₁).trans hsize
  · exact (hbase₂.trans hbase₁).trans hbase

theorem stored_split (m : TimeManager) (now : ℕ) :
    (m.stored : Multiset TimeTask) =
      (m.stored.filter fun t => now < t.executeMs : List TimeTask) +
        (m.dueTasks now : List TimeTask) := by
  rw [Multiset.coe_add, Multiset.coe_eq_coe, dueTasks]
  refine (List.perm_append_comm.trans ?_).symm
  simpa only [← not_le, decide_not] using
    List.filter_append_perm (fun t : TimeTask => decide (t.executeMs ≤ now)) m.stored

end TimeManager

/-! ### Timers that are run and re-inserted -/

/-- `waiting`: the `runTimeTask` coroutines that are scheduled and have not run. `ended`: the tasks
whose `runTimeTask` has left them, being one-shot or canceled. -/
structure Timing where
  store : TimeManager
  waiting : List TimeTask
  canceled : List ℕ
  added : List TimeTask
  ended : List TimeTask

def Timing.init (blockSizeMs baseTime : ℕ) : Timing :=
  ⟨.init blockSizeMs baseTime, [], [], [], []⟩

/-- Whole calls, each with the clock values it reads. -/
inductive Turn where
  | add (task : TimeTask) (now nowBlock nowFd : ℕ)
  | cancel (ref : ℕ)
  | trigger (now nowFd : ℕ)
  | run (i : ℕ) (now nowBlock nowFd : ℕ)

/-- The store after a call; what it scheduled waits to run. -/
def Timing.after (s : Timing) (m : TimeManager) : Timing :=
  { s with store := m, waiting := s.waiting ++ m.scheduled.drop s.store.scheduled.length }

/-- `runTimeTask` with a task whose callbacks have run. -/
def Timing.runTimeTask (s : Timing) (t : TimeTask) (now nowBlock nowFd : ℕ) : Option Timing :=
  if t.ref ∉ s.canceled ∧ t.next.isCycle then
    (s.store.insertTimeTask (some t.next) now nowBlock nowFd true).map fun r => s.after r.2
  else some { s with ended := s.ended ++ [t.next] }

def Timing.step (s : Timing) : Turn → Option Timing
  | .add t now nowBlock nowFd =>
    (s.store.insertTimeTask (some t) now nowBlock nowFd true).map fun r =>
      { s.after r.2 with added := s.added ++ [t] }
  | .cancel ref => some { s with canceled := ref :: s.canceled }
  | .trigger now nowFd => some (s.after (s.store.onTimerTriggered now nowFd true))
  | .run i now nowBlock nowFd => s.waiting[i]?.bind fun t =>
    { s with waiting := s.waiting.eraseIdx i }.runTimeTask t now nowBlock nowFd

/-- The task that a turn gives to `insertTimeTask`, with the two readings. -/
def Timing.inserts (s : Timing) : Turn → Option (TimeTask × ℕ × ℕ)
  | .add t now nowBlock _ => some (t, now, nowBlock)
  | .run i now nowBlock _ => s.waiting[i]?.bind fun t =>
    if t.ref ∉ s.canceled ∧ t.next.isCycle then some (t.next, now, nowBlock) else none
  | _ => none

/-- No insertion has an execute time between its two readings. -/
def timelyGuard (s : Timing) (a : Turn) : Prop :=
  ∀ x ∈ s.inserts a, s.store.FitsIn x.1.executeMs ∧ s.store.Timely x.1.executeMs x.2.1 x.2.2

instance (m : TimeManager) (executeTime : ℕ) : Decidable (m.FitsIn executeTime) :=
  inferInstanceAs (Decidable (_ ∧ _))

instance (m : TimeManager) (executeTime now nowBlock : ℕ) :
    Decidable (m.Timely executeTime now nowBlock) :=
  inferInstanceAs (Decidable (_ ∨ _))

instance (s : Timing) : DecidablePred (timelyGuard s) := fun a =>
  inferInstanceAs (Decidable (∀ x ∈ s.inserts a, _ ∧ _))

/-- Where an added task is: in a block, scheduled, or done with. -/
def Timing.live (s : Timing) : Multiset TimeTask :=
  (s.store.stored : Multiset TimeTask) + s.waiting + s.ended

structure Timing.Inv (s : Timing) : Prop where
  tiled : s.store.Tiled
  refs : s.live.map TimeTask.ref = (s.added : Multiset TimeTask).map TimeTask.ref
  cycles : ∀ t ∈ s.live, ∃ u ∈ s.added, u.ref = t.ref ∧ u.isCycle = t.isCycle
  ended : ∀ t ∈ s.ended, t.isCycle = false ∨ t.ref ∈ s.canceled

theorem Timing.init_inv (blockSizeMs baseTime : ℕ) : (Timing.init blockSizeMs baseTime).Inv where
  tiled := TimeManager.init_tiled _ _
  refs := rfl
  cycles := by intro t ht; cases ht
  ended := by intro t ht; cases ht

theorem Timing.live_taken {s : Timing} {t : TimeTask} {r : TimeManager} (h : s.store.Taken t r) :
    (s.after r).live = t ::ₘ s.live := by
  unfold Timing.live Timing.after
  rcases h with ⟨hsch, hst⟩ | ⟨hsch, hst⟩
  · rw [hsch, List.drop_left, hst, ← Multiset.coe_add, Multiset.coe_singleton,
      ← Multiset.singleton_add]
    abel
  · rw [hsch, List.drop_length, List.append_nil, hst, ← Multiset.singleton_add,
      ← Multiset.singleton_add]
    abel

theorem Timing.live_trigger {s : Timing} (h : s.store.Tiled) (now nowFd : ℕ) :
    (s.after (s.store.onTimerTriggered now nowFd true)).live = s.live := by
  obtain ⟨-, hsch, hst, -, -⟩ := TimeManager.onTimerTriggered_tiled h now nowFd true
  unfold Timing.live Timing.after
  rw [hsch, List.drop_left, hst, s.store.stored_split now, ← Multiset.coe_add]
  abel

/-- A waiting coroutine is taken out of the queue. -/
theorem Timing.live_erase {s : Timing} {i : ℕ} {t : TimeTask} (h : s.waiting[i]? = some t) :
    s.live = t ::ₘ ({ s with waiting := s.waiting.eraseIdx i } : Timing).live := by
  unfold Timing.live
  dsimp only
  rw [coe_eq_cons_erase h, Multiset.add_cons, Multiset.cons_add]

/-- What a turn may do to the tasks: one of them has moved on by `next`. -/
theorem Timing.Inv.moved {s s' : Timing} (h : s.Inv) {t : TimeTask} {l : Multiset TimeTask}
    (hold : s.live = t ::ₘ l) (hnew : s'.live = t.next ::ₘ l) (htiled : s'.store.Tiled)
    (hadded : s'.added = s.added)
    (hended : ∀ u ∈ s'.ended, u.isCycle = false ∨ u.ref ∈ s'.canceled) : s'.Inv := by
  refine ⟨htiled, ?_, ?_, hended⟩
  · rw [hnew, hadded, ← h.refs, hold, Multiset.map_cons, Multiset.map_cons]
    rfl
  · intro u hu
    rw [hadded]
    rw [hnew] at hu
    rcases Multiset.mem_cons.mp hu with rfl | hu
    · exact h.cycles t (hold ▸ Multiset.mem_cons_self t l)
    · exact h.cycles u (hold ▸ Multiset.mem_cons_of_mem hu)

theorem Timing.step_inv {s s' : Timing} {a : Turn} (h : s.Inv) (hg : timelyGuard s a)
    (hs : s.step a = some s') : s'.Inv := by
  cases a with
  | add t now nowBlock nowFd =>
    obtain ⟨hfits, htimely⟩ := hg _ rfl
    obtain ⟨r, hr, htiled, htaken, -, -⟩ :=
      TimeManager.insertTimeTask_timely h.tiled nowFd hfits htimely
    simp only [Timing.step, hr, Option.map_some, Option.some.injEq] at hs
    subst hs
    have hlive : ({ s.after r with added := s.added ++ [t] } : Timing).live = t ::ₘ s.live :=
      Timing.live_taken htaken
    refine ⟨htiled, ?_, ?_, h.ended⟩
    · rw [hlive, Multiset.map_cons, h.refs]
      dsimp only
      rw [← Multiset.coe_add, Multiset.map_add, Multiset.coe_singleton, Multiset.map_singleton,
        add_comm, Multiset.singleton_add]
    · intro u hu
      rw [hlive] at hu
      rcases Multiset.mem_cons.mp hu with rfl | hu
      · exact ⟨u, List.mem_append_right _ (List.mem_singleton_self u), rfl, rfl⟩
      · obtain ⟨v, hv, hcycle⟩ := h.cycles u hu
        exact ⟨v, List.mem_append_left _ hv, hcycle⟩
  | cancel ref =>
    cases hs
    exact ⟨h.tiled, h.refs, h.cycles,
      fun t ht => (h.ended t ht).imp_right (List.mem_cons_of_mem ref)⟩
  | trigger now nowFd =>
    cases hs
    have hlive := Timing.live_trigger h.tiled now nowFd
    refine ⟨(TimeManager.onTimerTriggered_tiled h.tiled now nowFd true).1, ?_, ?_, h.ended⟩
    · rw [hlive]
      exact h.refs
    · rw [hlive]
      exact h.cycles
  | run i now nowBlock nowFd =>
    obtain ⟨t, ht, hrun⟩ := Option.bind_eq_some_iff.mp hs
    have hold := Timing.live_erase ht
    unfold Timing.runTimeTask at hrun
    split_ifs at hrun with hagain
    · obtain ⟨hfits, htimely⟩ := hg (t.next, now, nowBlock) (by
        simp only [Timing.inserts, ht, Option.bind_some, if_pos hagain]
        exact rfl)
      obtain ⟨r, hr, htiled, htaken, -, -⟩ :=
        TimeManager.insertTimeTask_timely h.tiled nowFd hfits htimely
      simp only [hr, Option.map_some, Option.some.injEq] at hrun
      subst hrun
      exact h.moved hold (Timing.live_taken htaken) htiled rfl h.ended
    · cases hrun
      refine h.moved hold ?_ h.tiled rfl ?_
      · unfold Timing.live
        dsimp only
        rw [← Multiset.coe_add, Multiset.coe_singleton, ← Multiset.singleton_add]
        abel
      · intro u hu
        rcases List.mem_append.mp hu with hu | hu
        · exact h.ended u hu
        · cases List.mem_singleton.mp hu
          by_cases hcancel : t.ref ∈ s.canceled
          · exact .inr hcancel
          · exact .inl (Bool.eq_false_iff.mpr fun hcycle => hagain ⟨hcancel, hcycle⟩)

/-- A cyclic task that nobody canceled has not ended. -/
theorem Timing.Inv.keeps_cyclic {s : Timing} (h : s.Inv) {ref : ℕ} (hcancel : ref ∉ s.canceled)
    (hcycle : ∀ t ∈ s.added, t.ref = ref → t.isCycle = true) :
    ((s.store.stored ++ s.waiting).map TimeTask.ref).count ref =
      (s.added.map TimeTask.ref).count ref := by
  have hended : (s.ended.map TimeTask.ref).count ref = 0 := by
    refine List.count_eq_zero.mpr fun hmem => ?_
    obtain ⟨t, ht, rfl⟩ := List.mem_map.mp hmem
    obtain ⟨u, hu, href, hkind⟩ := h.cycles t (Multiset.mem_add.mpr (.inr ht))
    have htrue := hcycle u hu href
    rcases h.ended t ht with hone | hcanceled
    · rw [← hkind, htrue] at hone
      cases hone
    · exact hcancel hcanceled
  have hcount := congrArg (Multiset.count ref) h.refs
  simp only [Timing.live, Multiset.coe_add, Multiset.map_coe, Multiset.coe_count, List.map_append,
    List.count_append] at hcount ⊢
  omega

/-- The first part is about one call in any state that calls in progress at once can leave; the
second about whole runs of timers that are added, run, re-inserted and canceled. -/
theorem insertTimeTask_takes_iff (blockSizeMs baseTime : ℕ) :
    (∀ (as : List Action) (w : Threads),
      exec Threads.step (Threads.init blockSizeMs baseTime) as = some w →
      ∀ (t : TimeTask) (now nowBlock nowFd : ℕ), w.shared.store.FitsIn t.executeMs →
        ((∃ r, w.shared.store.insertTimeTask (some t) now nowBlock nowFd true = some (0, r) ∧
            w.shared.store.Taken t r) ↔
          w.shared.store.Timely t.executeMs now nowBlock)) ∧
    ∀ (turns : List Turn) (s : Timing),
      Guarded Timing.step timelyGuard (Timing.init blockSizeMs baseTime) turns →
      exec Timing.step (Timing.init blockSizeMs baseTime) turns = some s →
      ∀ ref ∉ s.canceled, (∀ t ∈ s.added, t.ref = ref → t.isCycle = true) →
        ((s.store.stored ++ s.waiting).map TimeTask.ref).count ref =
          (s.added.map TimeTask.ref).count ref := by
  constructor
  · intro as w hw t now nowBlock nowFd hfits
    have htiled := Threads.tiled hw
    constructor
    · rintro ⟨r, hr, -⟩
      by_contra hn
      rcases TimeManager.insertTimeTask_untimely nowFd hn with hnone | herror
      · rw [hnone] at hr
        cases hr
      · rw [herror] at hr
        cases hr
    · intro htimely
      obtain ⟨r, hr, -, htaken, -, -⟩ :=
        TimeManager.insertTimeTask_timely htiled nowFd hfits htimely
      exact ⟨r, hr, htaken⟩
  · intro turns s hg hs ref hcancel hcycle
    have hinv := exec_guarded (fun _ _ _ hi hga hst => Timing.step_inv hi hga hst)
      (Timing.init_inv blockSizeMs baseTime) hg hs
    exact hinv.keeps_cyclic hcancel hcycle

def everyFive : TimeTask := .create 1 0 5 true

theorem every_five_taken :
    (∃ r, (TimeManager.init 10 0).insertTimeTask (some everyFive) 4 5 5 true = some (0, r) ∧
      (TimeManager.init 10 0).Taken everyFive r) ∧
    ∃ s, exec Timing.step (Timing.init 10 0) [.add everyFive 0 1 1, .trigger 5 5, .run 0 9 10 10] =
        some s ∧
      ((s.store.stored ++ s.waiting).map TimeTask.ref).count 1 =
        (s.added.map TimeTask.ref).count 1 := by
  obtain ⟨hcall, hruns⟩ := insertTimeTask_takes_iff 10 0
  refine ⟨(hcall [] _ rfl everyFive 4 5 5 (by decide)).mpr (by decide), _, rfl, ?_⟩
  refine hruns [.add everyFive 0 1 1, .trigger 5 5, .run 0 9 10 10] _ (by decide) rfl 1 (by decide) ?_
  intro t ht _
  cases List.mem_singleton.mp ht
  rfl

/-- Due at 5 the task is dropped between the readings 4 and 6; due again at 10 it is dropped by
its own re-insertion. -/
theorem between_readings_dropped :
    (¬ ∃ r, (TimeManager.init 10 0).insertTimeTask (some everyFive) 4 6 6 true = some (0, r)) ∧
    ∃ s, exec Timing.step (Timing.init 10 0) [.add everyFive 0 1 1, .trigger 5 5, .run 0 9 11 11] =
        some s ∧
      s.added = [everyFive] ∧ s.canceled = [] ∧ s.store.stored = [] ∧ s.waiting = [] := by
  refine ⟨?_, _, rfl, rfl, rfl, rfl, rfl⟩
  rintro ⟨r, hr⟩
  cases hr

end MSylar.Timer
