import MSylar.Timer.Threads

/-!
# Re-arming the timerfd while tasks are inserted

`Threads` takes the clean-up of `onTimerTriggered` as one step. Its lock on
`m_mutex` keeps out `getOrCreateTimerBlock`, but neither `TimerBlock::insert`
through a pointer taken before nor a load or store of `m_nextTimerTime`. Here the
clean-up is taken apart: one step per block of the erase loop, one per block of
the search for the next deadline, one for the reset of `m_nextTimerTime`.
`timerfd_settime` succeeds throughout.
-/

namespace MSylar.Timer.Arming
open MSylar.Word MSylar.Execution MSylar.Calls

/-- `mapLocked`: a trigger holds `m_mutex`. `armedFor` is the execute time for which
`timerfd_settime` was last called. -/
structure Timed extends Shared where
  mapLocked : Bool
  armedFor : Option ℕ

inductive Point where
  | call (c : Call)
  -- timer.cc:112-150, from the lock on `m_mutex` to the reset of `m_nextTimerTime`
  | erasing (now : ℕ) (rest : List (ℕ × ℕ)) (expired : List TimeTask)
  | scanning (rest : List (ℕ × ℕ)) (expired : List TimeTask)
  | resetting (next : Option ℕ) (expired : List TimeTask)
  deriving DecidableEq

abbrev Timers := World Timed Point

def Timers.init (blockSizeMs baseTime : ℕ) : Timers :=
  ⟨⟨(Threads.init blockSizeMs baseTime).shared, false, none⟩, []⟩

-- The steps of `Call` that are regions of `m_mutex`.
def takesMap : Call → Bool
  | .lookup _ | .creating _ _ | .collecting _ => true
  | _ => false

def sets : Call → Option ℕ
  | .setting e _ _ => some e
  | _ => none

def eraseBlock (m : TimeManager) (e : ℕ × ℕ) : TimeManager :=
  { m with timeBlocks := m.timeBlocks.filter fun d => d ≠ e }

def rearmFor (next : Option ℕ) (expired : List TimeTask) : Call :=
  match next with
  | some t => .arming t (.fire expired)
  | none => .scheduling expired

def Point.run (s : Timed) : Point → Option (Timed × Point)
  | .call (.draining now [] expired) =>
    if s.mapLocked then none
    else some ({ s with mapLocked := true }, .erasing now s.store.timeBlocks.entries expired)
  | .call c =>
    if takesMap c && s.mapLocked then none
    else (c.run true s.toShared).map fun r =>
      ({ s with toShared := r.1, armedFor := (sets c).or s.armedFor }, .call r.2)
  | .erasing now (e :: es) expired =>
    some ({ s with store := if s.store.erasable now e then eraseBlock s.store e else s.store },
      .erasing now es expired)
  | .erasing _ [] expired => some (s, .scanning s.store.timeBlocks.entries expired)
  | .scanning (e :: es) expired =>
    let t := (s.store.blocks e.2).getNextExecuteTime
    some (s, if t ≠ uint64Max then .resetting (some t) expired else .scanning es expired)
  | .scanning [] expired => some (s, .resetting none expired)
  | .resetting next expired =>
    some ({ s with store := { s.store with nextTimerTime := uint64Max }, mapLocked := false },
      .call (rearmFor next expired))

inductive Action where
  | tick (ms : ℕ)
  | insert (task : TimeTask)
  | trigger
  | next (i : ℕ)

def Timers.step (w : Timers) : Action → Option Timers
  | .tick ms => some ⟨{ w.shared with clock := w.shared.clock + ms }, w.calls⟩
  | .insert task => some (w.enter (.call (.entered task)))
  | .trigger => some (w.enter (.call .triggered))
  | .next i => w.advance Point.run i

/-! ### What is to hold -/

def Point.over : Point → Bool
  | .call (.returned _) | .call .finished => true
  | _ => false

/-- Whenever no call is in progress, `m_nextTimerTime` and the time the timerfd is armed for
are not after any stored task. -/
def Timers.InTime (w : Timers) : Prop :=
  (∀ c ∈ w.calls, c.over = true) → ∀ t ∈ w.shared.store.stored,
    w.shared.store.nextTimerTime ≤ t.executeMs ∧ ∃ e ∈ w.shared.armedFor, e ≤ t.executeMs

/-- What a trigger past the erase loop has yet to read, or has read as its next deadline. -/
def Point.passes : Point → ℕ × ℕ → TimeTask → Prop
  | .scanning rest _, e, _ => e ∈ rest
  | .resetting next _, _, t => ∃ n ∈ next, n ≤ t.executeMs
  | _, _, _ => True

instance (c : Point) (e : ℕ × ℕ) (t : TimeTask) : Decidable (c.passes e t) :=
  match c with
  | .scanning rest _ => inferInstanceAs (Decidable (e ∈ rest))
  | .resetting next _ => inferInstanceAs (Decidable (∃ n ∈ next, n ≤ t.executeMs))
  | .call _ | .erasing _ _ _ => isTrue trivial

def Timers.Covered (w : Timers) (x : ℕ) : Prop :=
  ∀ c ∈ w.calls, ∀ e ∈ w.shared.store.timeBlocks.entries, ∀ t ∈ (w.shared.store.blocks e.2).tasks,
    t.executeMs = x → c.passes e t

instance (w : Timers) (x : ℕ) : Decidable (w.Covered x) :=
  inferInstanceAs (Decidable (∀ c ∈ w.calls, ∀ e ∈ w.shared.store.timeBlocks.entries,
    ∀ t ∈ (w.shared.store.blocks e.2).tasks, t.executeMs = x → c.passes e t))

/-- The execute time for which the next step of an `insertTimeTask` relies on
`m_nextTimerTime`: it finds the value early enough, or stores its own. -/
def Point.relies (nextTimerTime : ℕ) : Point → Option ℕ
  | .call (.comparing t) => if t.executeMs < nextTimerTime then none else some t.executeMs
  | .call (.locking e _ .count) => if nextTimerTime ≤ e then some e else none
  | .call (.setting e _ .count) => some e
  | _ => none

/-- No insertion relies on `m_nextTimerTime` between the time a trigger has passed over its
block and the time this trigger resets `m_nextTimerTime`. -/
def armGuard (w : Timers) : Action → Prop
  | .next i => ∀ x ∈ w.calls[i]?.bind (Point.relies w.shared.store.nextTimerTime), w.Covered x
  | _ => True

instance (w : Timers) : DecidablePred (armGuard w)
  | .next i => inferInstanceAs
      (Decidable (∀ x ∈ w.calls[i]?.bind (Point.relies w.shared.store.nextTimerTime), w.Covered x))
  | .tick _ | .insert _ | .trigger => isTrue trivial

/-! ### The clean-up on its own

Nobody in between, its steps do what `Call.run` does in one. -/

def Point.alone (x : Timed × Point) (_ : Unit) : Option (Timed × Point) := x.2.run x.1

def eraseFrom (m : TimeManager) (now : ℕ) (rest : List (ℕ × ℕ)) : TimeManager :=
  { m with timeBlocks := m.timeBlocks.filter fun d => !(m.erasable now d && decide (d ∈ rest)) }

theorem eraseFrom_nil (m : TimeManager) (now : ℕ) : eraseFrom m now [] = m := by
  have hfilter : m.timeBlocks.filter (fun d => !(m.erasable now d && decide (d ∈ []))) =
      m.timeBlocks := by
    unfold Multimap.filter
    congr 1
    exact List.filter_eq_self.mpr fun d _ => by simp
  unfold eraseFrom
  rw [hfilter]

theorem eraseFrom_cons (m : TimeManager) (now : ℕ) (e : ℕ × ℕ) (es : List (ℕ × ℕ)) :
    eraseFrom (if m.erasable now e then eraseBlock m e else m) now es = eraseFrom m now (e :: es) := by
  split
  · rename_i he
    have hfilter : (m.timeBlocks.filter fun d => d ≠ e).filter
        (fun d => !(m.erasable now d && decide (d ∈ es))) =
        m.timeBlocks.filter fun d => !(m.erasable now d && decide (d ∈ e :: es)) := by
      unfold Multimap.filter
      congr 1
      rw [List.filter_filter]
      refine List.filter_congr fun d _ => ?_
      by_cases hd : d = e
      · simp [hd, he]
      · simp [hd]
    exact congrArg (fun blocks => { m with timeBlocks := blocks }) hfilter
  · rename_i he
    unfold eraseFrom Multimap.filter
    congr 2
    refine List.filter_congr fun d _ => ?_
    by_cases hd : d = e
    · simp [hd, he]
    · simp [hd]

theorem eraseFrom_all (m : TimeManager) (now : ℕ) :
    eraseFrom m now m.timeBlocks.entries = m.eraseBlocks now := by
  unfold eraseFrom TimeManager.eraseBlocks Multimap.filter
  congr 2
  refine List.filter_congr fun d hd => ?_
  simp [hd]

theorem erase_alone (now : ℕ) (expired : List TimeTask) (rest : List (ℕ × ℕ)) (s : Timed) :
    Reachable Point.alone (s, .erasing now rest expired)
      ({ s with store := eraseFrom s.store now rest }, .erasing now [] expired) := by
  induction rest generalizing s with
  | nil =>
    rw [eraseFrom_nil]
    exact ⟨[], rfl⟩
  | cons e es ih =>
    have hnext := ih { s with
      store := if s.store.erasable now e then eraseBlock s.store e else s.store }
    dsimp only at hnext
    rw [eraseFrom_cons] at hnext
    exact Reachable.head (a := ()) rfl hnext

def found (t : ℕ) : Option ℕ := if t ≠ uint64Max then some t else none

theorem scan_alone (expired : List TimeTask) (rest : List (ℕ × ℕ)) (s : Timed) :
    Reachable Point.alone (s, .scanning rest expired)
      (s, .resetting (found (TimeManager.nextTimeFrom s.store.blocks rest)) expired) := by
  induction rest with
  | nil => exact Reachable.head (a := ()) rfl ⟨[], rfl⟩
  | cons e es ih =>
    unfold TimeManager.nextTimeFrom
    dsimp only
    split
    · rename_i ht
      refine Reachable.head (a := ()) ?_ ⟨[], rfl⟩
      simp only [Point.alone, Point.run, if_pos ht, found]
    · rename_i ht
      refine Reachable.head (a := ()) ?_ ih
      simp only [Point.alone, Point.run, if_neg ht]

theorem clean_up_alone (s : Timed) (hfree : s.mapLocked = false) (now : ℕ)
    (expired : List TimeTask) :
    ∃ r, (Call.draining now [] expired).run true s.toShared = some r ∧
      Reachable Point.alone (s, .call (.draining now [] expired))
        ({ s with toShared := r.1 }, .call r.2) := by
  refine ⟨_, rfl, ?_⟩
  have hstart : Point.alone (s, .call (.draining now [] expired)) () = some
      ({ s with mapLocked := true }, .erasing now s.store.timeBlocks.entries expired) := by
    simp only [Point.alone, Point.run, hfree, Bool.false_eq_true, if_false]
  have herase := erase_alone now expired s.store.timeBlocks.entries { s with mapLocked := true }
  dsimp only at herase
  rw [eraseFrom_all] at herase
  have hscan := scan_alone expired (s.store.eraseBlocks now).timeBlocks.entries
    { s with store := s.store.eraseBlocks now, mapLocked := true }
  refine .head hstart (herase.trans (.head (a := ()) rfl (hscan.trans (.head (a := ()) rfl ⟨[], ?_⟩))))
  simp only [exec, ← hfree]
  rfl

/-! ### The layout of the blocks

What is known of an entry of the map stays true after the entry is erased, so it also
holds for the entries a trigger has taken before. -/

structure Placed (m : TimeManager) (e : ℕ × ℕ) : Prop where
  below : e.2 < m.fresh
  start : (m.blocks e.2).startTime = e.1
  aligned : ∃ n, e.1 = m.baseTime + n * m.blockSizeMs
  finish : (m.blocks e.2).endTime ≤ e.1 + m.blockSizeMs
  bound : (m.blocks e.2).endTime ≤ uint64Max

structure Laid (m : TimeManager) : Prop where
  wf : m.Wf
  placed : ∀ e ∈ m.timeBlocks.entries, Placed m e

structure Keeps (m n : TimeManager) : Prop where
  size : n.blockSizeMs = m.blockSizeMs
  base : n.baseTime = m.baseTime
  fresh : m.fresh ≤ n.fresh
  range : ∀ p < m.fresh, (n.blocks p).startTime = (m.blocks p).startTime ∧
    (n.blocks p).endTime = (m.blocks p).endTime

theorem Placed.keeps {m n : TimeManager} {e : ℕ × ℕ} (h : Placed m e) (hk : Keeps m n) :
    Placed n e := by
  obtain ⟨hs, he⟩ := hk.range e.2 h.below
  constructor
  · exact lt_of_lt_of_le h.below hk.fresh
  · rw [hs, h.start]
  · rw [hk.base, hk.size]
    exact h.aligned
  · rw [he, hk.size]
    exact h.finish
  · rw [he]
    exact h.bound

theorem Placed.disjoint {m : TimeManager} {a b : ℕ × ℕ} (ha : Placed m a) (hb : Placed m b)
    (hlt : a.1 < b.1) : (m.blocks a.2).endTime ≤ b.1 := by
  obtain ⟨i, hi⟩ := ha.aligned
  obtain ⟨j, hj⟩ := hb.aligned
  have hfin := ha.finish
  have hij : i < j := by
    by_contra hn
    have hle : j * m.blockSizeMs ≤ i * m.blockSizeMs := Nat.mul_le_mul_right _ (not_lt.mp hn)
    omega
  have hstep : (i + 1) * m.blockSizeMs ≤ j * m.blockSizeMs := Nat.mul_le_mul_right _ hij
  rw [Nat.add_mul, Nat.one_mul] at hstep
  omega

def Holds (m : TimeManager) (e : ℕ × ℕ) (t : TimeTask) : Prop :=
  e ∈ m.timeBlocks.entries ∧ t ∈ (m.blocks e.2).tasks

theorem Laid.holds_range {m : TimeManager} (h : Laid m) {e : ℕ × ℕ} {t : TimeTask}
    (ht : Holds m e t) : e.1 ≤ t.executeMs ∧ t.executeMs < (m.blocks e.2).endTime := by
  have hr := (h.wf.filed e.2).mem_range ht.2
  rwa [(h.placed e ht.1).start] at hr

theorem Laid.lt_max {m : TimeManager} (h : Laid m) {e : ℕ × ℕ} {t : TimeTask}
    (ht : Holds m e t) : t.executeMs < uint64Max :=
  lt_of_lt_of_le (h.holds_range ht).2 (h.placed e ht.1).bound

/-! ### The regions of the store -/

theorem Keeps.of_same {m n : TimeManager} (hs : n.blockSizeMs = m.blockSizeMs)
    (hb : n.baseTime = m.baseTime) (hf : n.fresh = m.fresh) (hh : n.blocks = m.blocks) :
    Keeps m n := by
  refine ⟨hs, hb, hf.ge, fun p _ => ?_⟩
  rw [hh]
  exact ⟨rfl, rfl⟩

theorem Keeps.setBlock {m : TimeManager} {p : ℕ} {b : TimerBlock}
    (hs : b.startTime = (m.blocks p).startTime) (he : b.endTime = (m.blocks p).endTime) :
    Keeps m (m.setBlock p b) := by
  refine ⟨rfl, rfl, le_rfl, fun q _ => ?_⟩
  by_cases hq : q = p
  · subst hq
    simp only [TimeManager.setBlock, Function.update_self, hs, he, and_self]
  · simp only [TimeManager.setBlock, Function.update_of_ne hq, and_self]

theorem createBlock_keeps (m : TimeManager) (start : ℕ) : Keeps m (m.createBlock start).2 := by
  cases hf : m.timeBlocks.find start with
  | some p =>
    rw [TimeManager.createBlock_found hf]
    exact Keeps.of_same rfl rfl rfl rfl
  | none =>
    rw [TimeManager.createBlock_fresh hf]
    refine ⟨rfl, rfl, Nat.le_succ _, fun p hp => ?_⟩
    simp only [Function.update_of_ne hp.ne, and_self]

theorem blockBegin_aligned {m : TimeManager} {executeTime : ℕ} (hb : m.baseTime ≤ executeTime)
    (hr : m.blockRangeOk executeTime (m.blockBegin executeTime) = true) :
    (∃ n, m.blockBegin executeTime = m.baseTime + n * m.blockSizeMs) ∧
      m.blockBegin executeTime < add64 (m.blockBegin executeTime) m.blockSizeMs := by
  simp only [TimeManager.blockRangeOk, Bool.and_eq_true, decide_eq_true_eq] at hr
  have hlt : executeTime < 2^64 := lt_trans hr.2 (Nat.mod_lt _ (by positivity))
  have hlow := Nat.div_mul_le_self (executeTime - m.baseTime) m.blockSizeMs
  refine ⟨⟨(executeTime - m.baseTime) / m.blockSizeMs, ?_⟩, lt_of_le_of_lt hr.1 hr.2⟩
  unfold TimeManager.blockBegin
  rw [sub64_of_le hb hlt, add64_of_lt (by omega)]

theorem createBlock_laid {m : TimeManager} (h : Laid m) {executeTime : ℕ}
    (hb : m.baseTime ≤ executeTime)
    (hr : m.blockRangeOk executeTime (m.blockBegin executeTime) = true) :
    Laid (m.createBlock (m.blockBegin executeTime)).2 := by
  obtain ⟨hal, hgrow⟩ := blockBegin_aligned hb hr
  refine ⟨TimeManager.createBlock_wf h.wf hgrow, ?_⟩
  have hk := createBlock_keeps m (m.blockBegin executeTime)
  cases hf : m.timeBlocks.find (m.blockBegin executeTime) with
  | some p =>
    rw [TimeManager.createBlock_found hf]
    exact h.placed
  | none =>
    rw [TimeManager.createBlock_fresh hf] at hk ⊢
    intro e he
    rcases Multimap.mem_insert.mp he with rfl | he
    · refine ⟨Nat.lt_succ_self _, ?_, hal, ?_, ?_⟩
      · simp only [Function.update_self, TimerBlock.new]
      · simp only [Function.update_self, TimerBlock.new]
        exact Nat.mod_le _ _
      · simp only [Function.update_self, TimerBlock.new]
        exact Nat.le_pred_of_lt (Nat.mod_lt _ (by positivity))
    · exact (h.placed e he).keeps hk

theorem createBlock_holds {m : TimeManager} (h : m.Wf) {start : ℕ} {e : ℕ × ℕ} {t : TimeTask}
    (ht : Holds (m.createBlock start).2 e t) : Holds m e t := by
  cases hf : m.timeBlocks.find start with
  | some p =>
    rwa [TimeManager.createBlock_found hf] at ht
  | none =>
    rw [TimeManager.createBlock_fresh hf] at ht
    obtain ⟨he, ht⟩ := ht
    rcases Multimap.mem_insert.mp he with rfl | he
    · simp only [Function.update_self] at ht
      cases ht
    · simp only [Function.update_of_ne (h.below e he).ne] at ht
      exact ⟨he, ht⟩

theorem setBlock_laid {m : TimeManager} (h : Laid m) {p : ℕ} {b : TimerBlock}
    (hk : Keeps m (m.setBlock p b)) (hwf : (m.setBlock p b).Wf) : Laid (m.setBlock p b) :=
  ⟨hwf, fun e he => (h.placed e he).keeps hk⟩

theorem insertInBlock_holds {m : TimeManager} {p : ℕ} {task t : TimeTask} {e : ℕ × ℕ}
    (ht : Holds (m.insertInBlock p task) e t) : Holds m e t ∨ t = task := by
  obtain ⟨he, ht⟩ := ht
  by_cases hp : e.2 = p
  · subst hp
    simp only [TimeManager.insertInBlock, TimeManager.setBlock, Function.update_self] at ht
    rcases List.mem_cons.mp ((TimerBlock.tasks_insert _ task).mem_iff.mp ht) with rfl | ht
    · exact .inr rfl
    · exact .inl ⟨he, ht⟩
  · simp only [TimeManager.insertInBlock, TimeManager.setBlock, Function.update_of_ne hp] at ht
    exact .inl ⟨he, ht⟩

theorem drainBlock_holds {m : TimeManager} {p now : ℕ} {t : TimeTask} {e : ℕ × ℕ}
    (ht : Holds (m.drainBlock p now).2 e t) : Holds m e t := by
  obtain ⟨he, ht⟩ := ht
  refine ⟨he, ?_⟩
  by_cases hp : e.2 = p
  · subst hp
    simp only [TimeManager.drainBlock, TimeManager.setBlock, Function.update_self] at ht
    rw [← TimerBlock.getAndRemove_append (m.blocks e.2) now]
    exact List.mem_append_right _ ht
  · simpa only [TimeManager.drainBlock, TimeManager.setBlock, Function.update_of_ne hp] using ht

theorem eraseBlock_laid {m : TimeManager} (h : Laid m) (e : ℕ × ℕ) : Laid (eraseBlock m e) := by
  have hsub : (eraseBlock m e).timeBlocks.entries.Sublist m.timeBlocks.entries :=
    List.filter_sublist
  refine ⟨?_, fun d hd => (h.placed d (hsub.subset hd)).keeps (Keeps.of_same rfl rfl rfl rfl)⟩
  constructor
  · exact h.wf.keys.sublist hsub
  · exact h.wf.addrs.sublist (hsub.map Prod.snd)
  · exact fun d hd => h.wf.below d (hsub.subset hd)
  · exact fun d hd => h.wf.start d (hsub.subset hd)
  · exact fun d hd => h.wf.range d (hsub.subset hd)
  · exact h.wf.filed
  · exact h.wf.unused

theorem nextExecuteTime_spec {m : TimeManager} (h : Laid m) {e : ℕ × ℕ} (he : Placed m e) :
    ((m.blocks e.2).getNextExecuteTime = uint64Max → (m.blocks e.2).tasks = []) ∧
      ((m.blocks e.2).getNextExecuteTime ≠ uint64Max →
        (m.blocks e.2).getNextExecuteTime < (m.blocks e.2).endTime ∧
        ∀ t ∈ (m.blocks e.2).tasks, (m.blocks e.2).getNextExecuteTime ≤ t.executeMs) := by
  have hfiled := h.wf.filed e.2
  have hsorted := (m.blocks e.2).timeTasks.sorted
  have hb := he.bound
  unfold TimerBlock.Filed at hfiled
  unfold TimerBlock.getNextExecuteTime TimerBlock.tasks
  cases hl : (m.blocks e.2).timeTasks.entries with
  | nil => exact ⟨fun _ => rfl, fun hn => absurd rfl hn⟩
  | cons x xs =>
    rw [hl] at hfiled hsorted
    have hx := hfiled x (List.mem_cons_self ..)
    refine ⟨fun heq => ?_, fun _ => ⟨hx.2.2, fun t ht => ?_⟩⟩
    · dsimp only at heq
      omega
    · obtain ⟨y, hy, rfl⟩ := List.mem_map.mp ht
      rw [← (hfiled y hy).1]
      rcases List.mem_cons.mp hy with rfl | hy
      · exact le_rfl
      · exact (List.pairwise_cons.mp hsorted).1 y hy

/-! ### The invariant

A stored task is safe by the value of `m_nextTimerTime` or by a call that still has
to look at this value for an execute time not after it. A trigger that has passed over the
block of a task, or has settled on a later deadline, must find the task pledged by its own
insertion: what the others rely on is about to be reset. -/

def Point.pledge : Point → Option ℕ
  | .call (.comparing t) => some t.executeMs
  | .call (.arming e _) | .call (.locking e _ _) | .call (.setting e _ _) => some e
  | _ => none

def Point.claims : Point → Option ℕ
  | .call (.comparing t) => some t.executeMs
  | .call (.arming e .count) | .call (.locking e _ .count) | .call (.setting e _ .count) => some e
  | _ => none

theorem Point.pledge_of_claims {c : Point} {x : ℕ} (h : c.claims = some x) : c.pledge = some x := by
  unfold claims at h
  split at h <;> first | exact h | cases h

def Timers.Pledged (w : Timers) (x : ℕ) : Prop :=
  w.shared.store.nextTimerTime ≤ x ∨ ∃ c ∈ w.calls, ∃ n ∈ c.pledge, n ≤ x

def Timers.Claimed (w : Timers) (x : ℕ) : Prop := ∃ c ∈ w.calls, c.claims = some x

def Point.setsFd : Point → ℕ
  | .call (.setting _ _ _) => 1
  | _ => 0

def PointOk (m : TimeManager) : Point → Prop
  | .call (.checking t) | .call (.lookup t) => m.baseTime ≤ t.executeMs
  | .call (.creating t start) => m.baseTime ≤ t.executeMs ∧ start = m.blockBegin t.executeMs ∧
      m.blockRangeOk t.executeMs start = true
  | .call (.placing _ p) => p < m.fresh
  | .call (.setting e _ _) => e ≤ m.nextTimerTime
  | .scanning rest _ => rest.Pairwise (fun a b => a.1 < b.1) ∧ ∀ e ∈ rest, Placed m e
  | _ => True

structure Timers.Inv (w : Timers) : Prop where
  laid : Laid w.shared.store
  clock : w.shared.store.baseTime ≤ w.shared.clock
  max : w.shared.store.nextTimerTime ≤ uint64Max
  calls : ∀ c ∈ w.calls, PointOk w.shared.store c
  pledged : ∀ e t, Holds w.shared.store e t → w.Pledged t.executeMs
  passed : ∀ c ∈ w.calls, ∀ e t, Holds w.shared.store e t →
    c.passes e t ∨ w.Claimed t.executeMs
  fd : (w.calls.map Point.setsFd).sum = w.shared.fdLocked.toNat
  armed : w.shared.store.nextTimerTime = uint64Max ∨
    w.shared.armedFor = some w.shared.store.nextTimerTime

theorem PointOk.keeps {m n : TimeManager} {c : Point} (h : PointOk m c) (hk : Keeps m n)
    (hn : m.nextTimerTime ≤ n.nextTimerTime) : PointOk n c := by
  cases c with
  | call c =>
    cases c with
    | checking t | lookup t =>
      simp only [PointOk, hk.base] at h ⊢
      exact h
    | creating t start =>
      simp only [PointOk, TimeManager.blockBegin, TimeManager.blockRangeOk, hk.base,
        hk.size] at h ⊢
      exact h
    | placing t p => exact lt_of_lt_of_le h hk.fresh
    | setting e now k => exact le_trans h hn
    | _ => trivial
  | scanning rest expired => exact ⟨h.1, fun e he => (h.2 e he).keeps hk⟩
  | _ => trivial

theorem Timers.init_inv (blockSizeMs baseTime : ℕ) : (Timers.init blockSizeMs baseTime).Inv where
  laid := ⟨TimeManager.init_wf _ _, by intro e he; cases he⟩
  clock := le_rfl
  max := le_rfl
  calls := by intro c hc; cases hc
  pledged := by intro e t ht; cases ht.1
  passed := by intro c hc; cases hc
  fd := rfl
  armed := .inl rfl

-- One call moves on. Whoever gives up its claim on an execute time needs every trigger to
-- cover this time.
theorem Timers.Inv.advance {w : Timers} (h : w.Inv) {i : ℕ} {c c' : Point} {s : Timed}
    (hc : w.calls[i]? = some c) (hlaid : Laid s.store) (hclock : s.store.baseTime ≤ s.clock)
    (hmax : s.store.nextTimerTime ≤ uint64Max)
    (hcalls : ∀ d ∈ w.calls.set i c', PointOk s.store d)
    (hholds : ∀ e t, Holds s.store e t →
      Holds w.shared.store e t ∨ c'.claims = some t.executeMs)
    (hpledged : ∀ e t, Holds s.store e t → Timers.Pledged ⟨s, w.calls.set i c'⟩ t.executeMs)
    (hpass : ∀ e t, Holds s.store e t → c.passes e t → c'.passes e t)
    (hclaim : ∀ x, c.claims = some x → c'.claims = some x ∨ w.Covered x)
    (hfd : c'.setsFd + w.shared.fdLocked.toNat = c.setsFd + s.fdLocked.toNat)
    (harmed : s.store.nextTimerTime = uint64Max ∨ s.armedFor = some s.store.nextTimerTime) :
    Timers.Inv ⟨s, w.calls.set i c'⟩ := by
  refine ⟨hlaid, hclock, hmax, hcalls, hpledged, ?_, ?_, harmed⟩
  · intro d hd e t ht
    rcases hholds e t ht with hold | hnew
    swap
    · exact .inr ⟨c', mem_set_self hc c', hnew⟩
    have hmove : w.Claimed t.executeMs →
        (∀ b ∈ w.calls, b.passes e t) ∨ Timers.Claimed ⟨s, w.calls.set i c'⟩ t.executeMs := by
      intro hown
      by_cases hcov : w.Covered t.executeMs
      · exact .inl fun b hb => hcov b hb e hold.1 t hold.2 rfl
      · exact .inr (exists_set hc (fun hx => (hclaim _ hx).resolve_right hcov) hown)
    rcases List.mem_or_eq_of_mem_set hd with hd | rfl
    · rcases h.passed d hd e t hold with hp | hown
      · exact .inl hp
      · exact (hmove hown).imp_left fun hall => hall d hd
    · have hmem := List.mem_of_getElem? hc
      rcases h.passed c hmem e t hold with hp | hown
      · exact .inl (hpass e t ht hp)
      · exact (hmove hown).imp_left fun hall => hpass e t ht (hall c hmem)
  · have hsum := sum_set Point.setsFd hc c'
    have hfd' := h.fd
    dsimp only at hsum ⊢
    omega

theorem Timers.Pledged.set {w : Timers} {i : ℕ} {c c' : Point} {s : Timed} {x : ℕ}
    (h : w.Pledged x) (hc : w.calls[i]? = some c)
    (hn : s.store.nextTimerTime ≤ w.shared.store.nextTimerTime)
    (hp : ∀ n ∈ c.pledge, n ∈ c'.pledge ∨ s.store.nextTimerTime ≤ n) :
    Timers.Pledged ⟨s, w.calls.set i c'⟩ x := by
  by_cases hx : s.store.nextTimerTime ≤ x
  · exact .inl hx
  · rcases h with h | h
    · exact absurd (hn.trans h) hx
    · refine .inr (exists_set hc ?_ h)
      rintro ⟨n, hn', hle⟩
      rcases hp n hn' with hp | hp
      · exact ⟨n, hp, hle⟩
      · exact absurd (hp.trans hle) hx

theorem Timers.Inv.advance_keep {w : Timers} (h : w.Inv) {i : ℕ} {c c' : Point} {s : Timed}
    (hc : w.calls[i]? = some c) (hlaid : Laid s.store) (hk : Keeps w.shared.store s.store)
    (hclock : s.clock = w.shared.clock)
    (hnext : s.store.nextTimerTime = w.shared.store.nextTimerTime)
    (harm : s.armedFor = w.shared.armedFor) (hown : PointOk s.store c')
    (hholds : ∀ e t, Holds s.store e t →
      Holds w.shared.store e t ∨ c'.claims = some t.executeMs)
    (hpledge : ∀ n ∈ c.pledge, n ∈ c'.pledge ∨ w.shared.store.nextTimerTime ≤ n)
    (hpass : ∀ e t, Holds s.store e t → c.passes e t → c'.passes e t)
    (hclaim : ∀ x, c.claims = some x → c'.claims = some x ∨ w.Covered x)
    (hfd : c'.setsFd + w.shared.fdLocked.toNat = c.setsFd + s.fdLocked.toNat) :
    Timers.Inv ⟨s, w.calls.set i c'⟩ := by
  refine h.advance hc hlaid ?_ ?_ ?_ hholds ?_ hpass hclaim hfd ?_
  · rw [hk.base, hclock]
    exact h.clock
  · rw [hnext]
    exact h.max
  · exact forall_set h.calls (fun d _ hd => hd.keeps hk hnext.ge) hown
  · intro e t ht
    rcases hholds e t ht with hold | hnew
    · refine (h.pledged e t hold).set hc hnext.le ?_
      rw [hnext]
      exact hpledge
    · exact .inr ⟨c', mem_set_self hc c', _, Point.pledge_of_claims hnew, le_rfl⟩
  · rw [hnext, harm]
    exact h.armed

structure Same (m n : TimeManager) : Prop where
  timeBlocks : n.timeBlocks = m.timeBlocks
  blocks : n.blocks = m.blocks
  fresh : n.fresh = m.fresh
  size : n.blockSizeMs = m.blockSizeMs
  base : n.baseTime = m.baseTime
  next : n.nextTimerTime = m.nextTimerTime

theorem Same.refl (m : TimeManager) : Same m m := ⟨rfl, rfl, rfl, rfl, rfl, rfl⟩

theorem Same.schedule (m : TimeManager) (t : TimeTask) : Same m (m.schedule t) :=
  ⟨rfl, rfl, rfl, rfl, rfl, rfl⟩

theorem Same.countTimer (m : TimeManager) : Same m m.countTimer := ⟨rfl, rfl, rfl, rfl, rfl, rfl⟩

theorem Same.fire (m : TimeManager) (t : TimeTask) : Same m (m.fire t) :=
  ⟨rfl, rfl, rfl, rfl, rfl, rfl⟩

theorem Same.keeps {m n : TimeManager} (h : Same m n) : Keeps m n :=
  .of_same h.size h.base h.fresh h.blocks

theorem Same.holds {m n : TimeManager} (h : Same m n) {e : ℕ × ℕ} {t : TimeTask}
    (ht : Holds n e t) : Holds m e t := by
  unfold Holds at ht
  rwa [h.timeBlocks, h.blocks] at ht

theorem Same.laid {m n : TimeManager} (h : Same m n) (hl : Laid m) : Laid n := by
  refine ⟨hl.wf.congr h.timeBlocks h.blocks h.fresh, ?_⟩
  rw [h.timeBlocks]
  exact fun e he => (hl.placed e he).keeps h.keeps

theorem Timers.Inv.advance_same {w : Timers} (h : w.Inv) {i : ℕ} {c : Point} {b : Call} {s : Timed}
    (hc : w.calls[i]? = some c) (hs : Same w.shared.store s.store)
    (hclock : s.clock = w.shared.clock) (harm : s.armedFor = w.shared.armedFor)
    (hown : PointOk w.shared.store (.call b))
    (hpledge : ∀ n ∈ c.pledge,
      n ∈ (Point.call b).pledge ∨ w.shared.store.nextTimerTime ≤ n)
    (hclaim : ∀ x, c.claims = some x → (Point.call b).claims = some x ∨ w.Covered x)
    (hfd : (Point.call b).setsFd + w.shared.fdLocked.toNat = c.setsFd + s.fdLocked.toNat) :
    Timers.Inv ⟨s, w.calls.set i (.call b)⟩ :=
  h.advance_keep hc (hs.laid h.laid) hs.keeps hclock hs.next harm (hown.keeps hs.keeps hs.next.ge)
    (fun _ _ ht => .inl (hs.holds ht)) hpledge (fun _ _ _ _ => trivial) hclaim hfd

theorem Timers.Inv.silent {w : Timers} (h : w.Inv) {i : ℕ} {c : Point} {b : Call} {s : Timed}
    (hc : w.calls[i]? = some c) (hs : Same w.shared.store s.store)
    (hclock : s.clock = w.shared.clock) (harm : s.armedFor = w.shared.armedFor)
    (hown : PointOk w.shared.store (.call b)) (hpledge : c.pledge = none)
    (hfd : (Point.call b).setsFd + w.shared.fdLocked.toNat = c.setsFd + s.fdLocked.toNat) :
    Timers.Inv ⟨s, w.calls.set i (.call b)⟩ := by
  refine h.advance_same hc hs hclock harm hown ?_ ?_ hfd
  · intro n hn
    rw [hpledge] at hn
    cases hn
  · intro x hx
    rw [Point.pledge_of_claims hx] at hpledge
    cases hpledge

/-! ### The steps that set and reset m_nextTimerTime -/

theorem Cont.resume_point (m : TimeManager) (k : Cont) :
    PointOk m (.call k.resume) ∧ (Point.call k.resume).setsFd = 0 := by
  cases k with
  | count => exact ⟨trivial, rfl⟩
  | fire expired => exact ⟨trivial, rfl⟩

theorem Timers.Inv.set_next {w : Timers} (h : w.Inv) {i e now : ℕ} {k : Cont}
    (hc : w.calls[i]? = some (.call (.setting e now k)))
    (hg : ∀ x, (Point.call (.setting e now k)).claims = some x → w.Covered x) (f : Option TimerSpec) :
    Timers.Inv
      ⟨{ w.shared with
          fdLocked := false
          store := { w.shared.store with nextTimerTime := e, timerFd := f }
          armedFor := some e }, w.calls.set i (.call k.resume)⟩ := by
  have hle : e ≤ w.shared.store.nextTimerTime := h.calls _ (List.mem_of_getElem? hc)
  have hk : Keeps w.shared.store { w.shared.store with nextTimerTime := e, timerFd := f } :=
    .of_same rfl rfl rfl rfl
  have hfd := h.fd
  -- this call alone holds `m_timerFd_mutex`
  have hlocked : w.shared.fdLocked.toNat = 1 := by
    have hge : 1 ≤ (w.calls.map Point.setsFd).sum := le_sum (f := Point.setsFd) hc
    have hone := Bool.toNat_le w.shared.fdLocked
    omega
  refine h.advance hc ?_ h.clock (hle.trans h.max) ?_ (fun _ _ ht => .inl ht) ?_
    (fun _ _ _ _ => ?_) (fun x hx => .inr (hg x hx)) ?_ (.inr rfl)
  · exact ⟨h.laid.wf.congr rfl rfl rfl, fun d hd => (h.laid.placed d hd).keeps hk⟩
  · intro d hd
    rcases others_zero hc (hfd.trans hlocked) _ d hd with rfl | hzero
    · exact (Cont.resume_point _ k).1
    · rcases List.mem_or_eq_of_mem_set hd with hd | rfl
      · have hok := h.calls d hd
        cases d with
        | call b =>
          cases b with
          | setting e' now' k' => cases hzero
          | _ => exact hok
        | scanning rest expired => exact ⟨hok.1, fun a ha => (hok.2 a ha).keeps hk⟩
        | _ => exact hok
      · exact (Cont.resume_point _ k).1
  · intro d t ht
    refine (h.pledged d t ht).set hc hle ?_
    intro n hn
    exact .inr (Option.some.inj hn).le
  · cases k <;> trivial
  · rw [(Cont.resume_point w.shared.store k).2, hlocked]
    rfl

theorem Timers.Inv.reset_next {w : Timers} (h : w.Inv) {i : ℕ} {next : Option ℕ}
    {expired : List TimeTask} (hc : w.calls[i]? = some (.resetting next expired)) :
    Timers.Inv
      ⟨{ w.shared with
          store := { w.shared.store with nextTimerTime := uint64Max }
          mapLocked := false }, w.calls.set i (.call (rearmFor next expired))⟩ := by
  have hk : Keeps w.shared.store { w.shared.store with nextTimerTime := uint64Max } :=
    .of_same rfl rfl rfl rfl
  have hplain : PointOk { w.shared.store with nextTimerTime := uint64Max }
      (.call (rearmFor next expired)) ∧ (Point.call (rearmFor next expired)).setsFd = 0 := by
    cases next with
    | none => exact ⟨trivial, rfl⟩
    | some n => exact ⟨trivial, rfl⟩
  refine h.advance hc ?_ h.clock le_rfl ?_ (fun _ _ ht => .inl ht) ?_ ?_ ?_ ?_ (.inl rfl)
  · exact ⟨h.laid.wf.congr rfl rfl rfl, fun d hd => (h.laid.placed d hd).keeps hk⟩
  · exact forall_set h.calls (fun d _ hd => hd.keeps hk h.max) hplain.1
  · -- what the trigger has not read as its deadline is still claimed by its insertion
    intro e t ht
    rcases h.passed _ (List.mem_of_getElem? hc) e t ht with ⟨n, hn, hle⟩ | hown
    · cases hn
      exact .inr ⟨_, mem_set_self hc _, n, rfl, hle⟩
    · obtain ⟨d, hd, hclaim⟩ := hown
      have hne : d ≠ .resetting next expired := by
        rintro rfl
        cases hclaim
      exact .inr ⟨d, mem_set_of_ne hc _ hd hne, _, Point.pledge_of_claims hclaim, le_rfl⟩
  · intro e t _ _
    cases next <;> trivial
  · intro x hx
    cases hx
  · rw [hplain.2]
    rfl

/-! ### Steps and runs -/

theorem run_call {s s' : Timed} {c : Call} {c' : Point}
    (hne : ∀ now expired, c ≠ .draining now [] expired)
    (h : Point.run s (.call c) = some (s', c')) :
    ∃ r b, c.run true s.toShared = some (r, b) ∧
      s' = { s with toShared := r, armedFor := (sets c).or s.armedFor } ∧ c' = .call b := by
  have heq : Point.run s (.call c) = if takesMap c && s.mapLocked then none
      else (c.run true s.toShared).map fun r =>
        ({ s with toShared := r.1, armedFor := (sets c).or s.armedFor }, .call r.2) := by
    cases c with
    | draining now rest expired =>
      cases rest with
      | nil => exact absurd rfl (hne now expired)
      | cons p ps => rfl
    | _ => rfl
  rw [heq] at h
  split at h
  · cases h
  · obtain ⟨⟨r, b⟩, hr, hrb⟩ := Option.map_eq_some_iff.mp h
    cases hrb
    exact ⟨r, b, hr, rfl, rfl⟩

theorem Timers.Inv.run_call {w : Timers} (h : w.Inv) {i : ℕ} {c b : Call} {r : Shared}
    (hc : w.calls[i]? = some (.call c)) (hne : ∀ now expired, c ≠ .draining now [] expired)
    (hg : ∀ x ∈ (Point.call c).relies w.shared.store.nextTimerTime, w.Covered x)
    (hrun : c.run true w.shared.toShared = some (r, b)) :
    Timers.Inv
      ⟨{ w.shared with toShared := r, armedFor := (sets c).or w.shared.armedFor },
        w.calls.set i (.call b)⟩ := by
  have hok : PointOk w.shared.store (.call c) := h.calls _ (List.mem_of_getElem? hc)
  cases Call.next_of_run hrun with
  | due t => exact h.silent hc (.schedule _ _) rfl rfl trivial rfl rfl
  | ahead t hgt => exact h.silent hc (.refl _) rfl rfl (h.clock.trans (not_le.mp hgt).le) rfl rfl
  | past t | refuse t p | trigger | collect now | finish =>
    exact h.silent hc (.refl _) rfl rfl trivial rfl rfl
  | future t => exact h.silent hc (.refl _) rfl rfl hok rfl rfl
  | found t p hfind =>
    exact h.silent hc (.refl _) rfl rfl (h.laid.wf.below _ (Multimap.find_mem hfind)) rfl rfl
  | missing t hrange => exact h.silent hc (.refl _) rfl rfl ⟨hok, rfl, hrange⟩ rfl rfl
  | create t start =>
    obtain ⟨hb, rfl, hr⟩ := hok
    refine h.advance_keep hc (createBlock_laid h.laid hb hr) (createBlock_keeps _ _) rfl ?_ rfl
      (createBlock_lt h.laid.wf _) (fun _ _ ht => .inl (createBlock_holds h.laid.wf ht)) ?_
      (fun _ _ _ _ => trivial) ?_ rfl
    · dsimp only
      unfold TimeManager.createBlock
      split <;> rfl
    · intro n hn
      cases hn
    · intro x hx
      cases hx
  | place t p hrange =>
    have hk : Keeps w.shared.store (w.shared.store.insertInBlock p t) := .setBlock rfl rfl
    refine h.advance_keep hc
      (setBlock_laid h.laid hk (TimeManager.insertInBlock_wf h.laid.wf hok hrange)) hk rfl rfl rfl
      trivial ?_ ?_ (fun _ _ _ _ => trivial) ?_ rfl
    · intro e t' ht
      rcases insertInBlock_holds ht with ht | rfl
      · exact .inl ht
      · exact .inr rfl
    · intro n hn
      cases hn
    · intro x hx
      cases hx
  | sooner t =>
    exact h.advance_same hc (.refl _) rfl rfl trivial (fun n hn => .inl hn)
      (fun x hx => .inl hx) rfl
  | later t hge =>
    refine h.advance_same hc (.refl _) rfl rfl trivial ?_ ?_ rfl
    · intro n hn
      cases hn
      exact .inr (not_lt.mp hge)
    · intro x hx
      cases hx
      exact .inr (hg _ (by simp only [Point.relies, hge, ite_false, Option.mem_def]))
  | count => exact h.silent hc (.countTimer _) rfl rfl trivial rfl rfl
  | drain now p ps expired =>
    have hk : Keeps w.shared.store (w.shared.store.drainBlock p now).2 := .setBlock rfl rfl
    refine h.advance_keep hc (setBlock_laid h.laid hk (TimeManager.drainBlock_wf h.laid.wf p now))
      hk rfl rfl rfl trivial (fun _ _ ht => .inl (drainBlock_holds ht)) ?_
      (fun _ _ _ _ => trivial) ?_ rfl
    · intro n hn
      cases hn
    · intro x hx
      cases hx
  | erase now expired _ _ => exact absurd rfl (hne now expired)
  | fire t ts => exact h.silent hc (.fire _ _) rfl rfl trivial rfl rfl
  | arm e k =>
    refine h.advance_same hc (.refl _) rfl rfl trivial (fun n hn => .inl hn) (fun x hx => .inl ?_)
      rfl
    cases k with
    | count => exact hx
    | fire expired => cases hx
  | armed e now k hle =>
    refine h.advance_same hc (.refl _) rfl rfl (Cont.resume_point _ k).1 ?_ ?_ ?_
    · intro n hn
      cases hn
      exact .inr hle
    · intro x hx
      cases k with
      | count =>
        cases hx
        exact .inr (hg _ (by simp only [Point.relies, hle, ite_true, Option.mem_def]))
      | fire expired => cases hx
    · rw [(Cont.resume_point w.shared.store k).2]
      rfl
  | lock e now k hunlocked hgt =>
    refine h.advance_same hc (.refl _) rfl rfl (not_le.mp hgt).le (fun n hn => .inl hn)
      (fun x hx => .inl ?_) ?_
    · cases k with
      | count => exact hx
      | fire expired => cases hx
    · simp only [Point.setsFd, hunlocked, Bool.toNat_false, Bool.toNat_true]
  | set e now k _ =>
    refine h.set_next hc (fun x hx => ?_) _
    cases k with
    | count => exact hg x hx
    | fire expired => cases hx
  | fail e now k hfalse => cases hfalse

theorem Timers.Inv.clean {w : Timers} (h : w.Inv) {i : ℕ} {c c' : Point} {s : Timed}
    (hc : w.calls[i]? = some c) (hnone : c.pledge = none) (hlaid : Laid s.store)
    (hk : Keeps w.shared.store s.store) (hclock : s.clock = w.shared.clock)
    (hnext : s.store.nextTimerTime = w.shared.store.nextTimerTime)
    (harm : s.armedFor = w.shared.armedFor) (hown : PointOk s.store c')
    (hholds : ∀ e t, Holds s.store e t → Holds w.shared.store e t)
    (hpass : ∀ e t, Holds s.store e t → c.passes e t → c'.passes e t)
    (hfd : c'.setsFd + w.shared.fdLocked.toNat = c.setsFd + s.fdLocked.toNat) :
    Timers.Inv ⟨s, w.calls.set i c'⟩ := by
  refine h.advance_keep hc hlaid hk hclock hnext harm hown (fun e t ht => .inl (hholds e t ht))
    ?_ hpass ?_ hfd
  · intro n hn
    rw [hnone] at hn
    cases hn
  · intro x hx
    rw [Point.pledge_of_claims hx] at hnone
    cases hnone

theorem Timers.Inv.run {w : Timers} (h : w.Inv) {i : ℕ} {c c' : Point} {s : Timed}
    (hc : w.calls[i]? = some c)
    (hg : ∀ x ∈ c.relies w.shared.store.nextTimerTime, w.Covered x)
    (hrun : c.run w.shared = some (s, c')) : Timers.Inv ⟨s, w.calls.set i c'⟩ := by
  have hok : PointOk w.shared.store c := h.calls _ (List.mem_of_getElem? hc)
  cases c with
  | call c =>
    by_cases hend : ∃ now expired, c = .draining now [] expired
    · obtain ⟨now, expired, rfl⟩ := hend
      simp only [Point.run] at hrun
      split at hrun
      · cases hrun
      · cases hrun
        exact h.clean hc rfl h.laid (Same.refl _).keeps rfl rfl rfl trivial (fun _ _ ht => ht)
          (fun _ _ _ _ => trivial) rfl
    · have hne : ∀ now expired, c ≠ .draining now [] expired := fun now expired heq =>
        hend ⟨now, expired, heq⟩
      obtain ⟨r, b, hr, rfl, rfl⟩ := Arming.run_call hne hrun
      exact h.run_call hc hne hg hr
  | erasing now rest expired =>
    cases rest with
    | nil =>
      cases hrun
      exact h.clean hc rfl h.laid (Same.refl _).keeps rfl rfl rfl
        ⟨h.laid.wf.keys, h.laid.placed⟩ (fun _ _ ht => ht) (fun _ _ ht _ => ht.1) rfl
    | cons e es =>
      simp only [Point.run, Option.some.injEq, Prod.mk.injEq] at hrun
      obtain ⟨rfl, rfl⟩ := hrun
      by_cases herase : w.shared.store.erasable now e = true
      · simp only [herase, ite_true]
        exact h.clean hc rfl (eraseBlock_laid h.laid e) (.of_same rfl rfl rfl rfl) rfl rfl rfl
          trivial (fun _ _ ht => ⟨List.mem_of_mem_filter ht.1, ht.2⟩) (fun _ _ _ _ => trivial) rfl
      · simp only [herase, Bool.false_eq_true, ite_false]
        exact h.clean hc rfl h.laid (Same.refl _).keeps rfl rfl rfl trivial (fun _ _ ht => ht)
          (fun _ _ _ _ => trivial) rfl
  | scanning rest expired =>
    cases rest with
    | nil =>
      cases hrun
      refine h.clean hc rfl h.laid (Same.refl _).keeps rfl rfl rfl trivial (fun _ _ ht => ht)
        (fun e t _ hp => ?_) rfl
      cases hp
    | cons e es =>
      obtain ⟨hkeys, hplaced⟩ := hok
      have he := hplaced e (List.mem_cons_self ..)
      obtain ⟨hempty, hfirst⟩ := nextExecuteTime_spec h.laid he
      simp only [Point.run, Option.some.injEq, Prod.mk.injEq] at hrun
      obtain ⟨rfl, rfl⟩ := hrun
      by_cases hmax : (w.shared.store.blocks e.2).getNextExecuteTime = uint64Max
      · simp only [hmax, ne_eq, not_true_eq_false, ite_false]
        refine h.clean hc rfl h.laid (Same.refl _).keeps rfl rfl rfl
          ⟨(List.pairwise_cons.mp hkeys).2, fun d hd => hplaced d (List.mem_cons_of_mem _ hd)⟩
          (fun _ _ ht => ht) (fun d t ht hp => ?_) rfl
        rcases List.mem_cons.mp hp with rfl | hp
        · have hmem := ht.2
          rw [hempty hmax] at hmem
          cases hmem
        · exact hp
      · simp only [hmax, ne_eq, not_false_eq_true, ite_true]
        obtain ⟨hlt, hleast⟩ := hfirst hmax
        refine h.clean hc rfl h.laid (Same.refl _).keeps rfl rfl rfl trivial (fun _ _ ht => ht)
          (fun d t ht hp => ⟨_, rfl, ?_⟩) rfl
        rcases List.mem_cons.mp hp with rfl | hp
        · exact hleast t ht.2
        · -- a later block starts where this one is already over
          have hdis := he.disjoint (hplaced d (List.mem_cons_of_mem _ hp))
            ((List.pairwise_cons.mp hkeys).1 d hp)
          have hrange := (h.laid.holds_range ht).1
          omega
  | resetting next expired =>
    cases hrun
    exact h.reset_next hc

theorem Timers.step_inv {w w' : Timers} {a : Action} (h : w.Inv) (hg : armGuard w a)
    (hs : w.step a = some w') : w'.Inv := by
  have henter : ∀ c : Call, PointOk w.shared.store (.call c) → (Point.call c).setsFd = 0 →
      Timers.Inv (w.enter (.call c)) := by
    intro c hc hzero
    refine ⟨h.laid, h.clock, h.max, forall_enter h.calls hc, ?_, ?_, ?_, h.armed⟩
    · intro e t ht
      refine (h.pledged e t ht).imp_right ?_
      rintro ⟨d, hd, hp⟩
      exact ⟨d, List.mem_append_left _ hd, hp⟩
    · refine forall_enter (fun d hd e t ht => ?_) (fun _ _ _ => .inl trivial)
      refine (h.passed d hd e t ht).imp_right ?_
      rintro ⟨b, hb, hx⟩
      exact ⟨b, List.mem_append_left _ hb, hx⟩
    · rw [World.enter, sum_enter, hzero, add_zero]
      exact h.fd
  cases a with
  | tick ms =>
    cases hs
    exact ⟨h.laid, h.clock.trans (Nat.le_add_right _ _), h.max, h.calls, h.pledged, h.passed, h.fd,
      h.armed⟩
  | insert task =>
    cases hs
    exact henter _ trivial rfl
  | trigger =>
    cases hs
    exact henter _ trivial rfl
  | next i =>
    obtain ⟨c, s, c', hc, hrun, rfl⟩ := advance_cases hs
    refine h.run hc (fun x hx => hg x ?_) hrun
    rw [hc]
    exact hx

theorem Point.pledge_over {c : Point} (h : c.over = true) : c.pledge = none := by
  unfold Point.over at h
  split at h
  · rfl
  · rfl
  · cases h

theorem Timers.Inv.inTime {w : Timers} (h : w.Inv) : w.InTime := by
  intro hover t ht
  obtain ⟨e, he, ht⟩ := TimeManager.mem_stored.mp ht
  have hle : w.shared.store.nextTimerTime ≤ t.executeMs := by
    rcases h.pledged e t ⟨he, ht⟩ with hle | ⟨c, hc, n, hn, _⟩
    · exact hle
    · rw [Point.pledge_over (hover c hc)] at hn
      cases hn
  have hlt := h.laid.lt_max ⟨he, ht⟩
  rcases h.armed with hmax | harmed
  · omega
  · exact ⟨hle, _, harmed, hle⟩

theorem timerfd_armed_in_time (blockSizeMs baseTime : ℕ) (as : List Action) (w : Timers)
    (hg : Guarded Timers.step armGuard (Timers.init blockSizeMs baseTime) as)
    (hw : exec Timers.step (Timers.init blockSizeMs baseTime) as = some w) : w.InTime := by
  have hinv := exec_guarded (fun s a t hi hga hst => Timers.step_inv hi hga hst)
    (Timers.init_inv blockSizeMs baseTime) hg hw
  exact hinv.inTime

def firstTask : TimeTask := .create 1 0 2 false
def lastTask : TimeTask := .create 2 0 18 false
def middleTask : TimeTask := .create 3 0 15 false

def turns (n i : ℕ) : List Action := List.replicate n (.next i)

def twoStored : List Action :=
  Action.insert firstTask :: turns 10 0 ++ Action.insert lastTask :: turns 7 1 ++
    Action.insert middleTask :: turns 3 2

def insertedBefore : List Action :=
  twoStored ++ turns 3 2 ++ [Action.tick 2, .trigger] ++ turns 14 3

theorem inserted_before_is_in_time :
    ∃ w, exec Timers.step (Timers.init 10 0) insertedBefore = some w ∧
      w.shared.store.stored = [middleTask, lastTask] ∧ w.InTime :=
  ⟨_, rfl, rfl, timerfd_armed_in_time 10 0 insertedBefore _ (by decide) rfl⟩

/-- The third insertion goes on after the trigger has read 18 as the next deadline and
before it resets `m_nextTimerTime`. -/
def insertedBetween : List Action :=
  twoStored ++ [Action.tick 2, .trigger] ++ turns 8 3 ++ turns 3 2 ++ turns 6 3

theorem inserted_between_is_late :
    ∃ w, exec Timers.step (Timers.init 10 0) insertedBetween = some w ∧ ¬ w.InTime := by
  refine ⟨_, rfl, ?_⟩
  intro h
  have hle := (h (by decide) middleTask (by decide)).1
  exact absurd hle (by decide)

end MSylar.Timer.Arming
