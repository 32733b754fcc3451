import Mathlib.Data.Nat.ModEq
import MSylar.Lib.Execution
import MSylar.Lib.TimedQueue
import MSylar.Timer.Store

/-!
# The store used by one thread is a timed queue

`insertTimeTask` and `onTimerTriggered` called one after the other refine the
queue of `TimedQueue`. The invariant `Sound` says how the blocks cut the time
axis: they start at `baseTime` plus multiples of the block size and do not
overlap, so `stored`, read block by block, is in the order of the execute times.
-/

namespace MSylar.Timer
open MSylar.Word MSylar.Execution

namespace TimeManager

structure Sound (m : TimeManager) : Prop where
  wf : m.Wf
  size : 0 < m.blockSizeMs
  aligned : ∀ e ∈ m.timeBlocks.entries, ∃ n, e.1 = m.baseTime + n * m.blockSizeMs
  finish : ∀ e ∈ m.timeBlocks.entries, (m.blocks e.2).endTime = e.1 + m.blockSizeMs
  bound : ∀ e ∈ m.timeBlocks.entries, e.1 + m.blockSizeMs < 2^64
  count : m.timerCount = m.stored.length
  next : ∀ t ∈ m.stored, m.nextTimerTime ≤ t.executeMs

theorem init_sound {blockSizeMs : ℕ} (baseTime : ℕ) (h : 0 < blockSizeMs) :
    (init blockSizeMs baseTime).Sound where
  wf := init_wf _ _
  size := h
  aligned := by intro e he; cases he
  finish := by intro e he; cases he
  bound := by intro e he; cases he
  count := rfl
  next := by intro t ht; cases ht

theorem Sound.mem_range {m : TimeManager} (h : m.Sound) {e : ℕ × ℕ}
    (he : e ∈ m.timeBlocks.entries) {t : TimeTask} (ht : t ∈ (m.blocks e.2).tasks) :
    e.1 ≤ t.executeMs ∧ t.executeMs < e.1 + m.blockSizeMs := by
  have hr := (h.wf.filed e.2).mem_range ht
  rwa [h.wf.start e he, h.finish e he] at hr

theorem Sound.lt_max {m : TimeManager} (h : m.Sound) {t : TimeTask} (ht : t ∈ m.stored) :
    t.executeMs < uint64Max := by
  obtain ⟨e, he, ht⟩ := mem_stored.mp ht
  have hr := h.mem_range he ht
  have hb := h.bound e he
  unfold uint64Max
  omega

theorem Sound.disjoint {m : TimeManager} (h : m.Sound) {a b : ℕ × ℕ}
    (ha : a ∈ m.timeBlocks.entries) (hb : b ∈ m.timeBlocks.entries) (hlt : a.1 < b.1) :
    a.1 + m.blockSizeMs ≤ b.1 := by
  obtain ⟨i, hi⟩ := h.aligned a ha
  obtain ⟨j, hj⟩ := h.aligned b hb
  have hij : i < j := by
    by_contra hn
    have hle : j * m.blockSizeMs ≤ i * m.blockSizeMs := Nat.mul_le_mul_right _ (not_lt.mp hn)
    omega
  have hstep : (i + 1) * m.blockSizeMs ≤ j * m.blockSizeMs := Nat.mul_le_mul_right _ hij
  rw [Nat.add_mul, Nat.one_mul] at hstep
  omega

theorem Sound.stored_sorted {m : TimeManager} (h : m.Sound) :
    m.stored.Pairwise fun s t => s.executeMs ≤ t.executeMs := by
  refine List.pairwise_flatMap.mpr ⟨fun e _ => (h.wf.filed e.2).tasks_sorted, ?_⟩
  refine h.wf.keys.imp_of_mem fun {a b} ha hb hlt s hs t ht => ?_
  have h1 := (h.mem_range ha hs).2
  have h2 := (h.mem_range hb ht).1
  have h3 := h.disjoint ha hb hlt
  omega

/-! ### insertTimeTask -/

theorem blockBegin_eq {m : TimeManager} {executeTime : ℕ} (hb : m.baseTime ≤ executeTime)
    (ho : m.baseTime + (executeTime - m.baseTime) / m.blockSizeMs * m.blockSizeMs +
      m.blockSizeMs < 2^64) (hs : 0 < m.blockSizeMs) :
    m.blockBegin executeTime =
      m.baseTime + (executeTime - m.baseTime) / m.blockSizeMs * m.blockSizeMs ∧
    m.blockBegin executeTime ≤ executeTime ∧
    executeTime < m.blockBegin executeTime + m.blockSizeMs := by
  have hlow := Nat.div_mul_le_self (executeTime - m.baseTime) m.blockSizeMs
  have hhigh := Nat.lt_div_mul_add hs (a := executeTime - m.baseTime)
  have hlt : executeTime < 2^64 := by omega
  have heq : m.blockBegin executeTime =
      m.baseTime + (executeTime - m.baseTime) / m.blockSizeMs * m.blockSizeMs := by
    unfold blockBegin
    rw [sub64_of_le hb hlt, add64_of_lt (by omega)]
  exact ⟨heq, by omega, by omega⟩

/-- `getOrCreateTimerBlock` gives a block of the map whose range holds the time, and
changes nothing that is stored. -/
theorem getOrCreate_spec {m : TimeManager} (h : m.Sound) {executeTime now : ℕ}
    (hb : m.baseTime ≤ now) (hn : now ≤ executeTime)
    (ho : m.baseTime + (executeTime - m.baseTime) / m.blockSizeMs * m.blockSizeMs +
      m.blockSizeMs < 2^64) :
    ∃ k p r, m.getOrCreateTimerBlock executeTime now = some (some p, r) ∧ r.Sound ∧
      (k, p) ∈ r.timeBlocks.entries ∧ r.inRange p executeTime = true ∧ r.stored = m.stored ∧
      r.scheduled = m.scheduled ∧ r.timerCount = m.timerCount ∧
      r.nextTimerTime = m.nextTimerTime ∧ r.blockSizeMs = m.blockSizeMs ∧
      r.baseTime = m.baseTime := by
  obtain ⟨heq, hle, hlt⟩ := blockBegin_eq (hb.trans hn) ho h.size
  have hsum : add64 (m.blockBegin executeTime) m.blockSizeMs =
      m.blockBegin executeTime + m.blockSizeMs := add64_of_lt (by rw [heq]; exact ho)
  have hpast : ¬ executeTime < now := not_lt.mpr hn
  unfold getOrCreateTimerBlock
  rw [if_neg hpast, if_neg h.size.ne']
  cases hf : m.timeBlocks.find (m.blockBegin executeTime) with
  | some p =>
    have hmem := Multimap.find_mem hf
    have hr : m.inRange p executeTime = true := by
      have hstart := h.wf.start _ hmem
      have hfin := h.finish _ hmem
      dsimp only at hstart hfin
      exact inRange_iff.mpr ⟨by omega, by omega⟩
    exact ⟨_, p, m, by simp only [hf], h, hmem, hr, rfl, rfl, rfl, rfl, rfl, rfl⟩
  | none =>
    have hok : m.blockRangeOk executeTime (m.blockBegin executeTime) = true := by
      simp only [blockRangeOk, hsum, Bool.and_eq_true, decide_eq_true_eq]
      exact ⟨hle, hlt⟩
    have hgrow : m.blockBegin executeTime < add64 (m.blockBegin executeTime) m.blockSizeMs := by
      have hs := h.size
      omega
    have hwf := createBlock_wf h.wf hgrow
    have hst := createBlock_stored h.wf (m.blockBegin executeTime)
    have hmem := createBlock_mem (m := m) (m.blockBegin executeTime)
    simp only [hf, hok, ite_true]
    rw [createBlock_fresh hf] at hwf hst hmem ⊢
    refine ⟨_, _, _, rfl, ⟨hwf, h.size, ?_, ?_, ?_, ?_, ?_⟩, hmem, ?_, hst, rfl, rfl, rfl, rfl, rfl⟩
    · intro e he
      rcases Multimap.mem_insert.mp he with rfl | he
      · exact ⟨_, heq⟩
      · exact h.aligned e he
    · intro e he
      rcases Multimap.mem_insert.mp he with rfl | he
      · simp only [Function.update_self, TimerBlock.new, hsum]
      · simp only [Function.update_of_ne (h.wf.below e he).ne, h.finish e he]
    · intro e he
      rcases Multimap.mem_insert.mp he with rfl | he
      · rw [heq]; exact ho
      · exact h.bound e he
    · rw [hst]; exact h.count
    · rw [hst]; exact h.next
    · refine inRange_iff.mpr ?_
      simp only [Function.update_self, TimerBlock.new, hsum]
      exact ⟨hle, hlt⟩

theorem place_spec {m : TimeManager} (h : m.Sound) {k p : ℕ} {task : TimeTask} (now : ℕ)
    (hmem : (k, p) ∈ m.timeBlocks.entries) (hr : m.inRange p task.executeMs = true)
    (hc : m.stored.length + 1 < 2^64) :
    ∃ r, m.place task p now true = (0, r) ∧ r.Sound ∧
      (r.stored : Multiset TimeTask) = task ::ₘ m.stored ∧ r.scheduled = m.scheduled ∧
      r.blockSizeMs = m.blockSizeMs ∧ r.baseTime = m.baseTime := by
  have hwf := insertInBlock_wf h.wf (h.wf.below _ hmem) hr
  have hst := stored_insertInBlock h.wf hmem task
  have hlen : (m.insertInBlock p task).stored.length = m.stored.length + 1 := by
    have hcard := congrArg Multiset.card hst
    simpa only [Multiset.coe_card, Multiset.card_cons] using hcard
  have hnew : ∀ t ∈ (m.insertInBlock p task).stored, t = task ∨ t ∈ m.stored := by
    intro t ht
    have ht' : t ∈ ((m.insertInBlock p task).stored : Multiset TimeTask) := ht
    rw [hst] at ht'
    simpa only [Multiset.mem_cons, Multiset.mem_coe] using ht'
  have hend : ∀ q, ((m.insertInBlock p task).blocks q).endTime = (m.blocks q).endTime := by
    intro q
    by_cases hq : q = p
    · subst hq
      simp only [insertInBlock, setBlock, Function.update_self, TimerBlock.insert]
    · simp only [insertInBlock, setBlock, Function.update_of_ne hq]
  -- everything but `next` and `count` is inherited; both branches share this part
  have hsound : ∀ n : ℕ, ∀ f : Option TimerSpec,
      (∀ t ∈ (m.insertInBlock p task).stored, n ≤ t.executeMs) →
      ({ m.insertInBlock p task with
          nextTimerTime := n, timerFd := f
          timerCount := add64 m.timerCount 1 } : TimeManager).Sound := by
    intro n f hn
    refine ⟨hwf.congr rfl rfl rfl, h.size, h.aligned, ?_, h.bound, ?_, hn⟩
    · intro e he
      have hfin := h.finish e he
      rw [← hend] at hfin
      exact hfin
    · show add64 m.timerCount 1 = (m.insertInBlock p task).stored.length
      rw [hlen, h.count, add64_of_lt (by omega)]
  unfold place
  rw [if_pos hr]
  by_cases hlt : task.executeMs < m.nextTimerTime
  · have hge : ¬ m.nextTimerTime ≤ task.executeMs := not_le.mpr hlt
    have hnext : ∀ t ∈ (m.insertInBlock p task).stored, task.executeMs ≤ t.executeMs := by
      intro t ht
      rcases hnew t ht with rfl | ht
      · exact le_rfl
      · exact hlt.le.trans (h.next t ht)
    refine ⟨_, ?_, hsound _ (some (timerSpec task.executeMs now)) hnext, hst, rfl, rfl, rfl⟩
    have hin : (m.insertInBlock p task).nextTimerTime = m.nextTimerTime := rfl
    simp only [hin, hlt, ite_true, updateTimerFd, hge, ite_false, countTimer]
    rfl
  · have hnext : ∀ t ∈ (m.insertInBlock p task).stored, m.nextTimerTime ≤ t.executeMs := by
      intro t ht
      rcases hnew t ht with rfl | ht
      · exact not_lt.mp hlt
      · exact h.next t ht
    refine ⟨_, ?_, hsound _ m.timerFd hnext, hst, rfl, rfl, rfl⟩
    have hin : (m.insertInBlock p task).nextTimerTime = m.nextTimerTime := rfl
    simp only [hin, hlt, ite_false, countTimer]
    rfl

/-! ### onTimerTriggered -/

theorem drain_wf {m : TimeManager} (h : m.Wf) (now : ℕ) (ps : List ℕ) :
    (drain now ps m).2.Wf := by
  induction ps generalizing m with
  | nil => exact h
  | cons p ps ih => exact ih (drainBlock_wf h p now)

/-- The loop visits each block once, so what it takes does not depend on the order. -/
theorem drain_spec (now : ℕ) (ps : List ℕ) (m : TimeManager) (hnd : ps.Nodup) :
    (drain now ps m).1 = ps.flatMap (fun p => ((m.blocks p).getAndRemove now).1) ∧
      (drain now ps m).2 = { m with blocks := fun p =>
        if p ∈ ps then ((m.blocks p).getAndRemove now).2 else m.blocks p } := by
  induction ps generalizing m with
  | nil => simp only [drain, List.flatMap_nil, List.not_mem_nil, ite_false, and_self]
  | cons p ps ih =>
    obtain ⟨hp, hps⟩ := List.nodup_cons.mp hnd
    obtain ⟨h1, h2⟩ := ih (m.drainBlock p now).2 hps
    have hother : ∀ q ∈ ps, (m.drainBlock p now).2.blocks q = m.blocks q := by
      intro q hq
      have hne : q ≠ p := fun heq => hp (heq ▸ hq)
      simp only [drainBlock, setBlock, Function.update_of_ne hne]
    constructor
    · simp only [drain, h1, List.flatMap_cons]
      congr 1
      exact List.flatMap_congr fun q hq => by rw [hother q hq]
    · show (drain now ps (m.drainBlock p now).2).2 = _
      rw [h2]
      simp only [drainBlock, setBlock]
      congr 1
      funext q
      by_cases hq : q = p
      · subst hq
        simp only [hp, ite_false, Function.update_self, List.mem_cons, true_or, ite_true]
      · simp only [Function.update_of_ne hq, List.mem_cons, hq, false_or]

theorem collect_nodup {m : TimeManager} (h : m.Wf) (now : ℕ) : (m.collect now).Nodup := by
  rw [collect, Multimap.upTo_eq_filter]
  exact h.addrs.sublist (List.filter_sublist.map Prod.snd)

theorem collect_complete {m : TimeManager} (h : m.Wf) {now : ℕ} {e : ℕ × ℕ}
    (he : e ∈ m.timeBlocks.entries) (hp : e.2 ∉ m.collect now) :
    ∀ t ∈ (m.blocks e.2).tasks, now < t.executeMs := by
  intro t ht
  have hr := (h.filed e.2).mem_range ht
  rw [h.start e he] at hr
  have hk : ¬ e.1 ≤ now := fun hle => hp (mem_collect.mpr ⟨e.1, hle, he⟩)
  omega

theorem drain_expired {m : TimeManager} (h : m.Wf) (now : ℕ) :
    (drain now (m.collect now) m).1 = m.stored.filter fun t => t.executeMs ≤ now := by
  rw [(drain_spec now _ m (collect_nodup h now)).1, collect, Multimap.upTo_eq_filter,
    List.flatMap_map, stored, List.filter_flatMap]
  have hsub : ∀ e ∈ m.timeBlocks.entries, ¬ e.1 ≤ now →
      ((m.blocks e.2).tasks.filter fun t => t.executeMs ≤ now) = [] := by
    intro e he hk
    refine List.filter_eq_nil_iff.mpr fun t ht => ?_
    have hr := (h.filed e.2).mem_range ht
    rw [h.start e he] at hr
    simp only [decide_eq_true_eq, not_le]
    omega
  generalize m.timeBlocks.entries = l at hsub
  induction l with
  | nil => rfl
  | cons x xs ih =>
    have hi := ih fun e he => hsub e (List.mem_cons_of_mem _ he)
    by_cases hx : x.1 ≤ now
    · simp only [List.filter_cons, hx, decide_true, ite_true, List.flatMap_cons, hi,
        TimerBlock.getAndRemove_expired (h.filed x.2)]
    · simp only [List.filter_cons, hx, decide_false, Bool.false_eq_true, ite_false, hi,
        List.flatMap_cons, hsub x (List.mem_cons_self ..) hx, List.nil_append]

theorem drain_stored {m : TimeManager} (h : m.Wf) (now : ℕ) :
    (drain now (m.collect now) m).2.stored = m.stored.filter fun t => now < t.executeMs := by
  rw [(drain_spec now _ m (collect_nodup h now)).2]
  simp only [stored, List.filter_flatMap]
  refine List.flatMap_congr fun e he => ?_
  by_cases hp : e.2 ∈ m.collect now
  · simp only [hp, ite_true, TimerBlock.getAndRemove_rest (h.filed e.2)]
  · simp only [hp, ite_false]
    exact (List.filter_eq_self.mpr fun t ht => by
      simpa using collect_complete h he hp t ht).symm

theorem drain_over {m : TimeManager} (h : m.Wf) {now : ℕ} {e : ℕ × ℕ}
    (he : e ∈ m.timeBlocks.entries)
    (hend : ((drain now (m.collect now) m).2.blocks e.2).endTime ≤ now) :
    ((drain now (m.collect now) m).2.blocks e.2).tasks = [] := by
  rw [(drain_spec now _ m (collect_nodup h now)).2] at hend ⊢
  have hrange := h.range e he
  by_cases hp : e.2 ∈ m.collect now
  · simp only [hp, ite_true] at hend ⊢
    exact TimerBlock.getAndRemove_over (h.filed e.2) hend
  · simp only [hp, ite_false] at hend ⊢
    have hk : e.1 ≤ now := by omega
    exact absurd (mem_collect.mpr ⟨e.1, hk, he⟩) hp

def frontTime (ts : List TimeTask) : ℕ := (ts.head?.map TimeTask.executeMs).getD uint64Max

theorem getNextExecuteTime_eq {b : TimerBlock} (h : b.Filed) :
    b.getNextExecuteTime = frontTime b.tasks := by
  unfold TimerBlock.getNextExecuteTime frontTime TimerBlock.tasks
  cases hb : b.timeTasks.entries with
  | nil => rfl
  | cons y ys => exact (h y (by rw [hb]; exact List.mem_cons_self ..)).1

theorem nextTimeFrom_eq (blocks : ℕ → TimerBlock) (l : List (ℕ × ℕ))
    (hf : ∀ p, (blocks p).Filed)
    (hlt : ∀ e ∈ l, ∀ t ∈ (blocks e.2).tasks, t.executeMs < uint64Max) :
    nextTimeFrom blocks l = frontTime (l.flatMap fun e => (blocks e.2).tasks) := by
  induction l with
  | nil => rfl
  | cons x xs ih =>
    have hi := ih fun e he => hlt e (List.mem_cons_of_mem _ he)
    have hx := hlt x (List.mem_cons_self ..)
    simp only [nextTimeFrom, getNextExecuteTime_eq (hf x.2), hi, List.flatMap_cons]
    cases hb : (blocks x.2).tasks with
    | nil => simp only [frontTime, List.head?_nil, Option.map_none, Option.getD_none, ne_eq,
        not_true_eq_false, ite_false, List.nil_append]
    | cons t ts =>
      have hne : t.executeMs ≠ uint64Max := (hx t (by rw [hb]; exact List.mem_cons_self ..)).ne
      simp only [frontTime, List.head?_cons, Option.map_some, Option.getD_some, ne_eq, hne,
        not_false_eq_true, ite_true, List.cons_append]

theorem fire_eq {m : TimeManager} (task : TimeTask) (hpos : 0 < m.timerCount)
    (hlt : m.timerCount < 2^64) :
    m.fire task =
      { m with timerCount := m.timerCount - 1, scheduled := m.scheduled ++ [task] } := by
  simp only [fire, schedule, sub64_of_le hpos hlt]

theorem scheduleExpired_spec (ts : List TimeTask) (m : TimeManager)
    (hc : ts.length ≤ m.timerCount) (hlt : m.timerCount < 2^64) :
    scheduleExpired ts m =
      { m with timerCount := m.timerCount - ts.length, scheduled := m.scheduled ++ ts } := by
  unfold scheduleExpired
  induction ts generalizing m with
  | nil => simp only [List.foldl_nil, List.length_nil, Nat.sub_zero, List.append_nil]
  | cons t ts ih =>
    simp only [List.length_cons] at hc
    rw [List.foldl_cons, fire_eq t (by omega) hlt, ih _ (by dsimp only; omega) (by dsimp only; omega)]
    simp only [List.append_assoc, List.singleton_append, List.length_cons, Nat.sub_sub,
      Nat.add_comm]

/-- `nextTimerTime` is the earliest stored execute time, `uint64Max` where nothing is
stored. -/
def NextExact (m : TimeManager) : Prop :=
  (m.stored = [] → m.nextTimerTime = uint64Max) ∧
    (m.stored ≠ [] → (∃ t ∈ m.stored, t.executeMs = m.nextTimerTime) ∧
      ∀ t ∈ m.stored, m.nextTimerTime ≤ t.executeMs)

theorem nextExact_of_sorted {m : TimeManager}
    (hs : m.stored.Pairwise fun s t => s.executeMs ≤ t.executeMs)
    (hn : m.nextTimerTime = frontTime m.stored) : m.NextExact := by
  unfold NextExact
  cases hl : m.stored with
  | nil =>
    rw [hl] at hn
    exact ⟨fun _ => hn, fun hne => absurd rfl hne⟩
  | cons t ts =>
    rw [hl] at hn hs
    have ht : m.nextTimerTime = t.executeMs := hn
    refine ⟨fun hne => (List.cons_ne_nil _ _ hne).elim,
      fun _ => ⟨⟨t, List.mem_cons_self .., ht.symm⟩, fun u hu => ?_⟩⟩
    rw [ht]
    rcases List.mem_cons.mp hu with rfl | hu
    · exact le_rfl
    · exact (List.pairwise_cons.mp hs).1 u hu

/-- The erase region keeps what is stored and finds its earliest execute time. -/
theorem eraseAndReset_spec {m : TimeManager} (h : m.Wf) {now : ℕ}
    (hover : ∀ e ∈ m.timeBlocks.entries, (m.blocks e.2).endTime ≤ now → (m.blocks e.2).tasks = [])
    (hlt : ∀ t ∈ m.stored, t.executeMs < uint64Max) :
    (m.eraseAndReset now).2 = { m.eraseBlocks now with nextTimerTime := uint64Max } ∧
      (m.eraseAndReset now).2.stored = m.stored ∧
      (m.eraseAndReset now).1 = m.stored.head?.map TimeTask.executeMs := by
  have hst : ({ m.eraseBlocks now with nextTimerTime := uint64Max } : TimeManager).stored =
      m.stored := (stored_congr rfl rfl).trans (eraseBlocks_stored hover)
  refine ⟨rfl, hst, ?_⟩
  have hnext := nextTimeFrom_eq m.blocks (m.eraseBlocks now).timeBlocks.entries h.filed (by
    intro e he t ht
    exact hlt t (mem_stored.mpr ⟨e, List.mem_of_mem_filter he, ht⟩))
  have hflat : ((m.eraseBlocks now).timeBlocks.entries.flatMap fun e => (m.blocks e.2).tasks) =
      m.stored := eraseBlocks_stored hover
  rw [hflat] at hnext
  have hcase : (m.eraseAndReset now).1 = if nextTimeFrom m.blocks
      (m.eraseBlocks now).timeBlocks.entries ≠ uint64Max then some (nextTimeFrom m.blocks
      (m.eraseBlocks now).timeBlocks.entries) else none := rfl
  rw [hcase, hnext]
  cases hl : m.stored with
  | nil => simp only [frontTime, ne_eq, List.head?_nil, Option.map_none, Option.getD_none,
      not_true_eq_false, ite_false]
  | cons t ts =>
    have hne : t.executeMs ≠ uint64Max := (hlt t (by rw [hl]; exact List.mem_cons_self ..)).ne
    simp only [frontTime, ne_eq, hne, not_false_eq_true, ite_true, List.head?_cons,
      Option.map_some, Option.getD_some]

theorem rearm_spec {m : TimeManager} (now : ℕ) (hmax : m.nextTimerTime = uint64Max)
    (hlt : ∀ t ∈ m.stored, t.executeMs < uint64Max) :
    ∃ f, m.rearm (m.stored.head?.map TimeTask.executeMs) now true =
      { m with nextTimerTime := frontTime m.stored, timerFd := f } := by
  cases hl : m.stored with
  | nil =>
    refine ⟨m.timerFd, ?_⟩
    simp only [List.head?_nil, Option.map_none, rearm, frontTime, Option.getD_none, ← hmax]
  | cons t ts =>
    have ht := hlt t (by rw [hl]; exact List.mem_cons_self ..)
    have hn : ¬ m.nextTimerTime ≤ t.executeMs := by omega
    refine ⟨some (timerSpec t.executeMs now), ?_⟩
    simp only [List.head?_cons, Option.map_some, rearm, updateTimerFd, hn, ite_false, ite_true,
      frontTime, Option.getD_some]

def drained (m : TimeManager) (now : ℕ) : TimeManager := (drain now (m.collect now) m).2

def dueTasks (m : TimeManager) (now : ℕ) : List TimeTask :=
  m.stored.filter fun t => t.executeMs ≤ now

theorem drained_frame {m : TimeManager} (h : m.Wf) (now : ℕ) :
    (m.drained now).timeBlocks = m.timeBlocks ∧ (m.drained now).blockSizeMs = m.blockSizeMs ∧
      (m.drained now).baseTime = m.baseTime ∧ (m.drained now).timerCount = m.timerCount ∧
      (m.drained now).scheduled = m.scheduled ∧
      ∀ p, ((m.drained now).blocks p).endTime = (m.blocks p).endTime := by
  unfold drained
  rw [(drain_spec now _ m (collect_nodup h now)).2]
  refine ⟨rfl, rfl, rfl, rfl, rfl, fun p => ?_⟩
  dsimp only
  split
  · rfl
  · rfl

theorem drained_over {m : TimeManager} (h : m.Wf) (now : ℕ) :
    ∀ e ∈ (m.drained now).timeBlocks.entries,
      ((m.drained now).blocks e.2).endTime ≤ now → ((m.drained now).blocks e.2).tasks = [] := by
  intro e he hend
  rw [(drained_frame h now).1] at he
  exact drain_over h he hend

theorem dueTasks_length (m : TimeManager) (now : ℕ) :
    (m.dueTasks now).length + (m.stored.filter fun t => now < t.executeMs).length =
      m.stored.length := by
  rw [List.length_eq_length_filter_add (l := m.stored) fun t => decide (t.executeMs ≤ now)]
  simp only [dueTasks, ← not_le, decide_not]

/-- The whole trigger in one equation: the blocks are drained and cleaned up, the
counters and the timer follow, and the tasks that were due are scheduled. -/
theorem onTimerTriggered_eq {m : TimeManager} (h : m.Sound) (now nowFd : ℕ)
    (hlen : m.stored.length < 2^64) :
    ∃ f, m.onTimerTriggered now nowFd true =
      { (m.drained now).eraseBlocks now with
        nextTimerTime := frontTime (m.drained now).stored, timerFd := f
        timerCount := m.stored.length - (m.dueTasks now).length
        scheduled := m.scheduled ++ m.dueTasks now } := by
  have hframe := drained_frame h.wf now
  have hkeep : (m.drained now).stored = m.stored.filter fun t => now < t.executeMs :=
    drain_stored h.wf now
  have hlt : ∀ t ∈ (m.drained now).stored, t.executeMs < uint64Max := by
    intro t ht
    rw [hkeep] at ht
    exact h.lt_max (List.mem_of_mem_filter ht)
  obtain ⟨hkept, hst, hhead⟩ := eraseAndReset_spec (drain_wf h.wf now _) (drained_over h.wf now) hlt
  obtain ⟨f, hrearm⟩ := rearm_spec (m := ((m.drained now).eraseAndReset now).2) nowFd rfl
    (by rw [drained, hst]; exact hlt)
  have hlen' := dueTasks_length m now
  have hcount : (m.drained now).timerCount = m.stored.length := hframe.2.2.2.1.trans h.count
  have hrest : ((m.drained now).eraseAndReset now).2.stored = (m.drained now).stored := hst
  rw [hrest] at hrearm
  refine ⟨f, ?_⟩
  show scheduleExpired (drain now (m.collect now) m).1
    (((m.drained now).eraseAndReset now).2.rearm ((m.drained now).eraseAndReset now).1 nowFd true) = _
  rw [drain_expired h.wf now, show ((m.drained now).eraseAndReset now).1 = _ from hhead]
  show scheduleExpired (m.dueTasks now) (((m.drained now).eraseAndReset now).2.rearm
    ((m.drained now).stored.head?.map TimeTask.executeMs) nowFd true) = _
  rw [hrearm, scheduleExpired_spec _ _ (by change _ ≤ (m.drained now).timerCount; omega)
    (by change (m.drained now).timerCount < _; omega)]
  simp only [eraseAndReset, eraseBlocks, hcount, hframe.2.2.2.2.1]

theorem onTimerTriggered_spec {m r : TimeManager} (h : m.Sound) {now nowFd : ℕ}
    (hlen : m.stored.length < 2^64) (hr : m.onTimerTriggered now nowFd true = r) :
    r.Sound ∧ r.NextExact ∧ r.scheduled = m.scheduled ++ m.dueTasks now ∧
      TimedQueue.Release TimeTask.executeMs now m.stored (m.dueTasks now) r.stored ∧
      r.blockSizeMs = m.blockSizeMs ∧ r.baseTime = m.baseTime := by
  obtain ⟨f, heq⟩ := onTimerTriggered_eq h now nowFd hlen
  rw [hr] at heq
  obtain ⟨hblocks, hsize, hbase, -, -, hend⟩ := drained_frame h.wf now
  have hkeep : (m.drained now).stored = m.stored.filter fun t => now < t.executeMs :=
    drain_stored h.wf now
  have hst : r.stored = m.stored.filter fun t => now < t.executeMs := by
    rw [heq, ← hkeep]
    exact (stored_congr rfl rfl).trans (eraseBlocks_stored (drained_over h.wf now))
  have hsub : ∀ e ∈ r.timeBlocks.entries, e ∈ m.timeBlocks.entries := by
    intro e he
    rw [heq] at he
    exact hblocks ▸ List.mem_of_mem_filter he
  have hrsize : r.blockSizeMs = m.blockSizeMs := by rw [heq]; exact hsize
  have hrbase : r.baseTime = m.baseTime := by rw [heq]; exact hbase
  have hrend : ∀ p, (r.blocks p).endTime = (m.blocks p).endTime := by rw [heq]; exact hend
  have hsorted : r.stored.Pairwise fun s t => s.executeMs ≤ t.executeMs := by
    rw [hst]
    exact h.stored_sorted.sublist List.filter_sublist
  have hexact : r.NextExact :=
    nextExact_of_sorted hsorted (by rw [hst, ← hkeep, heq])
  refine ⟨⟨?_, ?_, ?_, ?_, ?_, ?_, ?_⟩, hexact, by rw [heq], ?_, hrsize, hrbase⟩
  · rw [heq]
    exact (eraseBlocks_wf (drain_wf h.wf now _) now).congr rfl rfl rfl
  · rw [hrsize]
    exact h.size
  · rw [hrbase, hrsize]
    exact fun e he => h.aligned e (hsub e he)
  · intro e he
    rw [hrend, hrsize]
    exact h.finish e (hsub e he)
  · rw [hrsize]
    exact fun e he => h.bound e (hsub e he)
  · have hlen' := dueTasks_length m now
    rw [hst, heq]
    dsimp only
    omega
  · exact fun t ht => (hexact.2 (List.ne_nil_of_mem ht)).2 t ht
  · rw [hst]
    exact TimedQueue.release_of_sorted TimeTask.executeMs h.stored_sorted now

/-! ### Whole runs -/

/-- A call together with the one clock value it reads. -/
inductive Op where
  | insert (task : Option TimeTask) (now : ℕ)
  | trigger (now : ℕ)

def Op.now : Op → ℕ
  | .insert _ now => now
  | .trigger now => now

/-- The end of the block a new task goes to is a `uint64_t`. -/
def Op.Fits (blockSizeMs baseTime : ℕ) : Op → Prop
  | .insert (some t) now => now < t.executeMs →
      baseTime + (t.executeMs - baseTime) / blockSizeMs * blockSizeMs + blockSizeMs < 2^64
  | _ => True

/-- Return value (0 for the `void` trigger) and store after a call whose
`timerfd_settime` succeeds. -/
def call (m : TimeManager) : Op → Option (ℤ × TimeManager)
  | .insert task now => m.insertTimeTask task now now now true
  | .trigger now => some (0, m.onTimerTriggered now now true)

def step (m : TimeManager) (op : Op) : Option TimeManager := (m.call op).map Prod.snd

/-- Block keys are unique and every task lies in the block of its execute time. -/
def BlocksOk (m : TimeManager) : Prop :=
  (m.timeBlocks.entries.map Prod.fst).Nodup ∧ ∀ e ∈ m.timeBlocks.entries,
    (m.blocks e.2).startTime = e.1 ∧ e.1 ≡ m.baseTime [MOD m.blockSizeMs] ∧
      ∀ t ∈ (m.blocks e.2).tasks, (m.blocks e.2).startTime ≤ t.executeMs ∧
        t.executeMs < (m.blocks e.2).endTime

def NextCovers (m : TimeManager) : Prop := ∀ t ∈ m.stored, m.nextTimerTime ≤ t.executeMs

def Refines (m : TimeManager) (op : Op) (rc : ℤ) (r : TimeManager) : Prop :=
  match op with
  | .insert none _ => rc = -1 ∧ r = m
  | .insert (some t) now => rc = 0 ∧ ∃ out, r.scheduled = m.scheduled ++ out ∧
      TimedQueue.Add TimeTask.executeMs t now m.stored out r.stored
  | .trigger now => (∃ out, r.scheduled = m.scheduled ++ out ∧
      TimedQueue.Release TimeTask.executeMs now m.stored out r.stored) ∧ r.NextExact

theorem Sound.blocksOk {m : TimeManager} (h : m.Sound) : m.BlocksOk := by
  constructor
  · exact List.pairwise_map.mpr (h.wf.keys.imp fun hlt => hlt.ne)
  · intro e he
    refine ⟨h.wf.start e he, ?_, fun t ht => (h.wf.filed e.2).mem_range ht⟩
    obtain ⟨n, hn⟩ := h.aligned e he
    rw [hn]
    simp only [Nat.ModEq, Nat.add_mul_mod_self_right]

theorem schedule_sound {m : TimeManager} (h : m.Sound) (task : TimeTask) :
    (m.schedule task).Sound :=
  ⟨h.wf.congr rfl rfl rfl, h.size, h.aligned, h.finish, h.bound, h.count, h.next⟩

theorem insertTimeTask_spec {m : TimeManager} (h : m.Sound) (t : TimeTask) {now : ℕ}
    (hb : m.baseTime ≤ now) (ho : (Op.insert (some t) now).Fits m.blockSizeMs m.baseTime)
    (hc : m.stored.length + 1 < 2^64) :
    ∃ r, m.insertTimeTask (some t) now now now true = some (0, r) ∧ r.Sound ∧
      (∃ out, r.scheduled = m.scheduled ++ out ∧
        TimedQueue.Add TimeTask.executeMs t now m.stored out r.stored) ∧
      r.blockSizeMs = m.blockSizeMs ∧ r.baseTime = m.baseTime := by
  by_cases hlate : t.executeMs ≤ now
  · refine ⟨m.schedule t, by simp only [insertTimeTask, hlate, ite_true], schedule_sound h t,
      ⟨[t], rfl, ?_⟩, rfl, rfl⟩
    exact ⟨fun _ => ⟨rfl, rfl⟩, fun hlt => absurd hlt (not_lt.mpr hlate)⟩
  · have hearly : now < t.executeMs := not_le.mp hlate
    obtain ⟨k, p, r, hget, hr, hmem, hin, hst, hsch, -, -, hsz, hbs⟩ :=
      getOrCreate_spec h hb hearly.le (ho hearly)
    obtain ⟨q, hplace, hq, hqst, hqsch, hqsz, hqbs⟩ :=
      place_spec hr now hmem hin (by rw [hst]; exact hc)
    refine ⟨q, ?_, hq, ⟨[], ?_, ?_⟩, hqsz.trans hsz, hqbs.trans hbs⟩
    · simp only [insertTimeTask, hlate, ite_false, hget, Option.map_some, hplace]
    · rw [hqsch, hsch, List.append_nil]
    · refine ⟨fun hle => absurd hle hlate, fun _ => ⟨rfl, ?_⟩⟩
      rw [hqst, hst]

theorem call_spec {m : TimeManager} (h : m.Sound) {op : Op} (hb : m.baseTime ≤ op.now)
    (ho : op.Fits m.blockSizeMs m.baseTime) (hc : m.stored.length + 1 < 2^64) :
    ∃ rc r, m.call op = some (rc, r) ∧ r.Sound ∧ m.Refines op rc r ∧
      r.blockSizeMs = m.blockSizeMs ∧ r.baseTime = m.baseTime ∧
      r.stored.length ≤ m.stored.length + 1 := by
  cases op with
  | insert task now =>
    cases task with
    | none => exact ⟨-1, m, rfl, h, ⟨rfl, rfl⟩, rfl, rfl, Nat.le_succ _⟩
    | some t =>
      obtain ⟨r, hr, hs, ⟨out, hout, hadd⟩, hsz, hbs⟩ := insertTimeTask_spec h t hb ho hc
      refine ⟨0, r, hr, hs, ⟨rfl, out, hout, hadd⟩, hsz, hbs, ?_⟩
      rcases le_or_gt t.executeMs now with hle | hlt
      · have hcard := congrArg Multiset.card (hadd.late hle).2
        simp only [Multiset.coe_card] at hcard
        omega
      · have hcard := congrArg Multiset.card (hadd.early hlt).2
        simp only [Multiset.coe_card, Multiset.card_cons] at hcard
        omega
  | trigger now =>
    obtain ⟨hs, hexact, hsch, hrel, hsz, hbs⟩ :=
      @onTimerTriggered_spec m _ h now now (by omega) rfl
    refine ⟨0, _, rfl, hs, ⟨⟨_, hsch, hrel⟩, hexact⟩, hsz, hbs, ?_⟩
    have hcard := congrArg Multiset.card hrel.kept
    have hle := Multiset.card_le_card
      (Multiset.filter_le (fun t => now < t.executeMs) (m.stored : Multiset TimeTask))
    simp only [Multiset.coe_card] at hcard hle
    omega

theorem run_sound {m : TimeManager} (h : m.Sound) {ops : List Op}
    (hb : ∀ op ∈ ops, m.baseTime ≤ op.now) (ho : ∀ op ∈ ops, op.Fits m.blockSizeMs m.baseTime)
    (hc : m.stored.length + ops.length < 2^64) :
    ∃ r, exec step m ops = some r ∧ r.Sound ∧ r.blockSizeMs = m.blockSizeMs ∧
      r.baseTime = m.baseTime ∧ r.stored.length ≤ m.stored.length + ops.length := by
  induction ops generalizing m with
  | nil => exact ⟨m, rfl, h, rfl, rfl, le_rfl⟩
  | cons op ops ih =>
    simp only [List.length_cons] at hc
    obtain ⟨rc, q, hcall, hq, -, hsz, hbs, hlen⟩ :=
      call_spec h (hb op (List.mem_cons_self ..)) (ho op (List.mem_cons_self ..)) (by omega)
    obtain ⟨r, hr, hrs, hrsz, hrbs, hrlen⟩ := ih hq
      (fun o hm => hbs ▸ hb o (List.mem_cons_of_mem _ hm))
      (fun o hm => by rw [hsz, hbs]; exact ho o (List.mem_cons_of_mem _ hm)) (by omega)
    refine ⟨r, ?_, hrs, hrsz.trans hsz, hrbs.trans hbs, ?_⟩
    · simp only [exec, step, hcall, Option.map_some, Option.bind_some]
      exact hr
    · simp only [List.length_cons]
      omega

/-- After any run of calls, the next call acts on the store as it acts on the timed
queue. The clock values need not be ordered for this. -/
theorem run_refines_timed_queue (blockSizeMs baseTime : ℕ) (ops : List Op) (op : Op)
    (hsize : 0 < blockSizeMs) (hclock : ∀ o ∈ ops ++ [op], baseTime ≤ o.now)
    (hfits : ∀ o ∈ ops ++ [op], o.Fits blockSizeMs baseTime) (hcalls : ops.length + 1 < 2^64) :
    ∃ m rc r, exec step (init blockSizeMs baseTime) ops = some m ∧ m.call op = some (rc, r) ∧
      m.Refines op rc r ∧ (m.BlocksOk ∧ r.BlocksOk) ∧
      (m.timerCount = m.stored.length ∧ r.timerCount = r.stored.length) ∧
      (m.NextCovers ∧ r.NextCovers) := by
  obtain ⟨m, hm, hs, hsz, hbs, hlen⟩ := run_sound (init_sound baseTime hsize)
    (fun o ho => hclock o (List.mem_append_left _ ho))
    (fun o ho => hfits o (List.mem_append_left _ ho))
    (by change 0 + ops.length < _; omega)
  have hlen' : m.stored.length ≤ 0 + ops.length := hlen
  have hlast : op ∈ ops ++ [op] := List.mem_append_right _ (List.mem_singleton_self op)
  have hb : m.baseTime ≤ op.now := by
    rw [hbs]
    exact hclock op hlast
  have hf : op.Fits m.blockSizeMs m.baseTime := by
    rw [hsz, hbs]
    exact hfits op hlast
  obtain ⟨rc, r, hcall, hr, href, -, -, -⟩ := call_spec hs hb hf (by omega)
  exact ⟨m, rc, r, hm, hcall, href, ⟨hs.blocksOk, hr.blocksOk⟩, ⟨hs.count, hr.count⟩,
    ⟨hs.next, hr.next⟩⟩

theorem run_refines_timed_queue_two_blocks :
    ∃ m rc r, exec step (init 10 100)
        [.insert (some (.create 1 100 25 false)) 100, .insert (some (.create 2 101 7 true)) 101] =
          some m ∧
      m.call (.trigger 110) = some (rc, r) ∧ m.Refines (.trigger 110) rc r ∧
      (m.BlocksOk ∧ r.BlocksOk) ∧
      (m.timerCount = m.stored.length ∧ r.timerCount = r.stored.length) ∧
      (m.NextCovers ∧ r.NextCovers) := by
  refine run_refines_timed_queue 10 100 _ (.trigger 110) (by decide) ?_ ?_ (by decide)
  · intro o ho
    simp only [List.cons_append, List.nil_append, List.mem_cons, List.not_mem_nil, or_false] at ho
    rcases ho with rfl | rfl | rfl <;> decide
  · intro o ho
    simp only [List.cons_append, List.nil_append, List.mem_cons, List.not_mem_nil, or_false] at ho
    rcases ho with rfl | rfl | rfl
    · exact fun _ => by decide
    · exact fun _ => by decide
    · trivial

end TimeManager
end MSylar.Timer
