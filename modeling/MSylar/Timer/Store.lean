import Mathlib.Algebra.Order.Group.Multiset
import Mathlib.Tactic.Abel
import MSylar.Timer.Manager

/-!
# What the store holds

`stored` lists the tasks of all blocks reachable from `timeBlocks`, in the order
of the map. `Wf` ties the map to the heap: distinct keys, distinct blocks, every
block filed under its own start. Each region of the store is described once by
what it does to `Wf` and to `stored`.
-/

namespace MSylar.Timer
open MSylar.Word

namespace TimeManager

def stored (m : TimeManager) : List TimeTask :=
  m.timeBlocks.entries.flatMap fun e => (m.blocks e.2).tasks

structure Wf (m : TimeManager) : Prop where
  keys : m.timeBlocks.entries.Pairwise fun a b => a.1 < b.1
  addrs : (m.timeBlocks.entries.map Prod.snd).Nodup
  below : ∀ e ∈ m.timeBlocks.entries, e.2 < m.fresh
  start : ∀ e ∈ m.timeBlocks.entries, (m.blocks e.2).startTime = e.1
  range : ∀ e ∈ m.timeBlocks.entries, e.1 < (m.blocks e.2).endTime
  filed : ∀ p, (m.blocks p).Filed
  unused : ∀ p, m.fresh ≤ p → (m.blocks p).tasks = []

theorem init_wf (blockSizeMs baseTime : ℕ) : (init blockSizeMs baseTime).Wf where
  keys := List.Pairwise.nil
  addrs := List.nodup_nil
  below := by intro e he; cases he
  start := by intro e he; cases he
  range := by intro e he; cases he
  filed := by intro p e he; cases he
  unused := fun _ _ => rfl

theorem mem_stored {m : TimeManager} {t : TimeTask} :
    t ∈ m.stored ↔ ∃ e ∈ m.timeBlocks.entries, t ∈ (m.blocks e.2).tasks := List.mem_flatMap

theorem Wf.congr {m n : TimeManager} (h : m.Wf) (hb : n.timeBlocks = m.timeBlocks)
    (hh : n.blocks = m.blocks) (hf : n.fresh = m.fresh) : n.Wf where
  keys := hb ▸ h.keys
  addrs := hb ▸ h.addrs
  below := by rw [hb, hf]; exact h.below
  start := by rw [hb, hh]; exact h.start
  range := by rw [hb, hh]; exact h.range
  filed := by rw [hh]; exact h.filed
  unused := by rw [hh, hf]; exact h.unused

theorem stored_congr {m n : TimeManager} (hb : n.timeBlocks = m.timeBlocks)
    (hh : n.blocks = m.blocks) : n.stored = m.stored := by
  simp only [stored, hb, hh]

/-! ### createBlock -/

theorem insertEntry_flatMap {β : Type*} (e : ℕ × ℕ) (l : List (ℕ × ℕ)) (f : ℕ × ℕ → List β)
    (he : f e = []) : (Multimap.insertEntry e l).flatMap f = l.flatMap f := by
  induction l with
  | nil => simp only [Multimap.insertEntry, List.flatMap_cons, he, List.nil_append]
  | cons x xs ih =>
    unfold Multimap.insertEntry
    split
    · simp only [List.flatMap_cons, ih]
    · simp only [List.flatMap_cons, he, List.nil_append]

theorem createBlock_found {m : TimeManager} {start p : ℕ} (h : m.timeBlocks.find start = some p) :
    m.createBlock start = (p, m) := by
  simp only [createBlock, h]

theorem createBlock_fresh {m : TimeManager} {start : ℕ} (h : m.timeBlocks.find start = none) :
    m.createBlock start = (m.fresh,
      { m with timeBlocks := m.timeBlocks.insert start m.fresh
               blocks := Function.update m.blocks m.fresh (.new start (add64 start m.blockSizeMs))
               fresh := m.fresh + 1 }) := by
  simp only [createBlock, h]

theorem createBlock_wf {m : TimeManager} (h : m.Wf) {start : ℕ}
    (hr : start < add64 start m.blockSizeMs) : (m.createBlock start).2.Wf := by
  cases hf : m.timeBlocks.find start with
  | some p => rw [createBlock_found hf]; exact h
  | none =>
    rw [createBlock_fresh hf]
    have hperm := m.timeBlocks.insert_perm start m.fresh
    have hold : ∀ e ∈ m.timeBlocks.entries, e.2 ≠ m.fresh := fun e he => (h.below e he).ne
    constructor
    · -- the key is new, so the sorted insertion is strict
      have hne : ((start, m.fresh) :: m.timeBlocks.entries).Pairwise fun a b => a.1 ≠ b.1 :=
        List.pairwise_cons.mpr ⟨fun e he => (Multimap.find_eq_none hf e he).symm,
          h.keys.imp fun hlt => hlt.ne⟩
      have hne' := (hperm.pairwise_iff fun {a b} (hab : a.1 ≠ b.1) => hab.symm).mpr hne
      exact (m.timeBlocks.insert start m.fresh).sorted.imp₂ (fun _ _ hle hn => lt_of_le_of_ne hle hn)
        hne'
    · refine (hperm.map Prod.snd).nodup_iff.mpr (List.nodup_cons.mpr ⟨?_, h.addrs⟩)
      intro hmem
      obtain ⟨e, he, hp⟩ := List.mem_map.mp hmem
      exact hold e he hp
    · intro e he
      rcases Multimap.mem_insert.mp he with rfl | he
      · exact Nat.lt_succ_self _
      · exact Nat.lt_succ_of_lt (h.below e he)
    · intro e he
      rcases Multimap.mem_insert.mp he with rfl | he
      · simp only [Function.update_self, TimerBlock.new]
      · simp only [Function.update_of_ne (hold e he), h.start e he]
    · intro e he
      rcases Multimap.mem_insert.mp he with rfl | he
      · simpa only [Function.update_self, TimerBlock.new] using hr
      · simpa only [Function.update_of_ne (hold e he)] using h.range e he
    · intro p
      by_cases hp : p = m.fresh
      · subst hp
        simp only [Function.update_self]
        intro e he
        cases he
      · simpa only [Function.update_of_ne hp] using h.filed p
    · intro p hp
      have hp' : m.fresh < p := hp
      simpa only [Function.update_of_ne hp'.ne'] using h.unused p hp'.le

theorem createBlock_stored {m : TimeManager} (h : m.Wf) (start : ℕ) :
    (m.createBlock start).2.stored = m.stored := by
  cases hf : m.timeBlocks.find start with
  | some p => rw [createBlock_found hf]
  | none =>
    rw [createBlock_fresh hf]
    simp only [stored, Multimap.insert]
    rw [insertEntry_flatMap _ _ _ (by simp only [Function.update_self]; rfl)]
    refine List.flatMap_congr fun e he => ?_
    rw [Function.update_of_ne (h.below e he).ne]

theorem createBlock_mem {m : TimeManager} (start : ℕ) :
    (start, (m.createBlock start).1) ∈ (m.createBlock start).2.timeBlocks.entries := by
  cases hf : m.timeBlocks.find start with
  | some p => rw [createBlock_found hf]; exact Multimap.find_mem hf
  | none => rw [createBlock_fresh hf]; exact Multimap.mem_insert.mpr (.inl rfl)

/-! ### TimerBlock::insert and TimerBlock::getAndRemove through a pointer -/

theorem Wf.setBlock {m : TimeManager} (h : m.Wf) {p : ℕ} {b : TimerBlock}
    (hs : b.startTime = (m.blocks p).startTime) (he : b.endTime = (m.blocks p).endTime)
    (hf : b.Filed) (hu : m.fresh ≤ p → b.tasks = []) : (m.setBlock p b).Wf := by
  have hget : ∀ q, ((m.setBlock p b).blocks q).startTime = (m.blocks q).startTime ∧
      ((m.setBlock p b).blocks q).endTime = (m.blocks q).endTime := by
    intro q
    by_cases hq : q = p
    · subst hq
      simp only [TimeManager.setBlock, Function.update_self, hs, he, and_self]
    · simp only [TimeManager.setBlock, Function.update_of_ne hq, and_self]
  constructor
  · exact h.keys
  · exact h.addrs
  · exact h.below
  · intro e hmem
    rw [(hget e.2).1]
    exact h.start e hmem
  · intro e hmem
    rw [(hget e.2).2]
    exact h.range e hmem
  · intro q
    by_cases hq : q = p
    · subst hq
      simpa only [TimeManager.setBlock, Function.update_self] using hf
    · simpa only [TimeManager.setBlock, Function.update_of_ne hq] using h.filed q
  · intro q hq
    by_cases hqp : q = p
    · subst hqp
      simpa only [TimeManager.setBlock, Function.update_self] using hu hq
    · simpa only [TimeManager.setBlock, Function.update_of_ne hqp] using h.unused q hq

theorem inRange_iff {m : TimeManager} {p t : ℕ} :
    m.inRange p t = true ↔ (m.blocks p).startTime ≤ t ∧ t < (m.blocks p).endTime := by
  simp only [inRange, Bool.and_eq_true, decide_eq_true_eq]

theorem insertInBlock_wf {m : TimeManager} (h : m.Wf) {p : ℕ} {task : TimeTask} (hp : p < m.fresh)
    (hr : m.inRange p task.executeMs = true) : (m.insertInBlock p task).Wf := by
  obtain ⟨hs, he⟩ := inRange_iff.mp hr
  exact h.setBlock rfl rfl (TimerBlock.filed_insert (h.filed p) hs he)
    (fun hn => absurd hp (not_lt.mpr hn))

theorem drainBlock_wf {m : TimeManager} (h : m.Wf) (p now : ℕ) : (m.drainBlock p now).2.Wf := by
  refine h.setBlock rfl rfl (TimerBlock.filed_getAndRemove (h.filed p) now) fun hp => ?_
  have happ := TimerBlock.getAndRemove_append (m.blocks p) now
  rw [h.unused p hp] at happ
  exact (List.append_eq_nil_iff.mp happ).2

/-- Writing one reachable block changes the stored tasks by that block only. -/
theorem stored_setBlock {m : TimeManager} (h : m.Wf) {k p : ℕ}
    (hmem : (k, p) ∈ m.timeBlocks.entries) (b : TimerBlock) :
    ((m.setBlock p b).stored : Multiset TimeTask) + (m.blocks p).tasks =
      (m.stored : Multiset TimeTask) + b.tasks := by
  have hnodup := h.addrs
  simp only [stored, TimeManager.setBlock]
  generalize m.timeBlocks.entries = l at hmem hnodup
  induction l with
  | nil => cases hmem
  | cons x xs ih =>
    obtain ⟨hx, hxs⟩ := List.nodup_cons.mp hnodup
    rcases List.mem_cons.mp hmem with rfl | hmem
    · -- the block is this entry; it occurs nowhere behind it
      have hrest : xs.flatMap (fun e => (Function.update m.blocks p b e.2).tasks) =
          xs.flatMap fun e => (m.blocks e.2).tasks := by
        refine List.flatMap_congr fun e he => ?_
        have hne : e.2 ≠ p := fun heq => hx (List.mem_map.mpr ⟨e, he, heq⟩)
        rw [Function.update_of_ne hne]
      simp only [List.flatMap_cons, Function.update_self, hrest, ← Multiset.coe_add]
      abel
    · have hne : x.2 ≠ p := fun heq => hx (List.mem_map.mpr ⟨(k, p), hmem, heq.symm⟩)
      have hi := ih hmem hxs
      simp only [List.flatMap_cons, Function.update_of_ne hne, ← Multiset.coe_add] at hi ⊢
      rw [add_assoc, hi, add_assoc]

theorem stored_setBlock_unreachable {m : TimeManager} {p : ℕ}
    (hp : p ∉ m.timeBlocks.entries.map Prod.snd) (b : TimerBlock) :
    (m.setBlock p b).stored = m.stored := by
  refine List.flatMap_congr fun e he => ?_
  have hne : e.2 ≠ p := fun heq => hp (List.mem_map.mpr ⟨e, he, heq⟩)
  simp only [TimeManager.setBlock, Function.update_of_ne hne]

theorem stored_insertInBlock {m : TimeManager} (h : m.Wf) {k p : ℕ}
    (hmem : (k, p) ∈ m.timeBlocks.entries) (task : TimeTask) :
    ((m.insertInBlock p task).stored : Multiset TimeTask) = task ::ₘ m.stored := by
  have hset := stored_setBlock h hmem ((m.blocks p).insert task)
  have hins : (((m.blocks p).insert task).tasks : Multiset TimeTask) =
      task ::ₘ ((m.blocks p).tasks : Multiset TimeTask) :=
    Multiset.coe_eq_coe.mpr (TimerBlock.tasks_insert _ task)
  rw [hins, Multiset.add_cons, ← Multiset.cons_add] at hset
  exact add_right_cancel hset

/-! ### Collecting and erasing blocks -/

theorem mem_collect {m : TimeManager} {now p : ℕ} :
    p ∈ m.collect now ↔ ∃ k ≤ now, (k, p) ∈ m.timeBlocks.entries := by
  simp only [collect, Multimap.upTo_eq_filter, List.mem_map, List.mem_filter, decide_eq_true_eq,
    Prod.exists, exists_eq_right]
  exact ⟨fun ⟨k, hm, hk⟩ => ⟨k, hk, hm⟩, fun ⟨k, hk, hm⟩ => ⟨k, hm, hk⟩⟩

theorem eraseBlocks_wf {m : TimeManager} (h : m.Wf) (now : ℕ) : (m.eraseBlocks now).Wf := by
  have hsub : (m.eraseBlocks now).timeBlocks.entries.Sublist m.timeBlocks.entries :=
    List.filter_sublist
  constructor
  · exact h.keys.sublist hsub
  · exact h.addrs.sublist (hsub.map Prod.snd)
  · exact fun e he => h.below e (hsub.subset he)
  · exact fun e he => h.start e (hsub.subset he)
  · exact fun e he => h.range e (hsub.subset he)
  · exact h.filed
  · exact h.unused

/-- The erase loop loses no task when the blocks that are over are empty. -/
theorem eraseBlocks_stored {m : TimeManager} {now : ℕ}
    (hover : ∀ e ∈ m.timeBlocks.entries, (m.blocks e.2).endTime ≤ now → (m.blocks e.2).tasks = []) :
    (m.eraseBlocks now).stored = m.stored := by
  simp only [stored, eraseBlocks, Multimap.filter]
  generalize m.timeBlocks.entries = l at hover
  induction l with
  | nil => rfl
  | cons x xs ih =>
    have hi := ih fun e he => hover e (List.mem_cons_of_mem _ he)
    by_cases hx : m.erasable now x = true
    · have hempty : (m.blocks x.2).tasks = [] := by
        simp only [erasable, Bool.or_eq_true, decide_eq_true_eq] at hx
        rcases hx with hx | hx
        · exact hover x (List.mem_cons_self ..) hx
        · exact (TimerBlock.isEmpty_iff _).mp hx
      simp only [List.filter_cons, hx, Bool.not_true, Bool.false_eq_true, ite_false, hi,
        List.flatMap_cons, hempty, List.nil_append]
    · simp only [List.filter_cons, hx, Bool.not_false, ite_true, List.flatMap_cons, hi]

end TimeManager
end MSylar.Timer
