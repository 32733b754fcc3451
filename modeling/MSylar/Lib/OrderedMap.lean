import Mathlib.Algebra.GroupWithZero.Nat
import Mathlib.Data.List.Basic
import Mathlib.Order.Lattice

/-!
# Ordered maps

`std::map` with a comparator that looks at `f` of the keys: entries in the strict order of `f`, so
that keys with the same `f` are one key. An assignment to a key that is there keeps its spelling.
-/

namespace MSylar

structure OrderedMap {κ ι : Type*} [LinearOrder ι] (f : κ → ι) (ν : Type*) where
  entries : List (κ × ν)
  sorted : entries.Pairwise fun a b => f a.1 < f b.1

namespace OrderedMap
variable {κ ι ν : Type*} [LinearOrder ι] {f : κ → ι}

@[ext] theorem ext {m m' : OrderedMap f ν} (h : m.entries = m'.entries) : m = m' := by
  cases m
  cases m'
  cases h
  rfl

instance [DecidableEq κ] [DecidableEq ν] : DecidableEq (OrderedMap f ν) := fun m m' =>
  decidable_of_iff (m.entries = m'.entries) ⟨ext, fun h => h ▸ rfl⟩

def empty : OrderedMap f ν := ⟨[], List.Pairwise.nil⟩

/-- `m[k] = v` -/
def assign (f : κ → ι) (k : κ) (v : ν) : List (κ × ν) → List (κ × ν)
  | [] => [(k, v)]
  | e :: es =>
    if f k < f e.1 then (k, v) :: e :: es
    else if f e.1 < f k then e :: assign f k v es
    else (e.1, v) :: es

theorem mem_assign {k : κ} {v : ν} {es : List (κ × ν)} {e : κ × ν} (h : e ∈ assign f k v es) :
    f e.1 = f k ∨ e ∈ es := by
  induction es with
  | nil => exact .inl (List.mem_singleton.mp h ▸ rfl)
  | cons x es ih =>
    unfold assign at h
    split_ifs at h with hlt hgt
    · rcases List.mem_cons.mp h with rfl | h
      · exact .inl rfl
      · exact .inr h
    · rcases List.mem_cons.mp h with rfl | h
      · exact .inr List.mem_cons_self
      · exact (ih h).imp_right (List.mem_cons_of_mem x)
    · rcases List.mem_cons.mp h with rfl | h
      · exact .inl (le_antisymm (not_lt.mp hlt) (not_lt.mp hgt))
      · exact .inr (List.mem_cons_of_mem x h)

/-- An entry that is new has the new value; its key is the new one, or one that was there. -/
theorem mem_assign_value {k : κ} {v : ν} {es : List (κ × ν)} {e : κ × ν}
    (h : e ∈ assign f k v es) : e ∈ es ∨ e.2 = v ∧ (e.1 = k ∨ ∃ v', (e.1, v') ∈ es) := by
  induction es with
  | nil =>
    rw [assign, List.mem_singleton] at h
    exact .inr (h ▸ ⟨rfl, .inl rfl⟩)
  | cons x es ih =>
    unfold assign at h
    split_ifs at h
    · rcases List.mem_cons.mp h with rfl | h
      · exact .inr ⟨rfl, .inl rfl⟩
      · exact .inl h
    · rcases List.mem_cons.mp h with rfl | h
      · exact .inl List.mem_cons_self
      · rcases ih h with hold | ⟨hv, hk | ⟨v', hold⟩⟩
        · exact .inl (List.mem_cons_of_mem x hold)
        · exact .inr ⟨hv, .inl hk⟩
        · exact .inr ⟨hv, .inr ⟨v', List.mem_cons_of_mem x hold⟩⟩
    · rcases List.mem_cons.mp h with rfl | h
      · exact .inr ⟨rfl, .inr ⟨x.2, List.mem_cons_self⟩⟩
      · exact .inl (List.mem_cons_of_mem x h)

theorem assign_sorted {k : κ} {v : ν} {es : List (κ × ν)}
    (h : es.Pairwise fun a b => f a.1 < f b.1) :
    (assign f k v es).Pairwise fun a b => f a.1 < f b.1 := by
  induction es with
  | nil => exact List.pairwise_singleton _ _
  | cons x es ih =>
    obtain ⟨hx, hes⟩ := List.pairwise_cons.mp h
    unfold assign
    split_ifs with hlt hgt
    · refine List.pairwise_cons.mpr ⟨fun y hy => ?_, h⟩
      rcases List.mem_cons.mp hy with rfl | hy
      · exact hlt
      · exact hlt.trans (hx y hy)
    · refine List.pairwise_cons.mpr ⟨fun y hy => ?_, ih hes⟩
      rcases mem_assign hy with hy | hy
      · exact hy ▸ hgt
      · exact hx y hy
    · exact List.pairwise_cons.mpr ⟨hx, hes⟩

def set (m : OrderedMap f ν) (k : κ) (v : ν) : OrderedMap f ν :=
  ⟨assign f k v m.entries, assign_sorted m.sorted⟩

def find (m : OrderedMap f ν) (k : κ) : Option ν :=
  (m.entries.find? fun e => f e.1 = f k).map Prod.snd

def erase (m : OrderedMap f ν) (k : κ) : OrderedMap f ν :=
  ⟨m.entries.filter fun e => f e.1 ≠ f k, m.sorted.sublist List.filter_sublist⟩

@[simp] theorem find_empty (k : κ) : (empty : OrderedMap f ν).find k = none := rfl

theorem find?_assign (k k' : κ) (v : ν) (es : List (κ × ν))
    (h : es.Pairwise fun a b => f a.1 < f b.1) :
    ((assign f k v es).find? fun e => f e.1 = f k').map Prod.snd =
      if f k = f k' then some v else (es.find? fun e => f e.1 = f k').map Prod.snd := by
  induction es with
  | nil =>
    unfold assign
    split_ifs with hk
    · simp [hk]
    · simp [hk]
  | cons x es ih =>
    obtain ⟨hx, hes⟩ := List.pairwise_cons.mp h
    unfold assign
    split_ifs with hlt hk hgt hk hk
    · simp [hk]
    · simp [hk]
    · have hne : f x.1 ≠ f k' := fun heq => absurd (hk.trans heq.symm) hgt.ne'
      rw [List.find?_cons_of_neg (by simpa using hne), ih hes, if_pos hk]
    · by_cases hxk : f x.1 = f k'
      · simp [hxk]
      · rw [List.find?_cons_of_neg (by simpa using hxk),
          List.find?_cons_of_neg (by simpa using hxk), ih hes, if_neg hk]
    · have hxk : f x.1 = f k := le_antisymm (not_lt.mp hlt) (not_lt.mp hgt)
      simp [hxk, hk]
    · have hxk : f x.1 = f k := le_antisymm (not_lt.mp hlt) (not_lt.mp hgt)
      have hne : f x.1 ≠ f k' := fun heq => hk (hxk.symm.trans heq)
      simp [hne]

theorem find_set (m : OrderedMap f ν) (k k' : κ) (v : ν) :
    (m.set k v).find k' = if f k = f k' then some v else m.find k' :=
  find?_assign k k' v m.entries m.sorted

theorem find_erase (m : OrderedMap f ν) (k k' : κ) :
    (m.erase k).find k' = if f k = f k' then none else m.find k' := by
  unfold find erase
  rw [List.find?_filter]
  split_ifs with hk
  · rw [Option.map_eq_none_iff, List.find?_eq_none]
    intro e _
    simp only [ne_eq, decide_not, Bool.not_eq_true', decide_eq_false_iff_not,
      decide_eq_true_eq, not_and]
    exact fun hne heq => hne (heq.trans hk.symm)
  · congr 2
    funext e
    by_cases he : f e.1 = f k'
    · have hne : f e.1 ≠ f k := fun heq => hk (heq.symm.trans he)
      simp [he, Ne.symm hk]
    · simp [he]

theorem entries_set_last {m : OrderedMap f ν} {k : κ} (h : ∀ e ∈ m.entries, f e.1 < f k) (v : ν) :
    (m.set k v).entries = m.entries ++ [(k, v)] := by
  obtain ⟨es, hsorted⟩ := m
  unfold set
  dsimp only at h ⊢
  clear hsorted
  induction es with
  | nil => rfl
  | cons x es ih =>
    have hx := h x List.mem_cons_self
    rw [assign, if_neg hx.not_gt, if_pos hx, ih fun e he => h e (List.mem_cons_of_mem x he)]
    rfl

theorem find_of_forall_lt {m : OrderedMap f ν} {k : κ} (h : ∀ e ∈ m.entries, f e.1 < f k) :
    m.find k = none := by
  unfold find
  rw [Option.map_eq_none_iff, List.find?_eq_none]
  intro e he
  simpa using (h e he).ne

/-! ### Sizes -/

/-- The size of the entries, for given sizes of keys and values. -/
def weight (wk : κ → ℕ) (wv : ν → ℕ) (m : OrderedMap f ν) : ℕ :=
  (m.entries.map fun e => wk e.1 + wv e.2).sum

/-- An assignment replaces the old value of its key. -/
theorem weight_set_le (wk : κ → ℕ) (wv : ν → ℕ) (m : OrderedMap f ν) (k : κ) (v : ν) :
    (m.set k v).weight wk wv + (m.find k).elim 0 wv ≤ m.weight wk wv + wk k + wv v := by
  obtain ⟨es, hsorted⟩ := m
  unfold weight set find
  dsimp only
  induction es with
  | nil => simp [assign]
  | cons x es ih =>
    obtain ⟨hx, hes⟩ := List.pairwise_cons.mp hsorted
    have hrest := ih hes
    unfold assign
    split_ifs with hlt hgt
    · have hnone : ((x :: es).find? fun e => f e.1 = f k) = none := by
        rw [List.find?_eq_none]
        intro e he
        rcases List.mem_cons.mp he with rfl | he
        · simpa using hlt.ne'
        · simpa using (hlt.trans (hx e he)).ne'
      rw [hnone]
      simp only [List.map_cons, List.sum_cons, Option.map_none, Option.elim_none]
      omega
    · have hne : f x.1 ≠ f k := hgt.ne
      rw [List.find?_cons_of_neg (by simpa using hne)]
      simp only [List.map_cons, List.sum_cons]
      omega
    · have heq : f x.1 = f k := le_antisymm (not_lt.mp hlt) (not_lt.mp hgt)
      rw [List.find?_cons_of_pos (by simpa using heq)]
      simp only [List.map_cons, List.sum_cons, Option.map_some, Option.elim_some]
      omega

end OrderedMap

end MSylar
