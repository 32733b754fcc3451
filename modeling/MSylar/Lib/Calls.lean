import Mathlib.Algebra.BigOperators.Group.List.Basic
import Mathlib.Algebra.GroupWithZero.Nat
import Mathlib.Data.List.Basic
import Mathlib.Data.List.Perm.Basic
import Mathlib.Data.Multiset.ZeroCons

/-!
# Concurrent calls on shared data

A `World` is shared data and the list of all calls started so far, each at its
own program point. `advance` lets one call take its next atomic step. A property
of every call is kept when the step is harmless for the others
(`forall_set`); a quantity added up over the calls changes by what the one call
contributes (`sum_set`).
-/

namespace MSylar.Calls
variable {S L : Type*}

structure World (S L : Type*) where
  shared : S
  calls : List L

def World.enter (w : World S L) (c : L) : World S L := ⟨w.shared, w.calls ++ [c]⟩

/-- Call `i` takes a step: `run` gives the shared data and the call after it. -/
def World.advance (run : S → L → Option (S × L)) (w : World S L) (i : ℕ) : Option (World S L) :=
  w.calls[i]?.bind fun c => (run w.shared c).map fun r => ⟨r.1, w.calls.set i r.2⟩

theorem advance_cases {run : S → L → Option (S × L)} {w w' : World S L} {i : ℕ}
    (h : w.advance run i = some w') :
    ∃ c s c', w.calls[i]? = some c ∧ run w.shared c = some (s, c') ∧
      w' = ⟨s, w.calls.set i c'⟩ := by
  unfold World.advance at h
  obtain ⟨c, hc, h⟩ := Option.bind_eq_some_iff.mp h
  obtain ⟨⟨s, c'⟩, hr, h⟩ := Option.map_eq_some_iff.mp h
  exact ⟨c, s, c', hc, hr, h.symm⟩

theorem advance_eq {run : S → L → Option (S × L)} {w : World S L} {i : ℕ} {c c' : L} {s : S}
    (hi : w.calls[i]? = some c) (hr : run w.shared c = some (s, c')) :
    w.advance run i = some ⟨s, w.calls.set i c'⟩ := by
  rw [World.advance, hi, Option.bind_some, hr, Option.map_some]

theorem set_split {l : List L} {i : ℕ} {c : L} (h : l[i]? = some c) :
    ∃ a b, l = a ++ c :: b ∧ ∀ c', l.set i c' = a ++ c' :: b := by
  induction l generalizing i with
  | nil => cases h
  | cons x xs ih =>
    cases i with
    | zero =>
      cases h
      exact ⟨[], xs, rfl, fun _ => rfl⟩
    | succ i =>
      obtain ⟨a, b, hl, hset⟩ := ih h
      refine ⟨x :: a, b, by rw [hl, List.cons_append], fun c' => ?_⟩
      rw [List.set_cons_succ, hset, List.cons_append]

theorem erase_split {l : List L} {i : ℕ} {c : L} (h : l[i]? = some c) :
    ∃ a b, l = a ++ c :: b ∧ l.eraseIdx i = a ++ b := by
  induction l generalizing i with
  | nil => cases h
  | cons x xs ih =>
    cases i with
    | zero =>
      cases h
      exact ⟨[], xs, rfl, rfl⟩
    | succ i =>
      obtain ⟨a, b, hl, herase⟩ := ih h
      refine ⟨x :: a, b, by rw [hl, List.cons_append], ?_⟩
      rw [List.eraseIdx_cons_succ, herase, List.cons_append]

/-- The elements of a list, one of them apart. -/
theorem coe_eq_cons_erase {l : List L} {i : ℕ} {c : L} (h : l[i]? = some c) :
    (l : Multiset L) = c ::ₘ (l.eraseIdx i : Multiset L) := by
  obtain ⟨hi, rfl⟩ := List.getElem?_eq_some_iff.mp h
  exact Multiset.coe_eq_coe.mpr (List.getElem_cons_eraseIdx_perm hi).symm

theorem mem_set_self {l : List L} {i : ℕ} {c : L} (h : l[i]? = some c) (c' : L) :
    c' ∈ l.set i c' := by
  obtain ⟨a, b, _, hset⟩ := set_split h
  rw [hset]
  exact List.mem_append_right a (List.mem_cons_self ..)

theorem mem_set_of_ne {l : List L} {i : ℕ} {c d : L} (h : l[i]? = some c) (c' : L) (hd : d ∈ l)
    (hne : d ≠ c) : d ∈ l.set i c' := by
  obtain ⟨a, b, rfl, hset⟩ := set_split h
  rw [hset]
  rcases List.mem_append.mp hd with hd | hd
  · exact List.mem_append_left _ hd
  · exact List.mem_append_right a (List.mem_cons_of_mem c' ((List.mem_cons.mp hd).resolve_left hne))

theorem exists_set {P : L → Prop} {l : List L} {i : ℕ} {c c' : L} (h : l[i]? = some c)
    (hc : P c → P c') (hl : ∃ d ∈ l, P d) : ∃ d ∈ l.set i c', P d := by
  obtain ⟨d, hd, hp⟩ := hl
  by_cases hne : d = c
  · subst hne
    exact ⟨c', mem_set_self h c', hc hp⟩
  · exact ⟨d, mem_set_of_ne h c' hd hne, hp⟩

theorem forall_set {P Q : L → Prop} {l : List L} {i : ℕ} {c : L} (h : ∀ d ∈ l, P d)
    (hpq : ∀ d ∈ l, P d → Q d) (hc : Q c) : ∀ d ∈ l.set i c, Q d := by
  intro d hd
  rcases List.mem_or_eq_of_mem_set hd with hd | rfl
  · exact hpq d hd (h d hd)
  · exact hc

theorem forall_set_idx {P Q : ℕ → L → Prop} {l : List L} {i : ℕ} {c : L}
    (h : ∀ j d, l[j]? = some d → P j d) (hpq : ∀ j d, j ≠ i → P j d → Q j d) (hc : Q i c) :
    ∀ j d, (l.set i c)[j]? = some d → Q j d := by
  intro j d hd
  rw [List.getElem?_set] at hd
  split at hd
  · rename_i hij
    split at hd
    · cases hd
      exact hij ▸ hc
    · cases hd
  · rename_i hij
    exact hpq j d (Ne.symm hij) (h j d hd)

theorem forall_enter_idx {P : ℕ → L → Prop} {l : List L} {c : L}
    (h : ∀ j d, l[j]? = some d → P j d) (hc : P l.length c) :
    ∀ j d, (l ++ [c])[j]? = some d → P j d := by
  intro j d hd
  rcases Nat.lt_trichotomy j l.length with hlt | rfl | hgt
  · rw [List.getElem?_append_left hlt] at hd
    exact h j d hd
  · rw [List.getElem?_concat_length] at hd
    cases hd
    exact hc
  · rw [List.getElem?_eq_none (by rw [List.length_append, List.length_singleton]; omega)] at hd
    cases hd

theorem forall_enter {P : L → Prop} {l : List L} {c : L} (h : ∀ d ∈ l, P d) (hc : P c) :
    ∀ d ∈ l ++ [c], P d := by
  intro d hd
  rcases List.mem_append.mp hd with hd | hd
  · exact h d hd
  · exact List.mem_singleton.mp hd ▸ hc

theorem exists_of_enter {P : L → Prop} {l : List L} {c : L} (hc : ¬ P c)
    (h : ∃ d ∈ l ++ [c], P d) : ∃ d ∈ l, P d := by
  obtain ⟨d, hd, hp⟩ := h
  rcases List.mem_append.mp hd with hd | hd
  · exact ⟨d, hd, hp⟩
  · exact absurd (List.mem_singleton.mp hd ▸ hp) hc

theorem exists_of_set {P : L → Prop} {l : List L} {i : ℕ} {c : L} (h : ∃ d ∈ l.set i c, P d) :
    P c ∨ ∃ d ∈ l, P d := by
  obtain ⟨d, hd, hp⟩ := h
  rcases List.mem_or_eq_of_mem_set hd with hd | rfl
  · exact .inr ⟨d, hd, hp⟩
  · exact .inl hp

theorem mem_erase_of_mem_set {l : List L} {i : ℕ} {c d : L} (h : d ∈ l.set i c) :
    d = c ∨ d ∈ l.eraseIdx i := by
  induction l generalizing i with
  | nil => cases h
  | cons x xs ih =>
    cases i with
    | zero => exact List.mem_cons.mp h
    | succ i =>
      rcases List.mem_cons.mp h with rfl | h
      · exact .inr List.mem_cons_self
      · exact (ih h).imp_right (List.mem_cons_of_mem x)

theorem sum_set {M : Type*} [AddCommMonoid M] (f : L → M) {l : List L} {i : ℕ} {c : L}
    (h : l[i]? = some c) (c' : L) :
    ((l.set i c').map f).sum + f c = (l.map f).sum + f c' := by
  induction l generalizing i with
  | nil => cases h
  | cons x xs ih =>
    cases i with
    | zero =>
      cases h
      simp only [List.set_cons_zero, List.map_cons, List.sum_cons]
      rw [add_right_comm, add_comm (f c'), add_right_comm]
    | succ i =>
      simp only [List.set_cons_succ, List.map_cons, List.sum_cons]
      rw [add_assoc, ih h, add_assoc]

theorem sum_enter {M : Type*} [AddCommMonoid M] (f : L → M) (l : List L) (c : L) :
    ((l ++ [c]).map f).sum = (l.map f).sum + f c := by
  simp only [List.map_append, List.map_cons, List.map_nil, List.sum_append, List.sum_cons,
    List.sum_nil, add_zero]

theorem le_sum {f : L → ℕ} {l : List L} {i : ℕ} {c : L} (h : l[i]? = some c) :
    f c ≤ (l.map f).sum := by
  obtain ⟨a, b, rfl, _⟩ := set_split h
  simp only [List.map_append, List.map_cons, List.sum_append, List.sum_cons]
  omega

theorem exists_of_sum_pos {f : L → ℕ} {l : List L} (h : 0 < (l.map f).sum) :
    ∃ (i : ℕ) (c : L), l[i]? = some c ∧ 0 < f c := by
  by_contra hnone
  have hzero : (l.map f).sum = 0 := List.sum_eq_zero_iff_forall_eq_nat.mpr fun x hx => by
    obtain ⟨c, hc, rfl⟩ := List.mem_map.mp hx
    obtain ⟨i, hi⟩ := List.getElem?_of_mem hc
    exact Nat.eq_zero_of_not_pos fun hpos => hnone ⟨i, c, hi, hpos⟩
  omega

/-- Where call `i` accounts for the whole sum, the others contribute nothing. -/
theorem others_zero {f : L → ℕ} {l : List L} {i : ℕ} {c : L} (h : l[i]? = some c)
    (hsum : (l.map f).sum = f c) (c' : L) : ∀ d ∈ l.set i c', d = c' ∨ f d = 0 := by
  obtain ⟨a, b, rfl, hset⟩ := set_split h
  simp only [List.map_append, List.map_cons, List.sum_append, List.sum_cons] at hsum
  have hzero : ∀ x ∈ a ++ b, f x = 0 := by
    have hab : ((a ++ b).map f).sum = 0 := by
      rw [List.map_append, List.sum_append]
      omega
    exact fun x hx => List.sum_eq_zero_iff_forall_eq_nat.mp hab _ (List.mem_map_of_mem hx)
  intro d hd
  rw [hset] at hd
  rcases List.mem_append.mp hd with hd | hd
  · exact .inr (hzero d (List.mem_append_left b hd))
  · rcases List.mem_cons.mp hd with rfl | hd
    · exact .inl rfl
    · exact .inr (hzero d (List.mem_append_right a hd))

end MSylar.Calls
