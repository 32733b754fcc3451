import Mathlib.Data.List.Basic
import Mathlib.Data.List.TakeWhile
import MSylar.Lib.Word

/-!
# Strings and their positions

`find` and `substr` of `std::string`, over any type of characters, and the text before
and after the first occurrence of a character. `npos` is the largest `size_t`; it is
what `find` returns for an absent character.
-/

namespace MSylar.Text
open MSylar.Word
variable {α : Type*}

def npos : ℕ := 2^64 - 1

/-- `none` is the exception `std::out_of_range`. -/
def substr (s : List α) (pos n : ℕ) : Option (List α) :=
  if pos ≤ s.length then some ((s.drop pos).take n) else none

theorem substr_append (w u v : List α) : substr (w ++ (u ++ v)) w.length u.length = some u := by
  unfold substr
  rw [List.drop_left, List.take_left, if_pos (by simp)]

theorem substr_prefix (u v : List α) : substr (u ++ v) 0 u.length = some u :=
  substr_append [] u v

theorem substr_rest (w u : List α) (hlen : u.length ≤ npos) :
    substr (w ++ u) w.length npos = some u := by
  unfold substr
  rw [if_pos (by simp), List.drop_left, List.take_of_length_le hlen]

variable [DecidableEq α]

def find (s : List α) (c : α) (pos : ℕ) : ℕ :=
  if c ∈ s.drop pos then pos + (s.drop pos).idxOf c else npos

def before (c : α) (s : List α) : List α := s.takeWhile (· ≠ c)

def after (c : α) (s : List α) : List α := (s.dropWhile (· ≠ c)).tail

/-! ### The first occurrence of a character -/

theorem not_mem_before (c : α) (s : List α) : c ∉ before c s := by
  intro h
  have hne := List.mem_takeWhile_imp h
  simp only [ne_eq, not_true, decide_false, Bool.false_eq_true] at hne

theorem ne_of_not_mem {c : α} {u : List α} (h : c ∉ u) : ∀ x ∈ u, decide (x ≠ c) = true := by
  intro x hx
  exact decide_eq_true fun heq => h (heq ▸ hx)

theorem before_append_cons {c : α} {u : List α} (h : c ∉ u) (v : List α) :
    before c (u ++ c :: v) = u := by
  unfold before
  rw [List.takeWhile_append_of_pos (ne_of_not_mem h), List.takeWhile_cons_of_neg (by simp),
    List.append_nil]

theorem after_append_cons {c : α} {u : List α} (h : c ∉ u) (v : List α) :
    after c (u ++ c :: v) = v := by
  unfold after
  rw [List.dropWhile_append_of_pos (ne_of_not_mem h), List.dropWhile_cons_of_neg (by simp),
    List.tail_cons]

theorem before_append {c : α} {u : List α} (h : c ∉ u) (v : List α) :
    before c (u ++ v) = u ++ before c v :=
  List.takeWhile_append_of_pos (ne_of_not_mem h)

theorem before_of_not_mem {c : α} {s : List α} (h : c ∉ s) : before c s = s :=
  List.takeWhile_eq_self_iff.mpr (ne_of_not_mem h)

theorem after_of_not_mem {c : α} {s : List α} (h : c ∉ s) : after c s = [] := by
  unfold after
  rw [List.dropWhile_eq_nil_iff.mpr (ne_of_not_mem h), List.tail_nil]

theorem before_append_after {c : α} {s : List α} (h : c ∈ s) :
    before c s ++ c :: after c s = s := by
  obtain ⟨u, v, rfl, hu⟩ := List.eq_append_cons_of_mem h
  rw [before_append_cons hu, after_append_cons hu]

/-! ### Pieces -/

theorem mem_iff_splitOn {c sep : α} (h : c ≠ sep) (s : List α) :
    c ∈ s ↔ ∃ p ∈ s.splitOn sep, c ∈ p := by
  induction s with
  | nil => simp
  | cons x s ih =>
    obtain ⟨p, ps, hs⟩ := List.exists_cons_of_ne_nil (List.splitOn_ne_nil sep s)
    rw [hs] at ih
    rw [List.splitOn_cons_eq_if_modifyHead, hs, List.mem_cons, ih]
    by_cases hx : x = sep
    · simp [hx, h]
    · simp [hx, or_assoc]

theorem not_mem_of_mem_splitOn {sep : α} {s p : List α} (h : p ∈ s.splitOn sep) : sep ∉ p := by
  induction s generalizing p with
  | nil =>
    rw [List.splitOn_nil, List.mem_singleton] at h
    exact h ▸ List.not_mem_nil
  | cons x s ih =>
    obtain ⟨q, qs, hs⟩ := List.exists_cons_of_ne_nil (List.splitOn_ne_nil sep s)
    rw [hs] at ih
    rw [List.splitOn_cons_eq_if_modifyHead, hs] at h
    by_cases hx : x = sep
    · rw [if_pos (by simpa using hx), List.mem_cons] at h
      rcases h with rfl | h
      · exact List.not_mem_nil
      · exact ih h
    · rw [if_neg (by simpa using hx), List.modifyHead_cons, List.mem_cons] at h
      rcases h with rfl | h
      · have hq := ih List.mem_cons_self
        simp [hq, Ne.symm hx]
      · exact ih (List.mem_cons_of_mem _ h)

/-! ### Positions -/

theorem find_append {c : α} {u : List α} (h : c ∉ u) (w v : List α) :
    find (w ++ (u ++ c :: v)) c w.length = w.length + u.length := by
  unfold find
  rw [List.drop_left, if_pos (by simp), List.idxOf_append_of_notMem h, List.idxOf_cons_self,
    Nat.add_zero]

theorem find_of_not_mem {c : α} {u : List α} (h : c ∉ u) (w : List α) :
    find (w ++ u) c w.length = npos := by
  unfold find
  rw [List.drop_left, if_neg h]

theorem find_first {c : α} {u : List α} (h : c ∉ u) (v : List α) :
    find (u ++ c :: v) c 0 = u.length := by
  have hfind := find_append h [] v
  rwa [List.nil_append, List.length_nil, Nat.zero_add] at hfind

theorem find_absent {c : α} {s : List α} (h : c ∉ s) : find s c 0 = npos :=
  find_of_not_mem h []

theorem int32_npos : int32 npos = -1 := by
  decide +kernel

theorem sizeT_neg_one : sizeT (-1) = npos := by
  decide +kernel

theorem sizeT_ne_npos {n : ℕ} (h : n < 2^31) : sizeT n ≠ npos := by
  unfold sizeT npos
  omega

end MSylar.Text
