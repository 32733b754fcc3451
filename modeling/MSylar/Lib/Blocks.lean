import Mathlib.Data.List.Basic

/-!
# Messages taken in block by block

A function that takes blocks of `n` letters is applied to a message, block after block. An
`Absorber` does this while the letters arrive one by one, and keeps those of the last block that is
not complete.
-/

namespace MSylar.Blocks
variable {α σ : Type*} {n : ℕ} {f : σ → List α → σ}

/-- `f` applied to the first `k` blocks of a message. -/
def foldBlocks (n : ℕ) (f : σ → List α → σ) : ℕ → σ → List α → σ
  | 0, s, _ => s
  | k + 1, s, l => foldBlocks n f k (f s (l.take n)) (l.drop n)

theorem foldBlocks_append (k j : ℕ) (s : σ) {a : List α} (ha : a.length = k * n) (b : List α) :
    foldBlocks n f (k + j) s (a ++ b) = foldBlocks n f j (foldBlocks n f k s a) b := by
  induction k generalizing s a with
  | zero =>
    rw [Nat.zero_mul, List.length_eq_zero_iff] at ha
    rw [ha, Nat.zero_add, List.nil_append]
    rfl
  | succ k ih =>
    rw [Nat.succ_mul] at ha
    have hle : n ≤ a.length := by omega
    have hdrop : (a.drop n).length = k * n := by
      rw [List.length_drop]
      omega
    rw [Nat.succ_add, foldBlocks, foldBlocks, List.take_append_of_le_length hle,
      List.drop_append_of_le_length hle, ih _ hdrop]

theorem foldBlocks_one (s : σ) {l : List α} (hl : l.length = n) : foldBlocks n f 1 s l = f s l := by
  rw [foldBlocks, foldBlocks, List.take_of_length_le (Nat.le_of_eq hl)]

/-- Letters behind the last block do not matter. -/
theorem foldBlocks_take (k : ℕ) (s : σ) {a : List α} (ha : a.length = k * n) (b : List α) :
    foldBlocks n f k s (a ++ b) = foldBlocks n f k s a :=
  foldBlocks_append k 0 s ha b

structure Absorber (α σ : Type*) where
  state : σ
  pending : List α

namespace Absorber

def push (n : ℕ) (f : σ → List α → σ) (a : Absorber α σ) (x : α) : Absorber α σ :=
  if (a.pending ++ [x]).length = n then ⟨f a.state (a.pending ++ [x]), []⟩
  else ⟨a.state, a.pending ++ [x]⟩

/-- What an absorber holds once `m` has arrived. -/
def after (n : ℕ) (f : σ → List α → σ) (s : σ) (m : List α) : Absorber α σ :=
  ⟨foldBlocks n f (m.length / n) s m, m.drop (m.length / n * n)⟩

theorem after_nil (s : σ) : after n f s [] = ⟨s, []⟩ := by
  rw [after, List.length_nil, Nat.zero_div, List.drop_nil]
  rfl

theorem length_pending (s : σ) (m : List α) : (after n f s m).pending.length = m.length % n := by
  have hsplit := Nat.div_add_mod' m.length n
  rw [after, List.length_drop]
  omega

theorem split (s : σ) (m : List α) :
    m = m.take (m.length / n * n) ++ (after n f s m).pending := (List.take_append_drop _ m).symm

theorem length_take_blocks (m : List α) :
    (m.take (m.length / n * n)).length = m.length / n * n := by
  rw [List.length_take, Nat.min_eq_left (Nat.div_mul_le_self _ _)]

/-- The blocks that are complete, and then those of `b`. -/
theorem foldBlocks_after (s : σ) (m b : List α) (j : ℕ) :
    foldBlocks n f (m.length / n + j) s (m ++ b) =
      foldBlocks n f j (after n f s m).state ((after n f s m).pending ++ b) := by
  have hblocks := length_take_blocks (n := n) m
  have hstate : (after n f s m).state =
      foldBlocks n f (m.length / n) s (m.take (m.length / n * n)) := by
    have htake := foldBlocks_take (f := f) (m.length / n) s hblocks (m.drop (m.length / n * n))
    rw [List.take_append_drop] at htake
    exact htake
  conv_lhs => rw [split (f := f) (n := n) s m, List.append_assoc]
  rw [List.length_append, hblocks, length_pending, Nat.div_add_mod',
    foldBlocks_append _ _ _ hblocks, hstate]

theorem push_after (hn : 0 < n) (s : σ) (m : List α) (x : α) :
    (after n f s m).push n f x = after n f s (m ++ [x]) := by
  have hpending := length_pending (f := f) (n := n) s m
  have hmod := Nat.mod_lt m.length hn
  have hsplit := Nat.div_add_mod' m.length n
  have hfold := foldBlocks_after (f := f) (n := n) s m [x]
  have hafter : after n f s (m ++ [x]) = ⟨foldBlocks n f ((m ++ [x]).length / n) s (m ++ [x]),
    (m ++ [x]).drop ((m ++ [x]).length / n * n)⟩ := rfl
  unfold push
  rw [List.length_append, hpending, List.length_singleton]
  by_cases hfull : m.length % n + 1 = n
  · have hdiv : (m ++ [x]).length / n = m.length / n + 1 := by
      have hlength : (m ++ [x]).length = (m.length / n + 1) * n := by
        rw [List.length_append, List.length_singleton, Nat.succ_mul]
        omega
      rw [hlength, Nat.mul_div_cancel _ hn]
    have hall : (m ++ [x]).length ≤ (m.length / n + 1) * n := by
      rw [List.length_append, List.length_singleton, Nat.succ_mul]
      omega
    rw [if_pos hfull, hafter, hdiv, List.drop_of_length_le hall, hfold, foldBlocks_one]
    rw [List.length_append, hpending, List.length_singleton]
    exact hfull
  · have hdiv : (m ++ [x]).length / n = m.length / n := by
      rw [List.length_append, List.length_singleton]
      refine Nat.div_eq_of_lt_le ?_ ?_
      · omega
      · rw [Nat.succ_mul]
        omega
    have hsame := hfold 0
    rw [Nat.add_zero] at hsame
    rw [if_neg hfull, hafter, hdiv, hsame,
      List.drop_append_of_le_length (Nat.div_mul_le_self _ _)]
    rfl

end Absorber

end MSylar.Blocks
