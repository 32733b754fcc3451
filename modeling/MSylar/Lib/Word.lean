import Mathlib.Tactic.NormNum
import Mathlib.Data.Nat.Basic

/-!
# Machine integers

`uint64_t` and `size_t` values are natural numbers below `2^64`; sums and
differences wrap around. `int32` is the conversion of a wider value to `int`.
-/

namespace MSylar.Word

def uint64Max : ℕ := 2^64 - 1

def add64 (a b : ℕ) : ℕ := (a + b) % 2^64

def sub64 (a b : ℕ) : ℕ := (2^64 + a - b) % 2^64

theorem add64_of_lt {a b : ℕ} (h : a + b < 2^64) : add64 a b = a + b :=
  Nat.mod_eq_of_lt h

theorem sub64_of_le {a b : ℕ} (hb : b ≤ a) (ha : a < 2^64) : sub64 a b = a - b := by
  unfold sub64
  omega

def int32 (n : ℤ) : ℤ := n.bmod (2^32)

theorem int32_of_lt {n : ℕ} (h : n < 2^31) : int32 n = n := by
  unfold int32
  exact Int.bmod_eq_of_le (by omega) (by omega)

theorem int32_lt (n : ℤ) : int32 n < 2^31 := by
  have hlt := Int.bmod_lt (x := n) (m := 2^32) (by norm_num)
  unfold int32
  omega

theorem int32_neg_iff {n : ℕ} (h : n < 2^32) : int32 n < 0 ↔ 2^31 ≤ n := by
  unfold int32
  rw [Int.bmod_def]
  split <;> omega

theorem int32_emod (n : ℤ) : int32 n % 2^32 = n % 2^32 :=
  Int.bmod_emod

/-- The conversion of a signed value to `size_t`. -/
def sizeT (n : ℤ) : ℕ := (n % 2^64).toNat

theorem sizeT_natCast {n : ℕ} (h : n < 2^64) : sizeT n = n := by
  unfold sizeT
  omega

end MSylar.Word
