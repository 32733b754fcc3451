import Mathlib.Data.Nat.Log
import Mathlib.Tactic.Ring

/-!
# Products of doubles

A double that is not negative is `num / 2^scale` with `num` below `2^53`. A product is rounded to
53 bits, to the nearest and in a tie to the even one. Magnitudes are those of normal doubles, so the
exponent has no limits here. `toInt` is the conversion to an integer, towards zero.
-/

namespace MSylar

/-- The value `num / 2^scale`. -/
structure Double where
  num : ℕ
  scale : ℕ

namespace Double

/-- `n` rounded to `p` bits. -/
def roundBits (p n : ℕ) : ℕ :=
  let unit := 2^(n.log2 + 1 - p)
  let q := n / unit
  let r := n % unit
  if 2 * r < unit ∨ 2 * r = unit ∧ q % 2 = 0 then q * unit else (q + 1) * unit

/-- The error is at most half a unit, on either side. -/
theorem roundBits_half (p n : ℕ) :
    2 * n ≤ 2 * roundBits p n + 2^(n.log2 + 1 - p) ∧
      2 * roundBits p n ≤ 2 * n + 2^(n.log2 + 1 - p) := by
  have hdiv := Nat.div_add_mod n (2^(n.log2 + 1 - p))
  have hlt := Nat.mod_lt n (Nat.two_pow_pos (n.log2 + 1 - p))
  have hcomm := Nat.mul_comm (n / 2^(n.log2 + 1 - p)) (2^(n.log2 + 1 - p))
  unfold roundBits
  dsimp only
  split_ifs with hdown
  · omega
  · rw [Nat.add_mul]
    omega

theorem roundBits_exact {p n : ℕ} (h : n < 2^p) : roundBits p n = n := by
  rcases Nat.eq_zero_or_pos n with rfl | hpos
  · simp [roundBits]
  · have hlog : n.log2 + 1 - p = 0 := by
      have hlt := (Nat.log2_lt hpos.ne').mpr h
      omega
    simp only [roundBits, hlog, pow_zero, Nat.mod_one, Nat.div_one, Nat.mul_one]
    rfl

/-- The relative error is at most `2^-p`. -/
theorem roundBits_close (p n : ℕ) :
    2^p * n ≤ 2^p * roundBits p n + n ∧ 2^p * roundBits p n ≤ 2^p * n + n := by
  rcases Nat.lt_or_ge n (2^p) with hlt | hge
  · rw [roundBits_exact hlt]
    exact ⟨Nat.le_add_right _ _, Nat.le_add_right _ _⟩
  · obtain ⟨hlow, hhigh⟩ := roundBits_half p n
    have hpos : n ≠ 0 := by
      rintro rfl
      exact absurd hge (not_le.mpr (Nat.two_pow_pos p))
    have hlog : p ≤ n.log2 := (Nat.le_log2 hpos).mpr hge
    have hunit : 2^p * 2^(n.log2 + 1 - p) ≤ 2 * n := by
      rw [← pow_add, Nat.add_sub_cancel' (by omega), pow_succ, Nat.mul_comm]
      exact Nat.mul_le_mul_left 2 (Nat.log2_self_le hpos)
    have hlow' := Nat.mul_le_mul_left (2^p) hlow
    have hhigh' := Nat.mul_le_mul_left (2^p) hhigh
    rw [Nat.mul_add, Nat.mul_left_comm, Nat.mul_left_comm (2^p) 2] at hlow' hhigh'
    omega

def ofNat (n : ℕ) : Double := ⟨n, 0⟩

def mul (x y : Double) : Double := ⟨roundBits 53 (x.num * y.num), x.scale + y.scale⟩

def Lt (x y : Double) : Prop := x.num * 2^y.scale < y.num * 2^x.scale

instance (x y : Double) : Decidable (x.Lt y) := inferInstanceAs (Decidable (_ < _))

def toInt (x : Double) : ℕ := x.num / 2^x.scale

theorem toInt_mono {x y : Double} (h : ¬ y.Lt x) : x.toInt ≤ y.toInt := by
  have hpos := Nat.two_pow_pos x.scale
  have hfloor : x.toInt * 2^x.scale ≤ x.num := Nat.div_mul_le_self _ _
  refine (Nat.le_div_iff_mul_le (Nat.two_pow_pos y.scale)).mpr ?_
  refine Nat.le_of_mul_le_mul_right ?_ hpos
  calc x.toInt * 2^y.scale * 2^x.scale = x.toInt * 2^x.scale * 2^y.scale := by ring
    _ ≤ x.num * 2^y.scale := Nat.mul_le_mul_right _ hfloor
    _ ≤ y.num * 2^x.scale := not_lt.mp h

theorem le_toInt_mul {x y : Double} {c : ℕ}
    (h : 2^53 * (c * 2^(x.scale + y.scale)) + x.num * y.num ≤ 2^53 * (x.num * y.num)) :
    c ≤ (x.mul y).toInt := by
  refine (Nat.le_div_iff_mul_le (Nat.two_pow_pos _)).mpr ?_
  have hclose := (roundBits_close 53 (x.num * y.num)).1
  change c * 2^(x.scale + y.scale) ≤ roundBits 53 (x.num * y.num)
  omega

theorem toInt_mul_lt {x y : Double} {c : ℕ}
    (h : 2^53 * (x.num * y.num) + x.num * y.num < 2^53 * (c * 2^(x.scale + y.scale))) :
    (x.mul y).toInt < c := by
  refine (Nat.div_lt_iff_lt_mul (Nat.two_pow_pos _)).mpr ?_
  have hclose := (roundBits_close 53 (x.num * y.num)).2
  change roundBits 53 (x.num * y.num) < c * 2^(x.scale + y.scale)
  omega

def max (x y : Double) : Double := if y.Lt x then x else y

theorem toInt_le_max (x y : Double) :
    x.toInt ≤ (x.max y).toInt ∧ y.toInt ≤ (x.max y).toInt := by
  unfold max
  split_ifs with hlt
  · exact ⟨le_rfl, toInt_mono (lt_asymm hlt)⟩
  · exact ⟨toInt_mono hlt, le_rfl⟩

theorem toInt_max_lt {x y : Double} {c : ℕ} (hx : x.toInt < c) (hy : y.toInt < c) :
    (x.max y).toInt < c := by
  unfold max
  split_ifs
  · exact hx
  · exact hy

end Double
end MSylar
