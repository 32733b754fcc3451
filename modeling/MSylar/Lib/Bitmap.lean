import Mathlib.Data.List.Basic
import Mathlib.Data.List.GetD
import Mathlib.Order.Bounds.Basic
import Mathlib.Tactic.NormNum

/-!
# Packed bitmaps

A set of numbers kept in words of `w` bits: the number `w * i + j` with `j < w` is bit `j` of
word `i`. A position is given as the pair of the word and the bit, as such code keeps it.
-/

namespace MSylar.Bitmap
variable {w : ℕ}

/-- Bit `n` of a bitmap; the bits past its end are clear. -/
def test (m : List (BitVec w)) (n : ℕ) : Bool := (m.getD (n / w) 0).getLsbD (n % w)

def mark (m : List (BitVec w)) (i j : ℕ) : List (BitVec w) := m.modify i (· ||| 1#w <<< j)

def clear (m : List (BitVec w)) (i j : ℕ) : List (BitVec w) := m.modify i (· &&& ~~~(1#w <<< j))

/-- The first word from `i` on that has a clear bit. -/
def scan (m : List (BitVec w)) (i : ℕ) : Option ℕ :=
  ((m.drop i).findIdx? (· != BitVec.allOnes w)).map (i + ·)

theorem at_div {i j : ℕ} (hj : j < w) : (w * i + j) / w = i := by
  rw [Nat.mul_add_div (by omega), Nat.div_eq_of_lt hj, Nat.add_zero]

theorem at_mod {i j : ℕ} (hj : j < w) : (w * i + j) % w = j := by
  rw [Nat.mul_add_mod, Nat.mod_eq_of_lt hj]

theorem eq_at {i j n : ℕ} (hj : j < w) : n = w * i + j ↔ n / w = i ∧ n % w = j := by
  constructor
  · rintro rfl
    exact ⟨at_div hj, at_mod hj⟩
  · rintro ⟨rfl, rfl⟩
    exact (Nat.div_add_mod n w).symm

theorem lt_at {i j n : ℕ} (hj : j < w) :
    n < w * i + j ↔ n / w < i ∨ n / w = i ∧ n % w < j := by
  have hn := Nat.div_add_mod n w
  have hmod : n % w < w := Nat.mod_lt n (by omega)
  constructor
  · intro h
    have hle : n / w ≤ i := by
      rw [← at_div (w := w) (i := i) hj]
      exact Nat.div_le_div_right h.le
    rcases hle.lt_or_eq with hlt | heq
    · exact Or.inl hlt
    · refine Or.inr ⟨heq, ?_⟩
      rw [heq] at hn
      omega
  · rintro (hlt | ⟨heq, hlt⟩)
    · have hmul : w * (n / w) + w ≤ w * i := by
        rw [← Nat.mul_succ]
        exact Nat.mul_le_mul_left w hlt
      omega
    · rw [heq] at hn
      omega

theorem test_at (m : List (BitVec w)) {i j : ℕ} (hj : j < w) :
    test m (w * i + j) = (m.getD i 0).getLsbD j := by
  rw [test, at_div hj, at_mod hj]

theorem test_out (m : List (BitVec w)) {n : ℕ} (h : w * m.length ≤ n) (hw : 0 < w) :
    test m n = false := by
  have hdiv : m.length ≤ n / w := (Nat.le_div_iff_mul_le hw).mpr (by rwa [Nat.mul_comm])
  rw [test, List.getD_eq_getElem?_getD, List.getElem?_eq_none hdiv]
  exact BitVec.getLsbD_zero

theorem getD_modify (m : List (BitVec w)) (f : BitVec w → BitVec w) {i k : ℕ}
    (hi : i < m.length) :
    (m.modify i f).getD k 0 = if i = k then f (m.getD k 0) else m.getD k 0 := by
  simp only [List.getD_eq_getElem?_getD, List.getElem?_modify]
  split
  · rename_i heq
    subst heq
    rw [List.getElem?_eq_getElem hi]
    rfl
  · exact congrArg (Option.getD · 0) (Option.map_id' ..)

theorem getLsbD_one_shiftLeft {j k : ℕ} (hj : j < w) :
    (1#w <<< j).getLsbD k = decide (j = k) := by
  have h := BitVec.getLsbD_twoPow (w := w) j k
  rwa [decide_eq_true hj, Bool.true_and] at h

theorem test_mark (m : List (BitVec w)) {i j : ℕ} (n : ℕ) (hi : i < m.length) (hj : j < w) :
    test (mark m i j) n = (test m n || decide (n = w * i + j)) := by
  simp only [test, mark, getD_modify m _ hi, eq_at hj]
  by_cases hdiv : i = n / w
  · rw [if_pos hdiv, BitVec.getLsbD_or, getLsbD_one_shiftLeft hj]
    simp only [hdiv, true_and, eq_comm]
  · rw [if_neg hdiv, decide_eq_false fun h => hdiv h.1.symm, Bool.or_false]

theorem test_clear (m : List (BitVec w)) {i j : ℕ} (n : ℕ) (hi : i < m.length) (hj : j < w) :
    test (clear m i j) n = (test m n && !decide (n = w * i + j)) := by
  have hmod : n % w < w := Nat.mod_lt n (by omega)
  simp only [test, clear, getD_modify m _ hi, eq_at hj]
  by_cases hdiv : i = n / w
  · rw [if_pos hdiv, BitVec.getLsbD_and, BitVec.getLsbD_not, getLsbD_one_shiftLeft hj,
      decide_eq_true hmod, Bool.true_and]
    simp only [hdiv, true_and, eq_comm]
  · rw [if_neg hdiv, decide_eq_false fun h => hdiv h.1.symm, Bool.not_false, Bool.and_true]

theorem test_grow (m : List (BitVec w)) (k n : ℕ) : test (m ++ List.replicate k 0) n = test m n := by
  unfold test
  by_cases hn : n / w < m.length
  · rw [List.getD_append _ _ _ _ hn]
  · rw [List.getD_append_right _ _ _ _ (by omega), List.getD_eq_default m _ (by omega)]
    simp only [List.getD_eq_getElem?_getD, List.getElem?_replicate]
    split <;> rfl

theorem length_mark (m : List (BitVec w)) (i j : ℕ) : (mark m i j).length = m.length :=
  List.length_modify ..

theorem length_clear (m : List (BitVec w)) (i j : ℕ) : (clear m i j).length = m.length :=
  List.length_modify ..

/-! ### The first clear bit -/

theorem scan_some {m : List (BitVec w)} {i k : ℕ} (h : scan m i = some k) :
    i ≤ k ∧ k < m.length ∧ m.getD k 0 ≠ BitVec.allOnes w ∧
      ∀ l, i ≤ l → l < k → m.getD l 0 = BitVec.allOnes w := by
  obtain ⟨d, hd, rfl⟩ := Option.map_eq_some_iff.mp h
  obtain ⟨hlen, hword, hbefore⟩ := List.findIdx?_eq_some_iff_getElem.mp hd
  rw [List.length_drop] at hlen
  have hget : ∀ l (hl : l < (m.drop i).length), m.getD (i + l) 0 = (m.drop i)[l] := by
    intro l hl
    rw [List.length_drop] at hl
    rw [List.getElem_drop, List.getD_eq_getElem _ _ (by omega)]
  refine ⟨Nat.le_add_right i d, by omega, ?_, fun l hil hlk => ?_⟩
  · rw [hget d (by rw [List.length_drop]; omega)]
    simpa only [bne_iff_ne] using hword
  · obtain ⟨e, rfl⟩ := Nat.exists_eq_add_of_le hil
    rw [hget e (by rw [List.length_drop]; omega)]
    simpa only [bne_iff_ne, ne_eq, not_not] using hbefore e (by omega)

theorem scan_none {m : List (BitVec w)} {i : ℕ} (h : scan m i = none) :
    ∀ l, i ≤ l → l < m.length → m.getD l 0 = BitVec.allOnes w := by
  intro l hil hl
  rw [scan, Option.map_eq_none_iff, List.findIdx?_eq_none_iff] at h
  have hmem : m.getD l 0 ∈ m.drop i := by
    refine List.mem_iff_getElem.mpr ⟨l - i, by rw [List.length_drop]; omega, ?_⟩
    rw [List.getElem_drop, List.getD_eq_getElem _ _ hl]
    congr 1
    omega
  simpa only [bne_iff_ne, ne_eq, not_not, bne_eq_false_iff_eq] using h _ hmem

theorem scan_word {m : List (BitVec w)} {i k : ℕ} (h : scan m i = some k) :
    ~~~(m.getD k 0) ≠ 0#w := by
  intro hzero
  apply (scan_some h).2.2.1
  rw [← BitVec.not_not (b := m.getD k 0), hzero]
  exact BitVec.not_zero

/-- The word that `scan` finds has a clear bit. -/
theorem scan_ctz_lt {m : List (BitVec w)} {i k : ℕ} (h : scan m i = some k) :
    (~~~(m.getD k 0)).ctz.toNat < w := by
  have hctz := BitVec.ctz_lt_iff_ne_zero.mpr (scan_word h)
  rw [BitVec.lt_def] at hctz
  exact lt_of_lt_of_le hctz (by simp)

/-- What `scan` and the count of trailing ones find, from a word below which all bits are set,
is the first clear bit of the bitmap. -/
theorem scan_isLeast {m : List (BitVec w)} {i k : ℕ} (h : scan m i = some k)
    (hbelow : ∀ n, n / w < i → test m n = true) :
    (~~~(m.getD k 0)).ctz.toNat < w ∧
      IsLeast {n | test m n = false} (w * k + (~~~(m.getD k 0)).ctz.toNat) := by
  obtain ⟨_, hk, _, hfull⟩ := scan_some h
  have hne := scan_word h
  have hlt := scan_ctz_lt h
  refine ⟨hlt, ?_, fun n hn => ?_⟩
  · have hbit := BitVec.getLsbD_true_ctz_of_ne_zero hne
    rw [BitVec.getLsbD_not, decide_eq_true hlt, Bool.true_and, Bool.not_eq_true'] at hbit
    exact (test_at m hlt).trans hbit
  · by_contra hcontra
    rw [not_le, lt_at hlt] at hcontra
    have hset : test m n = true := by
      have hmod : n % w < w := Nat.mod_lt n (by omega)
      rcases hcontra with hdiv | ⟨hdiv, hbit⟩
      · by_cases hlow : n / w < i
        · exact hbelow n hlow
        · rw [test, hfull (n / w) (by omega) hdiv, BitVec.getLsbD_allOnes, decide_eq_true hmod]
      · have hclear := BitVec.getLsbD_false_of_lt_ctz hbit
        rw [BitVec.getLsbD_not, decide_eq_true hmod, Bool.true_and, Bool.not_eq_false'] at hclear
        rw [test, hdiv, hclear]
    exact Bool.noConfusion (hset.symm.trans hn)

theorem scan_full {m : List (BitVec w)} {i : ℕ} (hw : 0 < w) (h : scan m i = none)
    (hbelow : ∀ n, n / w < i → test m n = true) :
    IsLeast {n | test m n = false} (w * m.length) := by
  refine ⟨test_out m le_rfl hw, fun n hn => ?_⟩
  by_contra hcontra
  have hdiv : n / w < m.length := by
    rw [Nat.div_lt_iff_lt_mul hw, Nat.mul_comm]
    omega
  have hset : test m n = true := by
    by_cases hlow : n / w < i
    · exact hbelow n hlow
    · rw [test, scan_none h (n / w) (by omega) hdiv, BitVec.getLsbD_allOnes,
        decide_eq_true (Nat.mod_lt n hw)]
  exact Bool.noConfusion (hset.symm.trans hn)

end MSylar.Bitmap
