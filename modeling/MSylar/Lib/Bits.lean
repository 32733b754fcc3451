import Mathlib.Data.BitVec

/-!
# Leading bits and byte order

Masks of leading ones, over words of any width, and the reversal of the bytes of a
word. Bits are counted from the most significant one (`getMsbD`) where a prefix is
meant, and from the least significant one where bytes are.
-/

namespace MSylar.Bits
variable {w : ℕ}

/-- The word whose `q` leading bits are one. -/
def prefixMask (w q : ℕ) : BitVec w := BitVec.allOnes w <<< (w - q)

theorem getMsbD_prefixMask (w q i : ℕ) :
    (prefixMask w q).getMsbD i = (decide (i < w) && decide (i < q)) := by
  unfold prefixMask
  rw [BitVec.getMsbD_shiftLeft, BitVec.getMsbD_allOnes, ← Bool.decide_and]
  exact decide_eq_decide.mpr (by omega)

theorem prefixMask_and (w p q : ℕ) :
    prefixMask w p &&& prefixMask w q = prefixMask w (min p q) := by
  refine BitVec.eq_of_getMsbD_eq fun i hi => ?_
  simp only [BitVec.getMsbD_and, getMsbD_prefixMask, hi, decide_true, Bool.true_and,
    ← Bool.decide_and, lt_min_iff]

theorem and_prefixMask_eq_iff (x y : BitVec w) (p : ℕ) :
    x &&& prefixMask w p = y &&& prefixMask w p ↔ ∀ i < p, x.getMsbD i = y.getMsbD i := by
  constructor
  · intro heq i hi
    by_cases hw : i < w
    · have hbit := congrArg (fun z => z.getMsbD i) heq
      simpa only [BitVec.getMsbD_and, getMsbD_prefixMask, hw, hi, decide_true, Bool.and_true]
        using hbit
    · rw [BitVec.getMsbD_of_ge _ _ (not_lt.mp hw), BitVec.getMsbD_of_ge _ _ (not_lt.mp hw)]
  · intro hbits
    refine BitVec.eq_of_getMsbD_eq fun i _ => ?_
    by_cases hi : i < p
    · simp only [BitVec.getMsbD_and, hbits i hi]
    · simp only [BitVec.getMsbD_and, getMsbD_prefixMask, hi, decide_false, Bool.and_false]

theorem and_le (x m : BitVec w) : x &&& m ≤ x := by
  rw [BitVec.le_def, BitVec.toNat_and]
  exact Nat.and_le_left

theorem le_or (x m : BitVec w) : x ≤ x ||| m := by
  rw [BitVec.le_def, BitVec.toNat_or]
  exact Nat.left_le_or

/-- The word with the given bits, counted from the most significant one. -/
def ofMsbs (w : ℕ) (f : ℕ → Bool) : BitVec w :=
  (BitVec.ofBoolListBE ((List.range w).map f)).cast (by rw [List.length_map, List.length_range])

theorem getMsbD_ofMsbs (f : ℕ → Bool) {i : ℕ} (hi : i < w) : (ofMsbs w f).getMsbD i = f i := by
  unfold ofMsbs
  rw [BitVec.getMsbD_cast, BitVec.getMsbD_ofBoolListBE]
  simp [List.getD_eq_getElem?_getD, hi]

/-! ### Bytes -/

/-- The bit that becomes bit `i` when the bytes change places. -/
def swapIndex (w i : ℕ) : ℕ := 8 * (w / 8 - 1 - i / 8) + i % 8

theorem swapIndex_lt {i : ℕ} (hw : 8 ∣ w) (hi : i < w) : swapIndex w i < w := by
  unfold swapIndex
  omega

theorem swapIndex_swapIndex {i : ℕ} (hw : 8 ∣ w) (hi : i < w) :
    swapIndex w (swapIndex w i) = i := by
  unfold swapIndex
  omega

def byteSwap (x : BitVec w) : BitVec w := ofMsbs w fun i => x.getLsbD (swapIndex w (w - 1 - i))

theorem getLsbD_byteSwap (x : BitVec w) {i : ℕ} (hi : i < w) :
    (byteSwap x).getLsbD i = x.getLsbD (swapIndex w i) := by
  unfold byteSwap
  rw [BitVec.getLsbD_eq_getMsbD, getMsbD_ofMsbs _ (by omega), decide_eq_true hi, Bool.true_and,
    Nat.sub_sub_self (by omega)]

theorem byteSwap_byteSwap (hw : 8 ∣ w) (x : BitVec w) : byteSwap (byteSwap x) = x := by
  refine BitVec.eq_of_getLsbD_eq fun i hi => ?_
  rw [getLsbD_byteSwap _ hi, getLsbD_byteSwap _ (swapIndex_lt hw hi), swapIndex_swapIndex hw hi]

theorem byteSwap_and (x y : BitVec w) : byteSwap (x &&& y) = byteSwap x &&& byteSwap y := by
  refine BitVec.eq_of_getLsbD_eq fun i hi => ?_
  simp only [BitVec.getLsbD_and, getLsbD_byteSwap _ hi]

theorem byteSwap_or (x y : BitVec w) : byteSwap (x ||| y) = byteSwap x ||| byteSwap y := by
  refine BitVec.eq_of_getLsbD_eq fun i hi => ?_
  simp only [BitVec.getLsbD_or, getLsbD_byteSwap _ hi]

/-- The bytes of a word in memory, the least significant one first. -/
def bytesLE (n : ℕ) (x : BitVec w) : List (BitVec 8) :=
  (List.range n).map fun i => x.extractLsb' (8 * i) 8

theorem length_bytesLE (n : ℕ) (x : BitVec w) : (bytesLE n x).length = n := by
  rw [bytesLE, List.length_map, List.length_range]

end MSylar.Bits
