import Mathlib.Data.Finset.Card
import Mathlib.Order.Interval.Finset.Nat
import Mathlib.Tactic.NormNum
import MSylar.Lib.Bitmap
import MSylar.Lib.Execution
import MSylar.Lib.Word

/-!
# Packed ids (tool.cc:4-72, tool.hpp:6-47)

`PackedIDAllocator` hands out the positions of clear bits of a bitmap of 64-bit words and keeps
the position it will hand out next. Both operations run under one lock. `none` is undefined
behaviour: a shift by a negative amount or a word outside the bitmap.
-/

namespace MSylar.Basic
open MSylar.Execution MSylar.Word

inductive AllocatorError where
  | success
  | invalidId
  | alreadyFreed
  | noAvailableId
  | expandFailed
  deriving DecidableEq

structure PackedIDAllocator where
  bitMap : List (BitVec 64)
  nextChunk : ℕ
  nextBit : ℤ
  errorCode : AllocatorError

namespace PackedIDAllocator

def new (size : ℕ) : PackedIDAllocator := ⟨List.replicate size 0, 0, 0, .success⟩

def getSize (a : PackedIDAllocator) : ℕ := a.bitMap.length * 64

/-- `grows` says whether the vector could be resized. -/
def expand (a : PackedIDAllocator) (grows : Bool) : ℤ × PackedIDAllocator :=
  if grows then (0, { a with bitMap := a.bitMap ++ List.replicate a.bitMap.length 0 })
  else (-1, { a with errorCode := .expandFailed })

def alloc (a : PackedIDAllocator) (grows : Bool) : Option (ℤ × PackedIDAllocator) :=
  if a.nextBit < 0 ∨ a.bitMap.length ≤ a.nextChunk then none
  else
    let rt := int32 (64 * a.nextChunk + a.nextBit)
    let bitMap := Bitmap.mark a.bitMap a.nextChunk a.nextBit.toNat
    match Bitmap.scan bitMap a.nextChunk with
    | some i =>
      some (rt, { a with bitMap := bitMap, nextChunk := i
                         nextBit := (~~~(bitMap.getD i 0)).ctz.toNat })
    | none =>
      let r := expand { a with bitMap := bitMap, nextChunk := bitMap.length, nextBit := 0 } grows
      some (rt, if r.1 < 0 then { r.2 with nextChunk := 0, nextBit := -1 } else r.2)

def free (a : PackedIDAllocator) (id : ℤ) : Option (ℤ × PackedIDAllocator) :=
  if int32 a.getSize < id then some (-1, { a with errorCode := .invalidId })
  else if id < 0 ∨ a.bitMap.length ≤ id.toNat / 64 then none
  else if Bitmap.test a.bitMap id.toNat = false then
    some (-1, { a with errorCode := .alreadyFreed })
  else
    let chunkIndex := id.toNat / 64
    let bitIndex := id.toNat % 64
    let bitMap := Bitmap.clear a.bitMap chunkIndex bitIndex
    some (0, if chunkIndex < int32 a.nextChunk ∨
        chunkIndex = int32 a.nextChunk ∧ bitIndex < a.nextBit then
      { a with bitMap := bitMap, nextChunk := chunkIndex, nextBit := bitIndex }
    else { a with bitMap := bitMap })

/-- The set bits are the ids in use, and the position kept for the next `alloc` is inside the
bitmap and is that of the smallest free id. -/
structure Agrees (a : PackedIDAllocator) (live : Finset ℕ) : Prop where
  bits : ∀ n, Bitmap.test a.bitMap n = true ↔ n ∈ live
  bit : 0 ≤ a.nextBit ∧ a.nextBit < 64
  inside : a.nextChunk < a.bitMap.length
  next : IsLeast {n | n ∉ live} (64 * a.nextChunk + a.nextBit.toNat)

end PackedIDAllocator

structure Tracked where
  allocator : PackedIDAllocator
  live : Finset ℕ

def Tracked.new (size : ℕ) : Tracked := ⟨.new size, ∅⟩

inductive IdOp where
  | alloc
  | free (id : ℕ)

/-- One call; the bitmap can always be resized. -/
def Tracked.step (t : Tracked) : IdOp → Option Tracked
  | .alloc => (t.allocator.alloc true).map fun r => ⟨r.2, insert r.1.toNat t.live⟩
  | .free id => (t.allocator.free id).map fun r =>
      ⟨r.2, if r.1 = 0 then t.live.erase id else t.live⟩

/-- Only ids in use are freed, and an id is asked for while fewer than `2^31` are in use. -/
def Tracked.Legal (t : Tracked) : IdOp → Prop
  | .alloc => t.live.card < 2^31
  | .free id => id ∈ t.live

/-- `alloc` returns the smallest free id, `free` succeeds, and the set bits and the next position
are right before and after the call. -/
def Tracked.HandsOut (t : Tracked) (op : IdOp) : Prop :=
  t.allocator.Agrees t.live ∧
  match op with
  | .alloc => ∃ (id : ℕ) (a : PackedIDAllocator), t.allocator.alloc true = some ((id : ℤ), a) ∧
      IsLeast {n | n ∉ t.live} id ∧ a.Agrees (insert id t.live)
  | .free id => ∃ a : PackedIDAllocator, t.allocator.free id = some (0, a) ∧
      a.Agrees (t.live.erase id)

/-- `free` is called with an id that is not past the size of the bitmap, as an `int`. -/
def Tracked.FreesInside (t : Tracked) : IdOp → Prop
  | .alloc => True
  | .free id => id ≤ int32 t.allocator.getSize

/-! ### One call -/

namespace PackedIDAllocator

theorem new_agrees {size : ℕ} (h : 1 ≤ size) : (new size).Agrees ∅ where
  bits n := by simp [new, Bitmap.test]
  bit := by simp [new]
  inside := by
    simp only [new, List.length_replicate]
    omega
  next := ⟨by simp, fun n _ => Nat.zero_le n⟩

variable {a : PackedIDAllocator} {live : Finset ℕ}

theorem agrees_at {m : List (BitVec 64)} {i j : ℕ} {e : AllocatorError}
    (hbits : ∀ n, Bitmap.test m n = true ↔ n ∈ live) (hj : j < 64) (hi : i < m.length)
    (hleast : IsLeast {n | n ∉ live} (64 * i + j)) : Agrees ⟨m, i, j, e⟩ live where
  bits := hbits
  bit := ⟨Int.natCast_nonneg j, Int.ofNat_lt.mpr hj⟩
  inside := hi
  next := hleast

theorem Agrees.next_le (h : a.Agrees live) : 64 * a.nextChunk + a.nextBit.toNat ≤ live.card := by
  have hsub : Finset.range (64 * a.nextChunk + a.nextBit.toNat) ⊆ live := by
    intro n hn
    by_contra hfree
    exact absurd (h.next.2 hfree) (not_le.mpr (Finset.mem_range.mp hn))
  simpa only [Finset.card_range] using Finset.card_le_card hsub

theorem mem_lt_getSize (hbits : ∀ n, Bitmap.test a.bitMap n = true ↔ n ∈ live) {id : ℕ}
    (hid : id ∈ live) : id < a.getSize := by
  by_contra hout
  have hclear := Bitmap.test_out a.bitMap (n := id) (by unfold getSize at hout; omega) (by norm_num)
  rw [(hbits id).mpr hid] at hclear
  cases hclear

theorem Agrees.marked (h : a.Agrees live) (n : ℕ) :
    Bitmap.test (Bitmap.mark a.bitMap a.nextChunk a.nextBit.toNat) n = true ↔
      n ∈ insert (64 * a.nextChunk + a.nextBit.toNat) live := by
  have hbit := h.bit
  rw [Bitmap.test_mark _ n h.inside (by omega), Bool.or_eq_true, h.bits, decide_eq_true_eq,
    Finset.mem_insert, or_comm]

theorem Agrees.marked_below (h : a.Agrees live) (n : ℕ) (hn : n / 64 < a.nextChunk) :
    Bitmap.test (Bitmap.mark a.bitMap a.nextChunk a.nextBit.toNat) n = true := by
  rw [h.marked]
  by_contra hfree
  have hle : 64 * a.nextChunk + a.nextBit.toNat ≤ n :=
    h.next.2 fun hmem => hfree (Finset.mem_insert_of_mem hmem)
  omega

theorem clear_set {m : List (BitVec 64)} (hbits : ∀ n, Bitmap.test m n = true ↔ n ∈ live) :
    {n | Bitmap.test m n = false} = {n | n ∉ live} := by
  ext n
  show Bitmap.test m n = false ↔ n ∉ live
  rw [← hbits n, Bool.not_eq_true]

theorem Agrees.alloc_found (h : a.Agrees live) {grows : Bool} {i : ℕ} (hscan :
    Bitmap.scan (Bitmap.mark a.bitMap a.nextChunk a.nextBit.toNat) a.nextChunk = some i) :
    a.alloc grows = some (int32 (64 * a.nextChunk + a.nextBit),
      ⟨Bitmap.mark a.bitMap a.nextChunk a.nextBit.toNat, i,
        (~~~((Bitmap.mark a.bitMap a.nextChunk a.nextBit.toNat).getD i 0)).ctz.toNat,
        a.errorCode⟩) := by
  have hbit := h.bit
  have hin := h.inside
  rw [alloc, if_neg (by omega)]
  simp only [hscan]

theorem Agrees.alloc_full (h : a.Agrees live) {grows : Bool} (hscan :
    Bitmap.scan (Bitmap.mark a.bitMap a.nextChunk a.nextBit.toNat) a.nextChunk = none) :
    a.alloc grows = some (int32 (64 * a.nextChunk + a.nextBit),
      if grows then
        ⟨Bitmap.mark a.bitMap a.nextChunk a.nextBit.toNat ++
          List.replicate (Bitmap.mark a.bitMap a.nextChunk a.nextBit.toNat).length 0,
          (Bitmap.mark a.bitMap a.nextChunk a.nextBit.toNat).length, 0, a.errorCode⟩
      else ⟨Bitmap.mark a.bitMap a.nextChunk a.nextBit.toNat, 0, -1, .expandFailed⟩) := by
  have hbit := h.bit
  have hin := h.inside
  rw [alloc, if_neg (by omega)]
  simp only [hscan]
  cases grows <;> rfl

theorem Agrees.int32_next (h : a.Agrees live) (hcard : live.card < 2^31) :
    int32 (64 * a.nextChunk + a.nextBit) = (64 * a.nextChunk + a.nextBit.toNat : ℕ) := by
  have hle := h.next_le
  have hbit := h.bit
  rw [← int32_of_lt (lt_of_le_of_lt hle hcard)]
  congr 1
  omega

theorem Agrees.scan_none_iff (h : a.Agrees live) :
    Bitmap.scan (Bitmap.mark a.bitMap a.nextChunk a.nextBit.toNat) a.nextChunk = none ↔
      live.card + 1 = a.getSize := by
  have hbit := h.bit
  have hin := h.inside
  have hlen := Bitmap.length_mark a.bitMap a.nextChunk a.nextBit.toNat
  have hcard := Finset.card_insert_of_notMem h.next.1
  have hsub : insert (64 * a.nextChunk + a.nextBit.toNat) live ⊆ Finset.range a.getSize := by
    intro n hn
    rw [Finset.mem_range]
    rcases Finset.mem_insert.mp hn with rfl | hmem
    · unfold getSize
      omega
    · exact mem_lt_getSize h.bits hmem
  cases hscan : Bitmap.scan (Bitmap.mark a.bitMap a.nextChunk a.nextBit.toNat) a.nextChunk with
  | some i =>
    obtain ⟨hctz, hleast⟩ := Bitmap.scan_isLeast hscan h.marked_below
    obtain ⟨_, hi, _⟩ := Bitmap.scan_some hscan
    rw [clear_set h.marked] at hleast
    have hlt := Finset.card_lt_card ((Finset.ssubset_iff_of_subset hsub).mpr
      ⟨_, Finset.mem_range.mpr (by unfold getSize; omega), hleast.1⟩)
    rw [Finset.card_range] at hlt
    exact iff_of_false (by simp) (by omega)
  | none =>
    have hleast := Bitmap.scan_full (by norm_num) hscan h.marked_below
    rw [clear_set h.marked] at hleast
    have heq : insert (64 * a.nextChunk + a.nextBit.toNat) live = Finset.range a.getSize := by
      refine hsub.antisymm fun n hn => ?_
      by_contra hfree
      have hle := hleast.2 hfree
      rw [Finset.mem_range] at hn
      unfold getSize at hn
      omega
    rw [heq, Finset.card_range] at hcard
    exact iff_of_true rfl hcard.symm

/-- A failed resize leaves the allocator with a negative bit as its next position. -/
def Stuck (a : PackedIDAllocator) : Prop := a.nextChunk = 0 ∧ a.nextBit = -1

def Sound (a : PackedIDAllocator) (live : Finset ℕ) : Prop :=
  (∀ n, Bitmap.test a.bitMap n = true ↔ n ∈ live) ∧ (a.Agrees live ∨ a.Stuck)

theorem alloc_grows (h : a.Agrees live) (hcard : live.card < 2^31) {grows : Bool}
    (hgrows : live.card + 1 = a.getSize → grows = true) :
    ∃ a' : PackedIDAllocator,
      a.alloc grows = some (((64 * a.nextChunk + a.nextBit.toNat : ℕ) : ℤ), a') ∧
      a'.Agrees (insert (64 * a.nextChunk + a.nextBit.toNat) live) ∧
      a'.bitMap.length =
        if live.card + 1 = a.getSize then 2 * a.bitMap.length else a.bitMap.length := by
  have hin := h.inside
  have hlen := Bitmap.length_mark a.bitMap a.nextChunk a.nextBit.toNat
  have hnone := h.scan_none_iff
  cases hscan : Bitmap.scan (Bitmap.mark a.bitMap a.nextChunk a.nextBit.toNat) a.nextChunk with
  | some i =>
    obtain ⟨hctz, hleast⟩ := Bitmap.scan_isLeast hscan h.marked_below
    obtain ⟨_, hi, _⟩ := Bitmap.scan_some hscan
    rw [clear_set h.marked] at hleast
    have hroom : ¬ live.card + 1 = a.getSize := fun hfull => by
      rw [hnone.mpr hfull] at hscan
      cases hscan
    rw [h.alloc_found hscan, h.int32_next hcard, if_neg hroom]
    exact ⟨_, rfl, agrees_at h.marked hctz hi hleast, hlen⟩
  | none =>
    have hleast := Bitmap.scan_full (by norm_num) hscan h.marked_below
    have hfull := hnone.mp hscan
    rw [clear_set h.marked] at hleast
    rw [h.alloc_full hscan, h.int32_next hcard, if_pos hfull, if_pos (hgrows hfull)]
    refine ⟨_, rfl, agrees_at (j := 0) (fun n => ?_) (by norm_num) ?_ hleast, ?_⟩
    · rw [Bitmap.test_grow, h.marked]
    all_goals
      simp only [List.length_append, List.length_replicate]
      omega

theorem alloc_stuck (h : a.Agrees live) (hcard : live.card < 2^31)
    (hfull : live.card + 1 = a.getSize) :
    ∃ a' : PackedIDAllocator,
      a.alloc false = some (((64 * a.nextChunk + a.nextBit.toNat : ℕ) : ℤ), a') ∧ a'.Stuck ∧
      a'.bitMap.length = a.bitMap.length ∧
      ∀ n, Bitmap.test a'.bitMap n = true ↔
        n ∈ insert (64 * a.nextChunk + a.nextBit.toNat) live := by
  rw [h.alloc_full (h.scan_none_iff.mpr hfull), h.int32_next hcard]
  exact ⟨_, rfl, ⟨rfl, rfl⟩, Bitmap.length_mark .., h.marked⟩

theorem alloc_cases (h : a.Agrees live) (hcard : live.card < 2^31) (grows : Bool) :
    ∃ a' : PackedIDAllocator,
      a.alloc grows = some (((64 * a.nextChunk + a.nextBit.toNat : ℕ) : ℤ), a') ∧
      a'.Sound (insert (64 * a.nextChunk + a.nextBit.toNat) live) ∧
      a'.getSize =
        if live.card + 1 = a.getSize ∧ grows = true then 2 * a.getSize else a.getSize := by
  by_cases hgrows : live.card + 1 = a.getSize → grows = true
  · obtain ⟨a', halloc, hagrees, hlen⟩ := alloc_grows h hcard hgrows
    refine ⟨a', halloc, ⟨hagrees.bits, Or.inl hagrees⟩, ?_⟩
    simp only [getSize, hlen]
    split_ifs <;> simp_all [getSize]
    omega
  · simp only [Classical.not_imp, Bool.not_eq_true] at hgrows
    obtain ⟨hfull, rfl⟩ := hgrows
    obtain ⟨a', halloc, hstuck, hlen, hbits⟩ := alloc_stuck h hcard hfull
    refine ⟨a', halloc, ⟨hbits, Or.inr hstuck⟩, ?_⟩
    simp only [getSize, hlen, Bool.false_eq_true, and_false, if_false]

theorem alloc_spec (h : a.Agrees live) (hcard : live.card < 2^31) :
    ∃ (id : ℕ) (a' : PackedIDAllocator), a.alloc true = some ((id : ℤ), a') ∧
      IsLeast {n | n ∉ live} id ∧ a'.Agrees (insert id live) := by
  obtain ⟨a', halloc, hagrees, _⟩ := @alloc_grows a live h hcard true fun _ => rfl
  exact ⟨_, a', halloc, h.next, hagrees⟩

theorem free_eq (hbits : ∀ n, Bitmap.test a.bitMap n = true ↔ n ∈ live) {id : ℕ}
    (hid : id ∈ live) (hle : id ≤ int32 a.getSize) :
    a.free id = some (0, if ((id / 64 : ℕ) : ℤ) < int32 a.nextChunk ∨
        ((id / 64 : ℕ) : ℤ) = int32 a.nextChunk ∧ ((id % 64 : ℕ) : ℤ) < a.nextBit then
      { a with bitMap := Bitmap.clear a.bitMap (id / 64) (id % 64), nextChunk := id / 64
               nextBit := ((id % 64 : ℕ) : ℤ) }
    else { a with bitMap := Bitmap.clear a.bitMap (id / 64) (id % 64) }) := by
  have hlt := mem_lt_getSize hbits hid
  unfold getSize at hlt
  rw [free, if_neg (by omega), if_neg (by omega)]
  simp only [Int.toNat_natCast, (hbits id).mpr hid, Bool.true_eq_false, if_false]

theorem cleared (hbits : ∀ n, Bitmap.test a.bitMap n = true ↔ n ∈ live) {id : ℕ}
    (hid : id ∈ live) (n : ℕ) :
    Bitmap.test (Bitmap.clear a.bitMap (id / 64) (id % 64)) n = true ↔ n ∈ live.erase id := by
  have hlt := mem_lt_getSize hbits hid
  unfold getSize at hlt
  rw [Bitmap.test_clear _ n (by omega) (by omega), Nat.div_add_mod, Bool.and_eq_true, hbits,
    Bool.not_eq_true', decide_eq_false_iff_not, Finset.mem_erase, and_comm]

theorem free_refused {id : ℤ} (h : int32 a.getSize < id) :
    a.free id = some (-1, { a with errorCode := .invalidId }) := by
  rw [free, if_pos h]

theorem free_getSize {id r : ℤ} {a' : PackedIDAllocator} (h : a.free id = some (r, a')) :
    a'.getSize = a.getSize := by
  unfold free at h
  split at h
  · cases h
    rfl
  · split at h
    · cases h
    · split at h
      · cases h
        rfl
      · cases h
        unfold getSize
        split <;> simp only [Bitmap.length_clear]

theorem free_agrees (h : a.Agrees live) (hcard : live.card ≤ 2^31) {id : ℕ} (hid : id ∈ live)
    (hle : id ≤ int32 a.getSize) :
    ∃ a' : PackedIDAllocator, a.free id = some (0, a') ∧ a'.Agrees (live.erase id) := by
  have hlt := mem_lt_getSize h.bits hid
  have hnext := h.next_le
  have hbit := h.bit
  have hchunk : int32 a.nextChunk = a.nextChunk := int32_of_lt (by omega)
  have hlen := Bitmap.length_clear a.bitMap (id / 64) (id % 64)
  have hbits := cleared h.bits hid
  have hat : id < 64 * a.nextChunk + a.nextBit.toNat ↔ id / 64 < a.nextChunk ∨
      id / 64 = a.nextChunk ∧ id % 64 < a.nextBit.toNat := Bitmap.lt_at (by omega)
  unfold getSize at hlt
  rw [free_eq h.bits hid hle, hchunk]
  refine ⟨_, rfl, ?_⟩
  -- the smallest free id is now the smaller of the freed one and the old position
  split
  · rename_i hbefore
    have hlow : id < 64 * a.nextChunk + a.nextBit.toNat := hat.mpr (by omega)
    refine agrees_at hbits (Nat.mod_lt id (by norm_num)) (by omega) ?_
    rw [Nat.div_add_mod]
    refine ⟨Finset.notMem_erase id live, fun n hn => ?_⟩
    by_contra hcontra
    refine absurd (h.next.2 fun hmem => hn (Finset.mem_erase.mpr ⟨?_, hmem⟩)) ?_
    all_goals omega
  · rename_i hafter
    have hhigh : ¬ id < 64 * a.nextChunk + a.nextBit.toNat := fun hlow => hafter (by omega)
    refine ⟨hbits, hbit, by rw [hlen]; exact h.inside, fun hmem => ?_, fun n hn => ?_⟩
    · exact h.next.1 (Finset.mem_of_mem_erase hmem)
    · by_contra hcontra
      simp only [not_le] at hcontra
      refine absurd (h.next.2 fun hmem => hn (Finset.mem_erase.mpr ⟨?_, hmem⟩)) ?_
      all_goals omega

theorem free_stuck (h : a.Stuck) (hbits : ∀ n, Bitmap.test a.bitMap n = true ↔ n ∈ live) {id : ℕ}
    (hid : id ∈ live) (hle : id ≤ int32 a.getSize) :
    ∃ a' : PackedIDAllocator, a.free id = some (0, a') ∧ a'.Stuck ∧
      ∀ n, Bitmap.test a'.bitMap n = true ↔ n ∈ live.erase id := by
  have hchunk : int32 ((0 : ℕ) : ℤ) = ((0 : ℕ) : ℤ) := int32_of_lt (by norm_num)
  rw [free_eq hbits hid hle, h.1, h.2, hchunk, if_neg (by omega)]
  exact ⟨_, rfl, ⟨rfl, rfl⟩, cleared hbits hid⟩

theorem free_cases (h : a.Sound live) (hcard : live.card ≤ 2^31) {id : ℕ} (hid : id ∈ live)
    (hle : id ≤ int32 a.getSize) :
    ∃ a' : PackedIDAllocator, a.free id = some (0, a') ∧ a'.Sound (live.erase id) := by
  obtain ⟨hbits, hagrees | hstuck⟩ := h
  · obtain ⟨a', hfree, hagrees'⟩ := free_agrees hagrees hcard hid hle
    exact ⟨a', hfree, hagrees'.bits, Or.inl hagrees'⟩
  · obtain ⟨a', hfree, hstuck', hbits'⟩ := free_stuck hstuck hbits hid hle
    exact ⟨a', hfree, hbits', Or.inr hstuck'⟩

theorem free_spec (h : a.Agrees live) (hcard : live.card ≤ 2^31) {id : ℕ} (hid : id ∈ live) :
    (∃ a' : PackedIDAllocator, a.free id = some (0, a') ∧ a'.Agrees (live.erase id)) ↔
      id ≤ int32 a.getSize := by
  constructor
  · rintro ⟨a', hfree, _⟩
    by_contra hlt
    rw [free_refused (by omega)] at hfree
    cases hfree
  · intro hle
    exact free_agrees h hcard hid hle

end PackedIDAllocator

/-! ### Sequences of calls -/

def Tracked.Inv (t : Tracked) : Prop := t.allocator.Agrees t.live ∧ t.live.card ≤ 2^31

theorem Tracked.handsOut_iff {t : Tracked} {op : IdOp} (hi : t.Inv) (hl : t.Legal op) :
    t.HandsOut op ↔ t.FreesInside op := by
  cases op with
  | alloc => exact ⟨fun _ => trivial, fun _ => ⟨hi.1, PackedIDAllocator.alloc_spec hi.1 hl⟩⟩
  | free id =>
    have hspec := PackedIDAllocator.free_spec hi.1 hi.2 hl
    exact ⟨fun h => hspec.mp h.2, fun h => ⟨hi.1, hspec.mpr h⟩⟩

theorem Tracked.step_inv {t t' : Tracked} {op : IdOp} (hi : t.Inv) (hl : t.Legal op)
    (hout : t.HandsOut op) (h : t.step op = some t') : t'.Inv := by
  cases op with
  | alloc =>
    obtain ⟨_, id, a, halloc, hleast, hagrees⟩ := hout
    simp only [Tracked.step, halloc, Option.map_some, Option.some.injEq] at h
    subst h
    have hlt : t.live.card < 2^31 := hl
    refine ⟨hagrees, ?_⟩
    show (insert id t.live).card ≤ 2^31
    rw [Finset.card_insert_of_notMem hleast.1]
    omega
  | free id =>
    obtain ⟨_, a, hfree, hagrees⟩ := hout
    simp only [Tracked.step, hfree, Option.map_some, if_true, Option.some.injEq] at h
    subst h
    exact ⟨hagrees, (Finset.card_erase_le).trans hi.2⟩

theorem Tracked.new_inv {size : ℕ} (h : 1 ≤ size) : (Tracked.new size).Inv :=
  ⟨PackedIDAllocator.new_agrees h, by simp [Tracked.new]⟩

/-- Over every legal sequence of calls each call hands out or takes back the right id exactly
as long as `free` is called with ids up to the size of the bitmap as an `int`. -/
theorem ids_unique_and_smallest_iff {size : ℕ} (hsize : 1 ≤ size) {ops : List IdOp}
    (hlegal : Guarded Tracked.step Tracked.Legal (Tracked.new size) ops) :
    Guarded Tracked.step Tracked.HandsOut (Tracked.new size) ops ↔
      Guarded Tracked.step Tracked.FreesInside (Tracked.new size) ops := by
  have hiff : ∀ t op, Tracked.Inv t → t.Legal op → (t.HandsOut op ↔ t.FreesInside op) :=
    fun _ _ hi hl => Tracked.handsOut_iff hi hl
  refine guarded_iff hiff ?_ (Tracked.new_inv hsize) hlegal
  intro t op t' hi hl hout h
  exact Tracked.step_inv hi hl hout h

theorem Tracked.first_alloc {size : ℕ} (hsize : 1 ≤ size) {t : Tracked}
    (h : (Tracked.new size).step .alloc = some t) :
    t.Inv ∧ t.live = {0} ∧ t.allocator.getSize = size * 64 := by
  have hi := Tracked.new_inv hsize
  have hl : (Tracked.new size).Legal .alloc := by simp [Tracked.Legal, Tracked.new]
  refine ⟨Tracked.step_inv hi hl ((Tracked.handsOut_iff hi hl).mpr trivial) h, ?_⟩
  have hgrow : ¬ (Tracked.new size).live.card + 1 = (Tracked.new size).allocator.getSize := by
    show ¬ 0 + 1 = (List.replicate size (0 : BitVec 64)).length * 64
    omega
  obtain ⟨a, halloc, _, hlen⟩ := @PackedIDAllocator.alloc_grows _ _ hi.1 hl true fun _ => rfl
  rw [if_neg hgrow] at hlen
  simp only [Tracked.step, halloc, Option.map_some, Option.some.injEq] at h
  subst h
  refine ⟨rfl, ?_⟩
  rw [PackedIDAllocator.getSize, hlen]
  simp [Tracked.new, PackedIDAllocator.new]

theorem Tracked.alloc_free_legal {size : ℕ} (hsize : 1 ≤ size) :
    Guarded Tracked.step Tracked.Legal (Tracked.new size) [.alloc, .free 0] := by
  refine ⟨by simp [Tracked.Legal, Tracked.new], fun t ht => ⟨?_, fun _ _ => trivial⟩⟩
  show 0 ∈ t.live
  rw [(Tracked.first_alloc hsize ht).2.1]
  exact Finset.mem_singleton_self 0

theorem ids_of_two_words :
    1 ≤ 2 ∧ Guarded Tracked.step Tracked.Legal (Tracked.new 2) [.alloc, .free 0] ∧
      Guarded Tracked.step Tracked.HandsOut (Tracked.new 2) [.alloc, .free 0] := by
  have hlegal := @Tracked.alloc_free_legal 2 (by norm_num)
  refine ⟨by norm_num, hlegal, (ids_unique_and_smallest_iff (by norm_num) hlegal).mpr ?_⟩
  refine ⟨trivial, fun t ht => ⟨?_, fun _ _ => trivial⟩⟩
  show ((0 : ℕ) : ℤ) ≤ int32 t.allocator.getSize
  rw [(Tracked.first_alloc (by norm_num) ht).2.2]
  decide

/-- An allocator of `2^25` words does not take back the first id it hands out. -/
theorem large_bitmap_refuses_free :
    ¬ ∀ (size : ℕ) (ops : List IdOp), 1 ≤ size →
      Guarded Tracked.step Tracked.Legal (Tracked.new size) ops →
      Guarded Tracked.step Tracked.HandsOut (Tracked.new size) ops := by
  intro hall
  have hsize : 1 ≤ 2^25 := by norm_num
  have hlegal := Tracked.alloc_free_legal hsize
  obtain ⟨⟨_, id, a, halloc, _⟩, hrest⟩ := hall _ _ hsize hlegal
  have hstep : (Tracked.new (2^25)).step .alloc =
      some ⟨a, insert (id : ℤ).toNat (Tracked.new (2^25)).live⟩ := by
    rw [Tracked.step, halloc]
    rfl
  obtain ⟨hinv, _, hlen⟩ := Tracked.first_alloc hsize hstep
  have hinside := (Tracked.handsOut_iff hinv (hlegal.2 _ hstep).1).mp (hrest _ hstep).1
  have hle : ((0 : ℕ) : ℤ) ≤ int32 a.getSize := hinside
  rw [hlen] at hle
  exact absurd hle (by decide)

end MSylar.Basic
