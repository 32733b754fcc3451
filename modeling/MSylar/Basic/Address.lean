import Mathlib.Data.List.Lex
import Mathlib.Data.Prod.Lex
import Mathlib.Order.Fin.Basic
import MSylar.Lib.Bits
import MSylar.Lib.Word

/-!
# Addresses and their comparison (address.cc:76-106, 336-559, address.h:24-164)

`getAddr` points to the socket address of the kind at hand, `getAddrLen` says how many of its
bytes count. The three operators compare them with `memcmp`. Words are stored with the least
significant byte first. The length of a Unix address is what its creator says; nothing ties it
to the size of `sockaddr_un`.
-/

namespace MSylar.Basic
open MSylar.Bits MSylar.Word

/-- `m_addr`, a `sockaddr_in`; the port and the address are in network order. -/
structure IPv4Address where
  sinFamily : BitVec 16
  sinPort : BitVec 16
  sAddr : BitVec 32
  sinZero : BitVec 64
  deriving DecidableEq

structure IPv6Address where
  sin6Family : BitVec 16
  sin6Port : BitVec 16
  sin6Flowinfo : BitVec 32
  s6Addr : Vector (BitVec 8) 16
  sin6ScopeId : BitVec 32
  deriving DecidableEq

/-- A `sockaddr_un` with a `socklen_t`. -/
structure UnixAddress where
  addr : Vector (BitVec 8) 110
  addrSize : ℕ
  addrSize_lt : addrSize < 2^32
  deriving DecidableEq

structure UnknownAddress where
  addr : Vector (BitVec 8) 16
  deriving DecidableEq

inductive Address where
  | ipv4 (a : IPv4Address)
  | ipv6 (a : IPv6Address)
  | unix (a : UnixAddress)
  | unknown (a : UnknownAddress)

namespace Address

/-- The memory that `getAddr` points to. -/
def getAddr : Address → List (BitVec 8)
  | .ipv4 a => bytesLE 2 a.sinFamily ++ bytesLE 2 a.sinPort ++ bytesLE 4 a.sAddr ++
      bytesLE 8 a.sinZero
  | .ipv6 a => bytesLE 2 a.sin6Family ++ bytesLE 2 a.sin6Port ++ bytesLE 4 a.sin6Flowinfo ++
      a.s6Addr.toList ++ bytesLE 4 a.sin6ScopeId
  | .unix a => a.addr.toList
  | .unknown a => a.addr.toList

def getAddrLen : Address → ℕ
  | .ipv4 _ => 16
  | .ipv6 _ => 28
  | .unix a => a.addrSize
  | .unknown _ => 16

end Address

/-- The difference of the first two of `n` bytes that are not the same; bytes are unsigned. -/
def firstDifference : List (BitVec 8) → List (BitVec 8) → ℕ → ℤ
  | a :: as, b :: bs, n + 1 =>
    if a = b then firstDifference as bs n else (a.toNat : ℤ) - b.toNat
  | _, _, _ => 0

/-- `none` is a read past the end of one of the two objects. -/
def memcmp (as bs : List (BitVec 8)) (n : ℕ) : Option ℤ :=
  if n ≤ as.length ∧ n ≤ bs.length then some (firstDifference as bs n) else none

namespace Address

-- `operator<`
def lt (x y : Address) : Option Bool := do
  let minLen := int32 (if x.getAddrLen < y.getAddrLen then x.getAddrLen else y.getAddrLen)
  let cmpResult ← memcmp x.getAddr y.getAddr (sizeT minLen)
  if cmpResult < 0 then some true
  else if 0 < cmpResult then some false
  else some (decide (x.getAddrLen < y.getAddrLen))

-- `operator==`
def eq (x y : Address) : Option Bool :=
  if x.getAddrLen = y.getAddrLen then do
    let cmpResult ← memcmp x.getAddr y.getAddr x.getAddrLen
    some (decide (cmpResult ≠ 0))
  else some false

-- `operator!=`
def ne (x y : Address) : Option Bool :=
  if x.getAddrLen = y.getAddrLen then do
    let cmpResult ← memcmp x.getAddr y.getAddr x.getAddrLen
    some (!decide (cmpResult ≠ 0))
  else some true

def bytes (x : Address) : List (BitVec 8) := x.getAddr.take x.getAddrLen

/-- What a total order with its equality says about three addresses. -/
structure Ordered (x y z : Address) : Prop where
  defined : (x.lt y).isSome ∧ (y.lt x).isSome ∧ (y.lt z).isSome ∧ (x.lt z).isSome ∧
    (x.eq y).isSome ∧ (x.ne y).isSome
  eq_iff : x.eq y = some true ↔ x.getAddrLen = y.getAddrLen ∧ x.bytes = y.bytes
  ne_iff : x.ne y = some true ↔ x.eq y = some false
  one : (x.lt y = some true ∧ x.eq y = some false ∧ y.lt x = some false) ∨
    (x.lt y = some false ∧ x.eq y = some true ∧ y.lt x = some false) ∨
    x.lt y = some false ∧ x.eq y = some false ∧ y.lt x = some true
  trans : x.lt y = some true → y.lt z = some true → x.lt z = some true

/-- The bytes that `operator<` compares are there in both objects. -/
def Comparable (x y : Address) : Prop :=
  min x.getAddrLen y.getAddrLen ≤ x.getAddr.length ∧
    min x.getAddrLen y.getAddrLen ≤ y.getAddr.length

instance (x y : Address) : Decidable (Comparable x y) := inferInstanceAs (Decidable (_ ∧ _))

/-! ### The bytes that are compared -/

theorem getAddrLen_lt (x : Address) : x.getAddrLen < 2^32 := by
  cases x with
  | ipv4 a => norm_num [getAddrLen]
  | ipv6 a => norm_num [getAddrLen]
  | unix a => exact a.addrSize_lt
  | unknown a => norm_num [getAddrLen]

theorem length_getAddr_le (x : Address) : x.getAddr.length ≤ 110 := by
  cases x with
  | ipv4 a => simp [getAddr, length_bytesLE]
  | ipv6 a => simp [getAddr, length_bytesLE]
  | unix a => simp [getAddr]
  | unknown a => simp [getAddr]

theorem length_bytes (x : Address) : x.bytes.length = min x.getAddrLen x.getAddr.length :=
  List.length_take

end Address

theorem firstDifference_take {n m k : ℕ} (hm : n ≤ m) (hk : n ≤ k) (as bs : List (BitVec 8)) :
    firstDifference (as.take m) (bs.take k) n = firstDifference as bs n := by
  induction n generalizing m k as bs with
  | zero => simp [firstDifference]
  | succ n ih =>
    obtain ⟨m, rfl⟩ := Nat.exists_eq_add_of_le' (show 1 ≤ m by omega)
    obtain ⟨k, rfl⟩ := Nat.exists_eq_add_of_le' (show 1 ≤ k by omega)
    cases as with
    | nil => simp [firstDifference]
    | cons a as =>
      cases bs with
      | nil => simp [firstDifference]
      | cons b bs =>
        simp only [List.take_succ_cons, firstDifference]
        rw [ih (by omega) (by omega)]

theorem firstDifference_eq_zero_iff {as bs : List (BitVec 8)} (h : as.length = bs.length) :
    firstDifference as bs as.length = 0 ↔ as = bs := by
  induction as generalizing bs with
  | nil =>
    rw [List.length_nil, eq_comm, List.length_eq_zero_iff] at h
    simp [firstDifference, h]
  | cons a as ih =>
    cases bs with
    | nil => simp at h
    | cons b bs =>
      rw [List.length_cons, List.length_cons, Nat.succ_inj] at h
      simp only [List.length_cons, firstDifference, List.cons.injEq]
      by_cases hab : a = b
      · rw [if_pos hab, ih h, and_iff_right hab]
      · have hne : a.toNat ≠ b.toNat := fun heq => hab (BitVec.eq_of_toNat_eq heq)
        rw [if_neg hab]
        exact iff_of_false (by omega) fun heq => hab heq.1

/-- The bytes as numbers, which the lexicographic order of lists compares. -/
def key (as : List (BitVec 8)) : List (Fin (2^8)) := as.map BitVec.toFin

theorem key_inj {as bs : List (BitVec 8)} : key as = key bs ↔ as = bs :=
  (List.map_injective_iff.mpr fun _ _ h => BitVec.eq_of_toFin_eq h).eq_iff

/-- A shorter string that the longer one begins with comes first. -/
theorem key_lt_iff (as bs : List (BitVec 8)) :
    key as < key bs ↔ firstDifference as bs (min as.length bs.length) < 0 ∨
      firstDifference as bs (min as.length bs.length) = 0 ∧ as.length < bs.length := by
  induction as generalizing bs with
  | nil => cases bs <;> simp [key, firstDifference]
  | cons a as ih =>
    cases bs with
    | nil => simp [key, firstDifference]
    | cons b bs =>
      have hcons : key (a :: as) < key (b :: bs) ↔
          a.toFin < b.toFin ∨ a.toFin = b.toFin ∧ key as < key bs := List.cons_lt_cons_iff
      rw [hcons, ih]
      simp only [List.length_cons, Nat.add_min_add_right, firstDifference]
      by_cases hab : a = b
      · subst hab
        simp
      · have hne : a.toFin ≠ b.toFin := fun heq => hab (BitVec.eq_of_toFin_eq heq)
        have hne' : a.toNat ≠ b.toNat := fun heq => hab (BitVec.eq_of_toNat_eq heq)
        have hlt : a.toFin < b.toFin ↔ a.toNat < b.toNat := Iff.rfl
        rw [if_neg hab, hlt]
        simp only [hne, false_and, or_false]
        omega

namespace Address

/-! ### The operators -/

theorem memcmp_of_le {as bs : List (BitVec 8)} {n : ℕ} (has : n ≤ as.length)
    (hbs : n ≤ bs.length) : memcmp as bs n = some (firstDifference as bs n) :=
  if_pos ⟨has, hbs⟩

/-- A length that is no `int` is too large as a `size_t` as well. -/
theorem sizeT_int32_le {n : ℕ} (h : n < 2^32) (hle : sizeT (int32 n) ≤ 110) :
    sizeT (int32 n) = n := by
  by_cases hn : n < 2^31
  · rw [int32_of_lt hn, sizeT_natCast (by omega)]
  · have hneg : int32 n < 0 := (int32_neg_iff h).mpr (not_lt.mp hn)
    have hmod := int32_emod n
    unfold sizeT at hle
    omega

theorem lt_eq (x y : Address) : x.lt y =
    if Comparable x y then
      some (decide (firstDifference x.getAddr y.getAddr (min x.getAddrLen y.getAddrLen) < 0 ∨
        firstDifference x.getAddr y.getAddr (min x.getAddrLen y.getAddrLen) = 0 ∧
          x.getAddrLen < y.getAddrLen))
    else none := by
  have hx := x.getAddrLen_lt
  have hy := x.length_getAddr_le
  have hmin : (if x.getAddrLen < y.getAddrLen then (x.getAddrLen : ℤ) else y.getAddrLen) =
      (min x.getAddrLen y.getAddrLen : ℕ) := by
    split <;> omega
  unfold lt
  rw [hmin]
  dsimp only
  by_cases hcmp : Comparable x y
  · have hlen : min x.getAddrLen y.getAddrLen ≤ 110 := hcmp.1.trans hy
    rw [if_pos hcmp, int32_of_lt (by omega), sizeT_natCast (by omega), memcmp_of_le hcmp.1 hcmp.2]
    generalize firstDifference x.getAddr y.getAddr (min x.getAddrLen y.getAddrLen) = c
    rcases lt_trichotomy c 0 with hneg | rfl | hpos
    · simp [hneg]
    · simp
    · simp [hpos, hpos.ne', not_lt.mpr hpos.le]
  · have hout : memcmp x.getAddr y.getAddr
        (sizeT (int32 (min x.getAddrLen y.getAddrLen : ℕ))) = none := by
      refine if_neg fun ⟨hxs, hys⟩ => hcmp ?_
      have hlen := sizeT_int32_le (by omega : min x.getAddrLen y.getAddrLen < 2^32) (hxs.trans hy)
      rw [hlen] at hxs hys
      exact ⟨hxs, hys⟩
    rw [if_neg hcmp, hout]
    rfl

theorem isSome_lt_iff (x y : Address) : (x.lt y).isSome ↔ Comparable x y := by
  rw [lt_eq]
  split <;> simp [*]

theorem comparable_comm (x y : Address) : Comparable x y ↔ Comparable y x := by
  unfold Comparable
  rw [min_comm, and_comm]

/-- The order of the bytes, and of the lengths where those that are there are the same. -/
def rank (x : Address) : List (Fin (2^8)) ×ₗ ℕ := toLex (key x.bytes, x.getAddrLen)

theorem lt_iff {x y : Address} (h : Comparable x y) : x.lt y = some true ↔ x.rank < y.rank := by
  have hx := x.length_bytes
  have hy := y.length_bytes
  obtain ⟨hxs, hys⟩ := h
  have hlen : min x.bytes.length y.bytes.length = min x.getAddrLen y.getAddrLen := by omega
  have hcut : firstDifference x.bytes y.bytes (min x.getAddrLen y.getAddrLen) =
      firstDifference x.getAddr y.getAddr (min x.getAddrLen y.getAddrLen) :=
    firstDifference_take (Nat.min_le_left _ _) (Nat.min_le_right _ _) _ _
  have hkey := key_lt_iff x.bytes y.bytes
  rw [hlen, hcut] at hkey
  rw [lt_eq, if_pos ⟨hxs, hys⟩, Option.some.injEq, decide_eq_true_eq, rank, rank,
    Prod.Lex.toLex_lt_toLex, hkey, key_inj, or_assoc]
  refine or_congr_right ⟨fun ⟨hzero, hlt⟩ => ?_, ?_⟩
  · by_cases hbytes : x.bytes.length < y.bytes.length
    · exact .inl ⟨hzero, hbytes⟩
    · have heq : x.bytes.length = y.bytes.length := by omega
      have hfull : x.bytes.length = min x.getAddrLen y.getAddrLen := by omega
      exact .inr ⟨(firstDifference_eq_zero_iff heq).mp (by rw [hfull, hcut, hzero]), hlt⟩
  · rintro (⟨hzero, hbytes⟩ | ⟨hbytes, hlt⟩)
    · exact ⟨hzero, by omega⟩
    · have hfull : x.bytes.length = min x.getAddrLen y.getAddrLen := by omega
      have hzero := (firstDifference_eq_zero_iff (congrArg List.length hbytes)).mpr hbytes
      rw [hfull, hcut] at hzero
      exact ⟨hzero, hlt⟩

theorem lt_false_iff {x y : Address} (h : Comparable x y) :
    x.lt y = some false ↔ ¬x.rank < y.rank := by
  rw [← lt_iff h, lt_eq, if_pos h, Option.some.injEq, Option.some.injEq, Bool.not_eq_true]

theorem eq_of_length_ne {x y : Address} (h : x.getAddrLen ≠ y.getAddrLen) :
    x.eq y = some false ∧ x.ne y = some true :=
  ⟨if_neg h, if_neg h⟩

theorem eq_wrong_of_length_eq {x y : Address} (h : x.getAddrLen = y.getAddrLen) :
    ¬(x.eq y = some true ↔ x.getAddrLen = y.getAddrLen ∧ x.bytes = y.bytes) ∨
      (x.eq y).isSome = false := by
  by_cases hcmp : Comparable x y
  · refine .inl ?_
    obtain ⟨hxs, hys⟩ := hcmp
    rw [h, Nat.min_self] at hxs hys
    have hx := x.length_bytes
    have hy := y.length_bytes
    have hzero := firstDifference_eq_zero_iff (by omega : x.bytes.length = y.bytes.length)
    rw [show x.bytes.length = y.getAddrLen by omega, bytes, bytes,
      firstDifference_take h.ge le_rfl, ← bytes, ← bytes] at hzero
    rw [eq, if_pos h, h, memcmp_of_le hxs hys, and_iff_right rfl, ← hzero]
    simp
  · refine .inr ?_
    rw [eq, if_pos h, memcmp, if_neg]
    · rfl
    · rintro ⟨hxs, hys⟩
      refine hcmp ⟨?_, ?_⟩ <;> omega

/-- Addresses of one length are equal for `==` exactly if they differ; of two lengths, the
smaller one is read in both. -/
theorem ordered_iff (x y z : Address) : Ordered x y z ↔ x.getAddrLen ≠ y.getAddrLen ∧
    Comparable x y ∧ Comparable y z ∧ Comparable x z := by
  constructor
  · intro h
    obtain ⟨hxy, -, hyz, hxz, heq, -⟩ := h.defined
    rw [isSome_lt_iff] at hxy hyz hxz
    refine ⟨fun hlen => ?_, hxy, hyz, hxz⟩
    rcases eq_wrong_of_length_eq hlen with hwrong | hundefined
    · exact hwrong h.eq_iff
    · rw [hundefined] at heq
      cases heq
  · rintro ⟨hlen, hxy, hyz, hxz⟩
    obtain ⟨heq, hne⟩ := eq_of_length_ne hlen
    have hyx : Comparable y x := (comparable_comm x y).mp hxy
    have hrank : x.rank ≠ y.rank := fun h => hlen (congrArg (fun r => (ofLex r).2) h)
    constructor
    · simp only [isSome_lt_iff, heq, hne]
      exact ⟨hxy, hyx, hyz, hxz, rfl, rfl⟩
    · rw [heq]
      exact iff_of_false (by decide) fun h => hlen h.1
    · exact iff_of_true hne heq
    · rw [lt_iff hxy, lt_iff hyx, lt_false_iff hxy, lt_false_iff hyx]
      rcases lt_or_gt_of_ne hrank with hlt | hgt
      · exact .inl ⟨hlt, heq, hlt.asymm⟩
      · exact .inr (.inr ⟨hgt.asymm, heq, hgt⟩)
    · rw [lt_iff hxy, lt_iff hyz, lt_iff hxz]
      exact lt_trans

/-- No order makes an address smaller than, equal to or larger than itself; Unix addresses
longer than a `sockaddr_un` are compared past their end. -/
theorem loopback_not_ordered :
    let x := ipv4 ⟨2, 0, 0x0100007f, 0⟩
    let u := unix ⟨Vector.replicate 110 0, 112, by decide⟩
    let v := unix ⟨Vector.replicate 110 0, 113, by decide⟩
    (x.lt x = some false ∧ x.eq x = some false ∧ x.ne x = some true ∧ ¬Ordered x x x) ∧
      u.lt v = none ∧ ¬Ordered u v v := by
  refine ⟨⟨by decide, by decide, by decide, fun h => ?_⟩, by decide, fun h => ?_⟩
  · have heq := h.eq_iff.mpr ⟨rfl, rfl⟩
    exact absurd heq (by decide)
  · exact absurd h.defined.1 (by decide)

end Address

end MSylar.Basic
