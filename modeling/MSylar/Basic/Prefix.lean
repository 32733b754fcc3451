import MSylar.Basic.Address

/-!
# Prefixes of addresses (address.cc:30-47, 336-367, 434-480, endian.h:13-78)

The masks of IPv4 are built in the byte order of a little-endian host and swapped before they
are applied. Those of IPv6 are put together byte by byte, with a shift for the last one.
-/

namespace MSylar.Basic
open MSylar.Bits MSylar.Word

def afInet : BitVec 16 := 2

def getMask (w : ℕ) (prefixLen : ℤ) : BitVec w :=
  if w ≤ prefixLen then ~~~(0 : BitVec w)
  else if prefixLen ≤ 0 then 0
  else ~~~(0 : BitVec w) <<< (w - prefixLen).toNat

-- `byteSwapToBigEndian` on a little-endian host
def byteSwapToBigEndian {w : ℕ} (x : BitVec w) : BitVec w := byteSwap x

-- `NetByteSwapToHostEndian` on a little-endian host
def netByteSwapToHostEndian {w : ℕ} (x : BitVec w) : BitVec w := byteSwap x

namespace IPv4Address

def broadcastAddress (a : IPv4Address) (prefixLen : ℕ) : Option IPv4Address :=
  if 32 < prefixLen then none
  else some { a with sAddr := a.sAddr ||| byteSwapToBigEndian (~~~getMask 32 (int32 prefixLen)) }

def networkAddress (a : IPv4Address) (prefixLen : ℕ) : Option IPv4Address :=
  if 32 < prefixLen then none
  else some { a with sAddr := a.sAddr &&& byteSwapToBigEndian (getMask 32 (int32 prefixLen)) }

def subnetMask (prefixLen : ℕ) : IPv4Address where
  sinFamily := afInet
  sinPort := 0
  sAddr := byteSwapToBigEndian (getMask 32 (int32 prefixLen))
  sinZero := 0

def getPort (a : IPv4Address) : BitVec 16 := netByteSwapToHostEndian a.sinPort

def host (a : IPv4Address) : BitVec 32 := netByteSwapToHostEndian a.sAddr

structure Prefixed (a : IPv4Address) (p : ℕ) : Prop where
  mask : ∀ i < 32, (subnetMask p).host.getMsbD i = decide (i < p)
  network : ∃ n, a.networkAddress p = some n ∧ n.host = a.host &&& (subnetMask p).host ∧
    n.host ≤ a.host ∧ n.getPort = a.getPort
  broadcast : ∃ b, a.broadcastAddress p = some b ∧ b.host = a.host ||| ~~~(subnetMask p).host ∧
    a.host ≤ b.host ∧ b.getPort = a.getPort
  same : ∀ b : IPv4Address, (a.networkAddress p).map host = (b.networkAddress p).map host ↔
    ∀ i < p, a.host.getMsbD i = b.host.getMsbD i
  compose : ∀ p' ≤ 32, ((a.networkAddress p').bind fun n => n.networkAddress p) =
    a.networkAddress (min p p')

end IPv4Address

namespace IPv6Address

/-- `s6_addr[i]`, which is read for `i < 16` only. -/
def byte (a : IPv6Address) (i : ℕ) : BitVec 8 := a.s6Addr[i]?.getD 0

/-- The loop that stores a byte at each index below `n`. -/
def fill (src : ℕ → BitVec 8) : ℕ → Vector (BitVec 8) 16 → Vector (BitVec 8) 16
  | 0, v => v
  | n + 1, v => (fill src n v).setIfInBounds n (src n)

def networkAddress (a : IPv6Address) (prefixLen : ℕ) : IPv6Address :=
  let lastBlock6 := if 16 ≤ prefixLen / 8 then 16 else prefixLen / 8
  let lastBits := if 16 ≤ prefixLen / 8 then 0 else prefixLen % 8
  let s6Addr := fill a.byte lastBlock6 (Vector.replicate 16 0)
  { a with
    s6Addr := if lastBits ≠ 0 then
      s6Addr.setIfInBounds lastBlock6 ((a.byte lastBlock6 >>> lastBits) <<< lastBits)
    else s6Addr }

def subnetMask (a : IPv6Address) (prefixLen : ℕ) : IPv6Address :=
  let lastBlock6 := if 16 ≤ prefixLen / 8 then 16 else prefixLen / 8
  let lastBits := if 16 ≤ prefixLen / 8 then 0 else prefixLen % 8
  let s6Addr := fill (fun _ => ~~~0) lastBlock6 (Vector.replicate 16 0)
  { a with
    s6Addr := if lastBits ≠ 0 then
      (s6Addr.setIfInBounds lastBlock6 (~~~0)).setIfInBounds lastBlock6
        ((a.byte lastBlock6 >>> lastBits) <<< lastBits)
    else s6Addr }

def value (a : IPv6Address) : BitVec 128 := ofMsbs 128 fun i => (a.byte (i / 8)).getMsbD (i % 8)

structure Prefixed (a : IPv6Address) (p p' : ℕ) : Prop where
  mask : (a.subnetMask p).value = prefixMask 128 (min p 128)
  network : (a.networkAddress p).value = a.value &&& prefixMask 128 (min p 128)
  idempotent : (a.networkAddress p).networkAddress p = a.networkAddress p
  compose : (a.networkAddress p').networkAddress p = a.networkAddress (min p p')

/-- In its last byte the prefix has at most four bits; there the address has ones, and zeros behind
them up to as many bits from the end of the byte. -/
def Fits (a : IPv6Address) (p : ℕ) : Prop :=
  128 ≤ p ∨ p % 8 = 0 ∨
    p % 8 ≤ 4 ∧ ∀ j < 8 - p % 8, (a.byte (p / 8)).getMsbD j = decide (j < p % 8)

/-- Two prefixes that end within one byte: the bits that one of them drops from the end of the byte
and the other one does not are zero. -/
def Apart (a : IPv6Address) (p p' : ℕ) : Prop :=
  p / 8 = p' / 8 → p % 8 ≠ 0 → p' % 8 ≠ 0 → ∀ j < 8, 8 ≤ j + max (p % 8) (p' % 8) →
    j + min (p % 8) (p' % 8) < 8 → (a.byte (p / 8)).getMsbD j = false

end IPv6Address

/-! ### IPv4 -/

theorem getMask_eq {p : ℕ} (h : p ≤ 32) : getMask 32 (int32 p) = prefixMask 32 p := by
  have hones : ~~~(0 : BitVec 32) = BitVec.allOnes 32 := by decide
  rw [int32_of_lt (by omega)]
  unfold getMask prefixMask
  rw [hones]
  by_cases htop : p = 32
  · subst htop
    rfl
  · by_cases hzero : p = 0
    · subst hzero
      decide
    · rw [if_neg (by omega), if_neg (by omega)]
      congr 1
      omega

theorem netByteSwap_byteSwap (x : BitVec 32) :
    netByteSwapToHostEndian (byteSwapToBigEndian x) = x :=
  byteSwap_byteSwap (by decide) x

namespace IPv4Address

theorem host_subnetMask {p : ℕ} (h : p ≤ 32) : (subnetMask p).host = prefixMask 32 p := by
  unfold host subnetMask
  rw [netByteSwap_byteSwap, getMask_eq h]

theorem networkAddress_eq (a : IPv4Address) {p : ℕ} (h : p ≤ 32) :
    a.networkAddress p = some { a with
      sAddr := a.sAddr &&& byteSwapToBigEndian (prefixMask 32 p) } := by
  unfold networkAddress
  rw [if_neg (by omega), getMask_eq h]

theorem broadcastAddress_eq (a : IPv4Address) {p : ℕ} (h : p ≤ 32) :
    a.broadcastAddress p = some { a with
      sAddr := a.sAddr ||| byteSwapToBigEndian (~~~prefixMask 32 p) } := by
  unfold broadcastAddress
  rw [if_neg (by omega), getMask_eq h]

theorem host_and (a : IPv4Address) (m : BitVec 32) :
    ({ a with sAddr := a.sAddr &&& byteSwapToBigEndian m } : IPv4Address).host = a.host &&& m := by
  show byteSwap (a.sAddr &&& byteSwap m) = _
  rw [byteSwap_and, byteSwap_byteSwap (by decide)]
  rfl

theorem host_or (a : IPv4Address) (m : BitVec 32) :
    ({ a with sAddr := a.sAddr ||| byteSwapToBigEndian m } : IPv4Address).host = a.host ||| m := by
  show byteSwap (a.sAddr ||| byteSwap m) = _
  rw [byteSwap_or, byteSwap_byteSwap (by decide)]
  rfl

theorem networkAddress_networkAddress (a : IPv4Address) {p p' : ℕ} (h : p ≤ 32) (h' : p' ≤ 32) :
    ((a.networkAddress p').bind fun n => n.networkAddress p) = a.networkAddress (min p p') := by
  rw [networkAddress_eq a h', Option.bind_some, networkAddress_eq _ h,
    networkAddress_eq a (le_trans (min_le_left p p') h)]
  simp only [byteSwapToBigEndian, BitVec.and_assoc, ← byteSwap_and, prefixMask_and, min_comm p']

theorem prefix_laws (a : IPv4Address) (p : ℕ) :
    (p ≤ 32 → Prefixed a p) ∧
      (32 < p → a.networkAddress p = none ∧ a.broadcastAddress p = none) := by
  refine ⟨fun h => ?_, fun h => ⟨if_pos h, if_pos h⟩⟩
  have hmask := host_subnetMask h
  refine ⟨fun i hi => ?_, ⟨_, networkAddress_eq a h, ?_⟩, ⟨_, broadcastAddress_eq a h, ?_⟩,
    fun b => ?_, fun p' h' => networkAddress_networkAddress a h h'⟩
  · rw [hmask, getMsbD_prefixMask, decide_eq_true hi, Bool.true_and]
  · rw [host_and, hmask]
    exact ⟨rfl, and_le _ _, rfl⟩
  · rw [host_or, hmask]
    exact ⟨rfl, le_or _ _, rfl⟩
  · rw [networkAddress_eq a h, networkAddress_eq b h, Option.map_some, Option.map_some,
      Option.some.injEq, host_and, host_and]
    exact and_prefixMask_eq_iff _ _ p

theorem loopback_prefix :
    let a : IPv4Address := ⟨afInet, 0x5000, 0x0100007f, 0⟩
    Prefixed a 8 ∧ a.networkAddress 33 = none :=
  ⟨(prefix_laws _ 8).1 (by decide), ((prefix_laws _ 33).2 (by decide)).1⟩

end IPv4Address

/-! ### IPv6 -/

namespace IPv6Address

theorem getElem?_fill (src : ℕ → BitVec 8) (n : ℕ) (v : Vector (BitVec 8) 16) {i : ℕ} (hi : i < 16) :
    (fill src n v)[i]? = some (if i < n then src i else v[i]) := by
  induction n with
  | zero => simp [fill, hi]
  | succ n ih =>
    rw [fill, Vector.getElem?_setIfInBounds]
    by_cases hn : n = i
    · subst hn
      simp [hi]
    · rw [if_neg hn, ih]
      have hlt : i < n + 1 ↔ i < n := by omega
      simp only [hlt]

/-- The bits that the code keeps: the shift drops as many bits of the last byte as the prefix has
there. -/
def Kept (p i : ℕ) : Prop := i / 8 < p / 8 ∨ i / 8 = p / 8 ∧ p % 8 ≠ 0 ∧ i % 8 + p % 8 < 8

theorem getMsbD_shifts (b : BitVec 8) (k j : ℕ) :
    ((b >>> k) <<< k).getMsbD j = true ↔ j + k < 8 ∧ b.getMsbD j = true := by
  rw [BitVec.getMsbD_shiftLeft, BitVec.getMsbD_ushiftRight, Nat.add_sub_cancel]
  simp

/-- A byte of the address that the two loops leave, where `src` is what the first one stores. -/
theorem getElem?_last (src : ℕ → BitVec 8) (last : BitVec 8) (p : ℕ) {i : ℕ} (hi : i < 16) :
    let lastBlock6 := if 16 ≤ p / 8 then 16 else p / 8
    let lastBits := if 16 ≤ p / 8 then 0 else p % 8
    let s6Addr := fill src lastBlock6 (Vector.replicate 16 0)
    (if lastBits ≠ 0 then s6Addr.setIfInBounds lastBlock6 last else s6Addr)[i]? =
      some (if i < p / 8 then src i else if i = p / 8 ∧ p % 8 ≠ 0 then last else 0) := by
  by_cases hp : 16 ≤ p / 8
  · simp only [if_pos hp, ne_eq, not_true_eq_false, if_false, getElem?_fill _ _ _ hi,
      if_pos hi, if_pos (lt_of_lt_of_le hi hp)]
  · simp only [if_neg hp]
    by_cases hbits : p % 8 = 0
    · simp [hbits, getElem?_fill _ _ _ hi]
    · simp only [ne_eq, hbits, not_false_eq_true, if_true, and_true, Vector.getElem?_setIfInBounds]
      by_cases hlast : p / 8 = i
      · subst hlast
        simp [hi]
      · simp [hlast, Ne.symm hlast, getElem?_fill _ _ _ hi]

theorem shifts_eq (a : IPv6Address) {p i : ℕ} (hi : i < 16) (hlast : i = p / 8) :
    let lastBlock6 := if 16 ≤ p / 8 then 16 else p / 8
    let lastBits := if 16 ≤ p / 8 then 0 else p % 8
    (a.byte lastBlock6 >>> lastBits) <<< lastBits = (a.byte i >>> (p % 8)) <<< (p % 8) := by
  have hp : ¬16 ≤ p / 8 := by omega
  simp only [if_neg hp, hlast]

theorem byte_networkAddress (a : IPv6Address) (p : ℕ) {i : ℕ} (hi : i < 16) :
    (a.networkAddress p).byte i = if i < p / 8 then a.byte i
      else if i = p / 8 ∧ p % 8 ≠ 0 then (a.byte i >>> (p % 8)) <<< (p % 8) else 0 := by
  refine (congrArg (Option.getD · 0) (getElem?_last a.byte _ p hi)).trans ?_
  rw [Option.getD_some]
  by_cases hlast : i = p / 8
  · rw [shifts_eq a hi hlast]
  · simp only [hlast, false_and, if_false]

theorem byte_subnetMask (a : IPv6Address) (p : ℕ) {i : ℕ} (hi : i < 16) :
    (a.subnetMask p).byte i = if i < p / 8 then BitVec.allOnes 8
      else if i = p / 8 ∧ p % 8 ≠ 0 then (a.byte i >>> (p % 8)) <<< (p % 8) else 0 := by
  have hones : ~~~(0 : BitVec 8) = BitVec.allOnes 8 := by decide
  unfold subnetMask
  dsimp only
  rw [Vector.setIfInBounds_setIfInBounds]
  refine (congrArg (Option.getD · 0) (getElem?_last (fun _ => ~~~0) _ p hi)).trans ?_
  rw [Option.getD_some, hones]
  by_cases hlast : i = p / 8
  · rw [shifts_eq a hi hlast]
  · simp only [hlast, false_and, if_false]

theorem getMsbD_value (a : IPv6Address) {i : ℕ} (hi : i < 128) :
    a.value.getMsbD i = (a.byte (i / 8)).getMsbD (i % 8) :=
  getMsbD_ofMsbs _ hi

theorem getMsbD_value_at (a : IPv6Address) {n j : ℕ} (hn : n < 16) (hj : j < 8) :
    a.value.getMsbD (8 * n + j) = (a.byte n).getMsbD j := by
  rw [getMsbD_value a (by omega), show (8 * n + j) / 8 = n by omega,
    show (8 * n + j) % 8 = j by omega]

theorem kept_at {p j : ℕ} (hj : j < 8) :
    Kept p (8 * (p / 8) + j) ↔ p % 8 ≠ 0 ∧ j + p % 8 < 8 := by
  unfold Kept
  omega

/-- A bit of the bytes stored, with `x` for those before the last one. -/
theorem getMsbD_stored (a : IPv6Address) (x : BitVec 8) (p i : ℕ) :
    (if i / 8 < p / 8 then x else if i / 8 = p / 8 ∧ p % 8 ≠ 0 then
        (a.byte (i / 8) >>> (p % 8)) <<< (p % 8) else 0).getMsbD (i % 8) = true ↔
      Kept p i ∧ if i / 8 < p / 8 then x.getMsbD (i % 8) = true
        else (a.byte (i / 8)).getMsbD (i % 8) = true := by
  unfold Kept
  by_cases hlt : i / 8 < p / 8
  · rw [if_pos hlt, if_pos hlt]
    exact (and_iff_right (Or.inl hlt)).symm
  · rw [if_neg hlt, if_neg hlt]
    by_cases hlast : i / 8 = p / 8 ∧ p % 8 ≠ 0
    · rw [if_pos hlast, getMsbD_shifts, hlast.1]
      simp [hlast.2]
    · rw [if_neg hlast]
      exact iff_of_false (by simp) fun h => by omega

theorem getMsbD_networkAddress (a : IPv6Address) (p : ℕ) {i : ℕ} (hi : i < 128) :
    (a.networkAddress p).value.getMsbD i = true ↔ Kept p i ∧ a.value.getMsbD i = true := by
  rw [getMsbD_value _ hi, getMsbD_value _ hi, byte_networkAddress a p (by omega), getMsbD_stored,
    ite_self]

theorem getMsbD_subnetMask (a : IPv6Address) (p : ℕ) {i : ℕ} (hi : i < 128) :
    (a.subnetMask p).value.getMsbD i = true ↔
      Kept p i ∧ (i / 8 < p / 8 ∨ a.value.getMsbD i = true) := by
  have hones : (BitVec.allOnes 8).getMsbD (i % 8) = true := by
    rw [BitVec.getMsbD_allOnes, decide_eq_true (Nat.mod_lt i (by decide))]
  rw [getMsbD_value _ hi, getMsbD_value _ hi, byte_subnetMask a p (by omega), getMsbD_stored, hones]
  by_cases hlt : i / 8 < p / 8
  · simp only [hlt, if_true, true_or]
  · simp only [hlt, if_false, false_or]

/-! #### Each law on its own -/

theorem value_ext {a b : IPv6Address} (h : ∀ i < 128, a.value.getMsbD i = true ↔ b.value.getMsbD i = true) :
    a.s6Addr = b.s6Addr := by
  refine Vector.ext fun i hi => BitVec.eq_of_getMsbD_eq fun j hj => ?_
  have hbit := h (8 * i + j) (by omega)
  rw [getMsbD_value_at a hi hj, getMsbD_value_at b hi hj] at hbit
  unfold byte at hbit
  rw [Vector.getElem?_eq_getElem hi, Vector.getElem?_eq_getElem hi, Option.getD_some,
    Option.getD_some] at hbit
  exact Bool.eq_iff_iff.mpr hbit

theorem value_eq_iff (x y : BitVec 128) :
    x = y ↔ ∀ i < 128, x.getMsbD i = true ↔ y.getMsbD i = true :=
  ⟨fun h _ _ => h ▸ Iff.rfl, fun h => BitVec.eq_of_getMsbD_eq fun i hi => Bool.eq_iff_iff.mpr (h i hi)⟩

theorem getMsbD_min_prefixMask (p : ℕ) {i : ℕ} (hi : i < 128) :
    (prefixMask 128 (min p 128)).getMsbD i = true ↔ i < p := by
  rw [getMsbD_prefixMask, Bool.and_eq_true, decide_eq_true_eq, decide_eq_true_eq]
  omega

/-- Outside the last byte the bits kept are those of the prefix. -/
theorem kept_iff_lt (a : IPv6Address) {p i : ℕ} (hi : i / 8 ≠ p / 8) :
    Kept p i ∧ (i / 8 < p / 8 ∨ a.value.getMsbD i = true) ↔ i < p := by
  unfold Kept
  constructor
  · rintro ⟨hkept, -⟩
    omega
  · intro hlt
    exact ⟨by omega, by omega⟩

theorem fits_iff (a : IPv6Address) (p : ℕ) :
    a.Fits p ↔ ∀ i < 128, (Kept p i ∧ (i / 8 < p / 8 ∨ a.value.getMsbD i = true)) ↔ i < p := by
  constructor
  · intro h i hi
    by_cases hlast : i / 8 = p / 8
    · rw [getMsbD_value a hi, hlast]
      unfold Kept
      rcases h with htop | hzero | ⟨hfour, hbits⟩
      · omega
      · exact iff_of_false (fun h => by omega) (by omega)
      · by_cases hj : i % 8 < 8 - p % 8
        · rw [hbits _ hj, decide_eq_true_eq]
          omega
        · exact iff_of_false (fun h => by omega) (by omega)
    · exact kept_iff_lt a hlast
  · intro h
    unfold Fits
    by_contra hnot
    push Not at hnot
    obtain ⟨htop, hbits, hnot⟩ := hnot
    have hbyte : ∀ j < 8, (j + p % 8 < 8 ∧ (a.byte (p / 8)).getMsbD j = true) ↔ j < p % 8 := by
      intro j hj
      have hi := h (8 * (p / 8) + j) (by omega)
      rw [getMsbD_value_at a (by omega) hj, kept_at hj, and_iff_right hbits,
        show (8 * (p / 8) + j) / 8 = p / 8 by omega, or_iff_right (lt_irrefl _)] at hi
      rw [hi]
      omega
    -- the last bit of the prefix has to be kept
    have hfour := ((hbyte (p % 8 - 1) (by omega)).mpr (by omega)).1
    obtain ⟨j, hj, hne⟩ := hnot (by omega)
    refine hne (Bool.eq_iff_iff.mpr ?_)
    rw [decide_eq_true_eq, ← hbyte j (by omega)]
    exact (and_iff_right (by omega)).symm

theorem mask_iff (a : IPv6Address) (p : ℕ) :
    (a.subnetMask p).value = prefixMask 128 (min p 128) ↔ a.Fits p := by
  rw [value_eq_iff, fits_iff]
  refine forall_congr' fun i => forall_congr' fun hi => ?_
  rw [getMsbD_subnetMask a p hi, getMsbD_min_prefixMask p hi]

theorem network_of_fits {a : IPv6Address} {p : ℕ} (h : a.Fits p) :
    (a.networkAddress p).value = a.value &&& prefixMask 128 (min p 128) := by
  rw [value_eq_iff]
  intro i hi
  have hfits := (fits_iff a p).mp h i hi
  rw [getMsbD_networkAddress a p hi, BitVec.getMsbD_and, Bool.and_eq_true,
    getMsbD_min_prefixMask p hi]
  constructor
  · rintro ⟨hkept, hbit⟩
    exact ⟨hbit, hfits.mp ⟨hkept, Or.inr hbit⟩⟩
  · rintro ⟨hbit, hlt⟩
    exact ⟨(hfits.mpr hlt).1, hbit⟩

theorem eq_iff_value (a b : IPv6Address) (hport : a.sin6Port = b.sin6Port)
    (hfamily : a.sin6Family = b.sin6Family) (hflow : a.sin6Flowinfo = b.sin6Flowinfo)
    (hscope : a.sin6ScopeId = b.sin6ScopeId) :
    a = b ↔ ∀ i < 128, a.value.getMsbD i = true ↔ b.value.getMsbD i = true := by
  constructor
  · rintro rfl
    exact fun _ _ => Iff.rfl
  · intro h
    have haddr := value_ext h
    cases a
    cases b
    simp_all

/-- The bits of a common last byte that only one of the two prefixes drops. -/
def Dropped (p p' i : ℕ) : Prop :=
  p / 8 = p' / 8 ∧ i / 8 = p / 8 ∧ p % 8 ≠ 0 ∧ p' % 8 ≠ 0 ∧ 8 ≤ i % 8 + max (p % 8) (p' % 8)

theorem kept_and_kept_iff (p p' i : ℕ) :
    Kept p i ∧ Kept p' i ↔ Kept (min p p') i ∧ ¬Dropped p p' i := by
  unfold Kept Dropped
  rcases le_total p p' with h | h
  · rw [min_eq_left h]
    omega
  · rw [min_eq_right h]
    omega

theorem kept_min_last {p p' i : ℕ} (hblock : p / 8 = p' / 8) (hlast : i / 8 = p / 8)
    (hbits : p % 8 ≠ 0) (hbits' : p' % 8 ≠ 0) :
    Kept (min p p') i ↔ i % 8 + min (p % 8) (p' % 8) < 8 := by
  unfold Kept
  rcases le_total p p' with h | h
  · rw [min_eq_left h]
    omega
  · rw [min_eq_right h]
    omega

theorem compose_iff (a : IPv6Address) (p p' : ℕ) :
    (a.networkAddress p').networkAddress p = a.networkAddress (min p p') ↔ a.Apart p p' := by
  rw [eq_iff_value ((a.networkAddress p').networkAddress p) (a.networkAddress (min p p')) rfl rfl rfl
    rfl]
  have hbit : ∀ i < 128,
      (((a.networkAddress p').networkAddress p).value.getMsbD i = true ↔
        (a.networkAddress (min p p')).value.getMsbD i = true) ↔
      (Kept (min p p') i → a.value.getMsbD i = true → ¬Dropped p p' i) := by
    intro i hi
    rw [getMsbD_networkAddress _ p hi, getMsbD_networkAddress a p' hi,
      getMsbD_networkAddress a _ hi, ← and_assoc, kept_and_kept_iff]
    tauto
  constructor
  · intro h hblock hbits hbits' j hj hmax hmin
    by_cases hp : p / 8 < 16
    · have hi : 8 * (p / 8) + j < 128 := by omega
      have hnot := (hbit _ hi).mp (h _ hi)
      rw [getMsbD_value_at a hp hj] at hnot
      refine Bool.eq_false_iff.mpr fun hone => hnot ?_ hone ?_
      · rw [kept_min_last hblock (by omega) hbits hbits']
        omega
      · unfold Dropped
        omega
    · have hzero : a.byte (p / 8) = 0 := by
        unfold byte
        rw [Vector.getElem?_eq_none (by omega)]
        rfl
      rw [hzero]
      exact BitVec.getMsbD_zero
  · intro h i hi
    refine (hbit i hi).mpr fun hkept hone hdropped => ?_
    obtain ⟨hblock, hlast, hbits, hbits', hmax⟩ := hdropped
    have hmin := (kept_min_last hblock hlast hbits hbits').mp hkept
    rw [getMsbD_value a hi, hlast, h hblock hbits hbits' _ (Nat.mod_lt i (by decide)) hmax hmin] at hone
    exact Bool.false_ne_true hone

theorem idempotent (a : IPv6Address) (p : ℕ) :
    (a.networkAddress p).networkAddress p = a.networkAddress p := by
  rw [eq_iff_value ((a.networkAddress p).networkAddress p) (a.networkAddress p) rfl rfl rfl rfl]
  intro i hi
  rw [getMsbD_networkAddress _ p hi, getMsbD_networkAddress a p hi]
  exact and_iff_right_of_imp And.left

/-- The shift is right in a last byte of four bits, and where the bits of the address hide that it
is wrong. -/
theorem prefixed_iff (a : IPv6Address) (p p' : ℕ) : Prefixed a p p' ↔ a.Fits p ∧ a.Apart p p' := by
  constructor
  · intro h
    exact ⟨(mask_iff a p).mp h.mask, (compose_iff a p p').mp h.compose⟩
  · rintro ⟨hfits, hapart⟩
    exact ⟨(mask_iff a p).mpr hfits, network_of_fits hfits, idempotent a p,
      (compose_iff a p p').mpr hapart⟩

/-- Of the address of all zeros the mask for one bit is empty; of that of all ones the network for
one bit has seven. -/
theorem one_bit_prefix :
    let zeros : IPv6Address := ⟨10, 0, 0, Vector.replicate 16 0, 0⟩
    let ones : IPv6Address := ⟨10, 0, 0, Vector.replicate 16 0xff, 0⟩
    (zeros.subnetMask 1).byte 0 = 0 ∧ ¬Prefixed zeros 1 1 ∧
      (ones.networkAddress 1).byte 0 = 0xfe ∧ ¬Prefixed ones 1 1 := by
  refine ⟨by decide, fun h => ?_, by decide, fun h => ?_⟩
  · have hmask := congrArg (fun x => x.getMsbD 0) h.mask
    exact absurd hmask (by decide +kernel)
  · have hnetwork := congrArg (fun x => x.getMsbD 1) h.network
    exact absurd hnetwork (by decide +kernel)

end IPv6Address

end MSylar.Basic
