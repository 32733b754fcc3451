import Mathlib.Data.Nat.Bitwise
import Mathlib.Order.Monotone.Basic

/-!
# Snowflake ids (Snowflake.hpp:31-107)

An id holds the milliseconds since `TWEPOCH`, the datacenter, the worker and a sequence number of
12 bits, which tells the ids of one millisecond apart. Every call of `millsecond()` is one reading
of a list; where the list ends, the call is still waiting.
-/

namespace MSylar.Tools

/-- The template argument and the two configuration values that `nextid` reads. -/
structure SnowflakeConfig where
  twepoch : ℤ
  workerId : ℤ
  datacenterId : ℤ

structure Snowflake where
  lastTimestamp : ℤ
  sequence : ℕ
  deriving DecidableEq

namespace Snowflake

def workerIdBits : ℕ := 5
def datacenterIdBits : ℕ := 5
def maxWorkerId : ℤ := 2 ^ workerIdBits - 1
def maxDatacenterId : ℤ := 2 ^ datacenterIdBits - 1
def sequenceBits : ℕ := 12
def workerIdShift : ℕ := sequenceBits
def datacenterIdShift : ℕ := sequenceBits + workerIdBits
def timestampLeftShift : ℕ := sequenceBits + workerIdBits + datacenterIdBits
def sequenceMask : ℕ := 2 ^ sequenceBits - 1

def new : Snowflake := ⟨-1, 0⟩

def init (c : SnowflakeConfig) : Except String Unit :=
  if maxWorkerId < c.workerId ∨ c.workerId < 0 then
    .error "worker Id can't be greater than 31 or less than 0"
  else if maxDatacenterId < c.datacenterId ∨ c.datacenterId < 0 then
    .error "datacenter Id can't be greater than 31 or less than 0"
  else .ok ()

/-- The value that `nextid` returns, put together in an `int64_t`. -/
def makeId (c : SnowflakeConfig) (timestamp : ℤ) (sequence : ℕ) : ℤ :=
  (BitVec.ofInt 64 (timestamp - c.twepoch) <<< timestampLeftShift |||
    BitVec.ofInt 64 c.datacenterId <<< datacenterIdShift |||
    BitVec.ofInt 64 c.workerId <<< workerIdShift |||
    BitVec.ofNat 64 sequence).toInt

def waitNextMillis (last : ℤ) : List ℤ → Option (ℤ × List ℤ)
  | [] => none
  | timestamp :: readings =>
    if timestamp ≤ last then waitNextMillis last readings else some (timestamp, readings)

def nextid (c : SnowflakeConfig) (g : Snowflake) : List ℤ → Option (ℤ × Snowflake × List ℤ)
  | [] => none
  | timestamp :: readings =>
    if g.lastTimestamp = timestamp then
      let sequence := (g.sequence + 1) &&& sequenceMask
      if sequence = 0 then
        (waitNextMillis g.lastTimestamp readings).map fun r =>
          (makeId c r.1 sequence, ⟨r.1, sequence⟩, r.2)
      else some (makeId c timestamp sequence, ⟨timestamp, sequence⟩, readings)
    else some (makeId c timestamp 0, ⟨timestamp, 0⟩, readings)

/-- The ids of `n` calls, one after another. -/
def nextids (c : SnowflakeConfig) : ℕ → Snowflake → List ℤ → Option (List ℤ × Snowflake × List ℤ)
  | 0, g, readings => some ([], g, readings)
  | n + 1, g, readings =>
    (nextid c g readings).bind fun r =>
      (nextids c n r.2.1 r.2.2).map fun q => (r.1 :: q.1, q.2)

/-! ### The fields of an id -/

theorem init_ok {c : SnowflakeConfig} (h : init c = .ok ()) :
    (0 ≤ c.workerId ∧ c.workerId < 32) ∧ 0 ≤ c.datacenterId ∧ c.datacenterId < 32 := by
  unfold init at h
  split_ifs at h with hworker hdatacenter
  have hmax : maxWorkerId = 31 := rfl
  have hmax' : maxDatacenterId = 31 := rfl
  omega

/-- Below the timestamp. -/
def lowBits (datacenterId workerId sequence : ℕ) : ℕ :=
  datacenterId * 2 ^ 17 + workerId * 2 ^ 12 + sequence

theorem lowBits_lt {d w s : ℕ} (hd : d < 32) (hw : w < 32) (hs : s < 4096) :
    lowBits d w s < 2 ^ 22 := by
  unfold lowBits
  omega

theorem or_fields (x : ℕ) {d w s : ℕ} (hd : d < 32) (hw : w < 32) (hs : s < 4096) :
    x <<< 22 ||| d <<< 17 ||| w <<< 12 ||| s = x * 2 ^ 22 + lowBits d w s := by
  have hworker : w <<< 12 ||| s = w <<< 12 + s :=
    (Nat.shiftLeft_add_eq_or_of_lt (by omega) w).symm
  have hdatacenter : d <<< 17 ||| (w <<< 12 + s) = d <<< 17 + (w <<< 12 + s) := by
    refine (Nat.shiftLeft_add_eq_or_of_lt ?_ d).symm
    rw [Nat.shiftLeft_eq]
    omega
  have htime : x <<< 22 ||| (d <<< 17 + (w <<< 12 + s)) = x <<< 22 + (d <<< 17 + (w <<< 12 + s)) := by
    refine (Nat.shiftLeft_add_eq_or_of_lt ?_ x).symm
    rw [Nat.shiftLeft_eq, Nat.shiftLeft_eq]
    omega
  rw [Nat.or_assoc, Nat.or_assoc, hworker, hdatacenter, htime, Nat.shiftLeft_eq, Nat.shiftLeft_eq,
    Nat.shiftLeft_eq, lowBits, Nat.add_assoc]

theorem toNat_ofInt {n : ℤ} (h : 0 ≤ n) (hlt : n < 2 ^ 64) :
    (BitVec.ofInt 64 n).toNat = n.toNat := by
  rw [BitVec.toNat_ofInt]
  congr 1
  exact Int.emod_eq_of_lt h hlt

theorem shiftLeft_mod {n k : ℕ} (h : n * 2 ^ k < 2 ^ 64) : n <<< k % 2 ^ 64 = n <<< k := by
  rw [Nat.shiftLeft_eq]
  exact Nat.mod_eq_of_lt h

theorem timestamp_mod (n : ℕ) : n <<< 22 % 2 ^ 64 = (n % 2 ^ 42) <<< 22 := by
  rw [Nat.shiftLeft_eq, Nat.shiftLeft_eq]
  exact Nat.mul_mod_mul_right (2 ^ 22) n (2 ^ 42)

/-- Whatever the timestamp is, the bits below it are those of the three other fields. -/
theorem makeId_eq {c : SnowflakeConfig} (h : init c = .ok ()) (timestamp : ℤ) {sequence : ℕ}
    (hs : sequence < 4096) :
    makeId c timestamp sequence =
      (((BitVec.ofInt 64 (timestamp - c.twepoch)).toNat % 2 ^ 42 * 2 ^ 22 +
        lowBits c.datacenterId.toNat c.workerId.toNat sequence : ℕ) : ℤ).bmod (2 ^ 64) := by
  obtain ⟨⟨hw, hw'⟩, hd, hd'⟩ := init_ok h
  have hworker := toNat_ofInt hw (by omega)
  have hdatacenter := toNat_ofInt hd (by omega)
  have hseq : (BitVec.ofNat 64 sequence).toNat = sequence := by
    rw [BitVec.toNat_ofNat]
    exact Nat.mod_eq_of_lt (by omega)
  rw [makeId, BitVec.toInt_eq_toNat_bmod, BitVec.toNat_or, BitVec.toNat_or, BitVec.toNat_or,
    BitVec.toNat_shiftLeft, BitVec.toNat_shiftLeft, BitVec.toNat_shiftLeft, hworker, hdatacenter,
    hseq]
  change ((_ <<< 22 % 2 ^ 64 ||| _ <<< 17 % 2 ^ 64 ||| _ <<< 12 % 2 ^ 64 ||| sequence : ℕ) : ℤ).bmod
    (2 ^ 64) = _
  rw [timestamp_mod, shiftLeft_mod (by omega), shiftLeft_mod (by omega), or_fields _ (by omega)
    (by omega) hs]

theorem makeId_of_range {c : SnowflakeConfig} (h : init c = .ok ()) {timestamp : ℤ}
    (hlow : 0 ≤ timestamp - c.twepoch) (hhigh : timestamp - c.twepoch < 2 ^ 41) {sequence : ℕ}
    (hs : sequence < 4096) :
    makeId c timestamp sequence = (timestamp - c.twepoch) * 2 ^ 22 +
      lowBits c.datacenterId.toNat c.workerId.toNat sequence := by
  obtain ⟨⟨hw, hw'⟩, hd, hd'⟩ := init_ok h
  have hbits := @lowBits_lt c.datacenterId.toNat c.workerId.toNat sequence (by omega) (by omega) hs
  rw [makeId_eq h timestamp hs, toNat_ofInt hlow (by omega), Nat.mod_eq_of_lt (by omega)]
  rw [Int.bmod_eq_of_le (by omega) (by omega)]
  push_cast
  rw [Int.toNat_of_nonneg hlow]

theorem makeId_emod {c : SnowflakeConfig} (h : init c = .ok ()) (timestamp : ℤ) {sequence : ℕ}
    (hs : sequence < 4096) : makeId c timestamp sequence % 2 ^ 22 =
      lowBits c.datacenterId.toNat c.workerId.toNat sequence := by
  obtain ⟨⟨hw, hw'⟩, hd, hd'⟩ := init_ok h
  have hbits := @lowBits_lt c.datacenterId.toNat c.workerId.toNat sequence (by omega) (by omega) hs
  have hmod : makeId c timestamp sequence % 2 ^ 64 = _ :=
    (congrArg (· % (2 ^ 64 : ℤ)) (makeId_eq h timestamp hs)).trans Int.bmod_emod
  omega

/-- The fields can be read off the bits. -/
theorem lowBits_inj {d w s d' w' s' : ℕ} (hw : w < 32) (hs : s < 4096) (hw' : w' < 32)
    (hs' : s' < 4096) (h : lowBits d w s = lowBits d' w' s') : d = d' ∧ w = w' ∧ s = s' := by
  unfold lowBits at h
  omega

theorem sequence_mask (sequence : ℕ) : sequence &&& sequenceMask = sequence % 4096 :=
  Nat.and_two_pow_sub_one_eq_mod sequence 12

/-! ### One call -/

theorem waitNextMillis_some {last : ℤ} {readings : List ℤ} {r : ℤ × List ℤ}
    (h : waitNextMillis last readings = some r) :
    last < r.1 ∧ ∃ used, readings = used ++ r.1 :: r.2 := by
  induction readings with
  | nil => cases h
  | cons timestamp readings ih =>
    unfold waitNextMillis at h
    split_ifs at h with hlast
    · obtain ⟨hlt, used, rfl⟩ := ih h
      exact ⟨hlt, timestamp :: used, rfl⟩
    · cases h
      exact ⟨Int.not_le.mp hlast, [], rfl⟩

/-- What a call returns and leaves: the reading it ended with, and a sequence number that is a
new one if the reading is that of the call before. -/
structure Returned (c : SnowflakeConfig) (g : Snowflake) (readings : List ℤ) (id : ℤ)
    (g' : Snowflake) (rest : List ℤ) : Prop where
  readings : ∃ used, readings = used ++ g'.lastTimestamp :: rest
  id : id = makeId c g'.lastTimestamp g'.sequence
  sequence_lt : g'.sequence < 4096
  advances : g.sequence < 4096 →
    g'.lastTimestamp ≠ g.lastTimestamp ∨ g.sequence < g'.sequence

theorem nextid_some {c : SnowflakeConfig} {g g' : Snowflake} {readings rest : List ℤ} {id : ℤ}
    (h : nextid c g readings = some (id, g', rest)) : Returned c g readings id g' rest := by
  cases readings with
  | nil => cases h
  | cons timestamp readings =>
    simp only [nextid, sequence_mask] at h
    split_ifs at h with hsame hzero
    · obtain ⟨r, hwait, hr⟩ := Option.map_eq_some_iff.mp h
      cases hr
      obtain ⟨hlt, used, rfl⟩ := waitNextMillis_some hwait
      exact ⟨⟨timestamp :: used, rfl⟩, rfl, Nat.mod_lt _ (by omega), fun _ => .inl hlt.ne'⟩
    · cases h
      refine ⟨⟨[], rfl⟩, rfl, Nat.mod_lt _ (by omega), fun hs => .inr ?_⟩
      change g.sequence < (g.sequence + 1) % 4096
      omega
    · cases h
      exact ⟨⟨[], rfl⟩, rfl, Nat.succ_pos 4095, fun _ => .inl (Ne.symm hsame)⟩

theorem makeId_lt {c : SnowflakeConfig} (h : init c = .ok ()) {ts ts' : ℤ} {s s' : ℕ}
    (hts : 0 ≤ ts - c.twepoch ∧ ts - c.twepoch < 2 ^ 41)
    (hts' : 0 ≤ ts' - c.twepoch ∧ ts' - c.twepoch < 2 ^ 41) (hs : s < 4096) (hs' : s' < 4096)
    (hlt : ts < ts' ∨ ts = ts' ∧ s < s') : makeId c ts s < makeId c ts' s' := by
  obtain ⟨⟨hw, hw'⟩, hd, hd'⟩ := init_ok h
  have hbits := @lowBits_lt c.datacenterId.toNat c.workerId.toNat s (by omega) (by omega) hs
  rw [makeId_of_range h hts.1 hts.2 hs, makeId_of_range h hts'.1 hts'.2 hs']
  rcases hlt with hlt | ⟨rfl, hlt⟩
  · omega
  · unfold lowBits
    omega

/-! ### Many calls -/

/-- The readings do not fall and lie in the 41 bits of the timestamp field. -/
def Steady (c : SnowflakeConfig) (readings : List ℤ) : Prop :=
  readings.Pairwise (· ≤ ·) ∧ ∀ ts ∈ readings, 0 ≤ ts - c.twepoch ∧ ts - c.twepoch < 2 ^ 41

theorem Returned.steady {c : SnowflakeConfig} {g g' : Snowflake} {readings rest : List ℤ} {id : ℤ}
    (hr : Returned c g readings id g' rest) (h : Steady c readings) :
    Steady c (g'.lastTimestamp :: rest) := by
  obtain ⟨used, rfl⟩ := hr.readings
  exact ⟨(List.pairwise_append.mp h.1).2.1, fun ts hts => h.2 ts (List.mem_append_right used hts)⟩

theorem Returned.nonneg {c : SnowflakeConfig} (hc : init c = .ok ()) {g g' : Snowflake}
    {readings rest : List ℤ} {id : ℤ} (hr : Returned c g readings id g' rest)
    (h : Steady c readings) : 0 ≤ id := by
  obtain ⟨hlow, hhigh⟩ := (hr.steady h).2 g'.lastTimestamp List.mem_cons_self
  rw [hr.id, makeId_of_range hc hlow hhigh hr.sequence_lt]
  omega

/-- After a call with reading `lastTimestamp`, of which no later one is below. -/
theorem Returned.ascending {c : SnowflakeConfig} (hc : init c = .ok ()) {g g' : Snowflake}
    {readings rest : List ℤ} {id : ℤ} (hr : Returned c g readings id g' rest)
    (hs : g.sequence < 4096) (h : Steady c (g.lastTimestamp :: readings)) :
    makeId c g.lastTimestamp g.sequence < id := by
  have hrange := (hr.steady ⟨h.1.of_cons, fun ts hts => h.2 ts (List.mem_cons_of_mem _ hts)⟩).2
    g'.lastTimestamp List.mem_cons_self
  have hle : g.lastTimestamp ≤ g'.lastTimestamp := by
    obtain ⟨used, rfl⟩ := hr.readings
    exact List.rel_of_pairwise_cons h.1 (List.mem_append_right used List.mem_cons_self)
  rw [hr.id]
  refine makeId_lt hc (h.2 _ List.mem_cons_self) hrange hs hr.sequence_lt ?_
  have hadvances := hr.advances hs
  omega

theorem nextids_succ {c : SnowflakeConfig} {n : ℕ} {g g' : Snowflake} {readings rest ids : List ℤ}
    (h : nextids c (n + 1) g readings = some (ids, g', rest)) :
    ∃ id g₁ mid ids', nextid c g readings = some (id, g₁, mid) ∧
      nextids c n g₁ mid = some (ids', g', rest) ∧ ids = id :: ids' := by
  obtain ⟨⟨id, g₁, mid⟩, hid, hrest⟩ := Option.bind_eq_some_iff.mp h
  obtain ⟨⟨ids', g₂, rest'⟩, hids, heq⟩ := Option.map_eq_some_iff.mp hrest
  cases heq
  exact ⟨id, g₁, mid, ids', hid, hids, rfl⟩

-- The bound on the ids is the one the calls before left; a new generator has left none.
theorem nextids_ascending {c : SnowflakeConfig} (hc : init c = .ok ()) {n : ℕ} {g g' : Snowflake}
    {readings rest ids : List ℤ} (hsteady : Steady c readings)
    (h : nextids c n g readings = some (ids, g', rest)) :
    ids.Pairwise (· < ·) ∧ (∀ id ∈ ids, 0 ≤ id) ∧
      (g.sequence < 4096 → Steady c (g.lastTimestamp :: readings) →
        ∀ id ∈ ids, makeId c g.lastTimestamp g.sequence < id) := by
  induction n generalizing g readings ids with
  | zero =>
    cases h
    exact ⟨List.Pairwise.nil, by simp, by simp⟩
  | succ n ih =>
    obtain ⟨id, g₁, mid, ids', hid, hids, rfl⟩ := nextids_succ h
    have hr := nextid_some hid
    have hsteady₁ := hr.steady hsteady
    have hmid : Steady c mid :=
      ⟨hsteady₁.1.of_cons, fun ts hts => hsteady₁.2 ts (List.mem_cons_of_mem _ hts)⟩
    obtain ⟨hpairwise, hnonneg, hbound⟩ := ih hmid hids
    have habove : ∀ id' ∈ ids', id < id' := by
      rw [hr.id]
      exact hbound hr.sequence_lt hsteady₁
    refine ⟨List.Pairwise.cons habove hpairwise, ?_, ?_⟩
    · exact List.forall_mem_cons.mpr ⟨hr.nonneg hc hsteady, hnonneg⟩
    · intro hs hlast
      have hfirst := hr.ascending hc hs hlast
      exact List.forall_mem_cons.mpr ⟨hfirst, fun id' hid' => hfirst.trans (habove id' hid')⟩

/-- The ids of a run carry the datacenter and the worker. -/
theorem nextids_emod {c : SnowflakeConfig} (hc : init c = .ok ()) {n : ℕ} {g g' : Snowflake}
    {readings rest ids : List ℤ} (h : nextids c n g readings = some (ids, g', rest)) :
    ∀ id ∈ ids, ∃ sequence < 4096,
      id % 2 ^ 22 = lowBits c.datacenterId.toNat c.workerId.toNat sequence := by
  induction n generalizing g readings ids with
  | zero =>
    cases h
    simp
  | succ n ih =>
    obtain ⟨id, g₁, mid, ids', hid, hids, rfl⟩ := nextids_succ h
    have hr := nextid_some hid
    refine List.forall_mem_cons.mpr ⟨⟨g₁.sequence, hr.sequence_lt, ?_⟩, ih hids⟩
    rw [hr.id]
    exact makeId_emod hc g₁.lastTimestamp hr.sequence_lt

theorem nextids_disjoint {c c' : SnowflakeConfig} (hc : init c = .ok ()) (hc' : init c' = .ok ())
    (hne : (c.datacenterId, c.workerId) ≠ (c'.datacenterId, c'.workerId)) {n n' : ℕ}
    {g g' f f' : Snowflake} {readings rest ids readings' rest' ids' : List ℤ}
    (h : nextids c n g readings = some (ids, g', rest))
    (h' : nextids c' n' f readings' = some (ids', f', rest')) : ∀ id ∈ ids, id ∉ ids' := by
  intro id hid hid'
  obtain ⟨s, hs, hbits⟩ := nextids_emod hc h id hid
  obtain ⟨s', hs', hbits'⟩ := nextids_emod hc' h' id hid'
  obtain ⟨⟨hw, hw₁⟩, hd, hd₁⟩ := init_ok hc
  obtain ⟨⟨hw', hw₁'⟩, hd', hd₁'⟩ := init_ok hc'
  rw [hbits] at hbits'
  obtain ⟨hdatacenter, hworker, -⟩ :=
    lowBits_inj (by omega) hs (by omega) hs' (Int.ofNat_inj.mp hbits')
  refine hne (Prod.ext ?_ ?_)
  · change c.datacenterId = c'.datacenterId
    omega
  · change c.workerId = c'.workerId
    omega

/-! ### Every call returns -/

theorem waitNextMillis_append {last : ℤ} {readings : List ℤ} {r : ℤ × List ℤ} (more : List ℤ)
    (h : waitNextMillis last readings = some r) :
    waitNextMillis last (readings ++ more) = some (r.1, r.2 ++ more) := by
  induction readings with
  | nil => cases h
  | cons timestamp readings ih =>
    simp only [List.cons_append, waitNextMillis] at h ⊢
    split_ifs at h ⊢ with hlast
    · exact ih h
    · cases h
      rfl

theorem nextid_append {c : SnowflakeConfig} {g g' : Snowflake} {readings rest : List ℤ} {id : ℤ}
    (more : List ℤ) (h : nextid c g readings = some (id, g', rest)) :
    nextid c g (readings ++ more) = some (id, g', rest ++ more) := by
  cases readings with
  | nil => cases h
  | cons timestamp readings =>
    simp only [List.cons_append, nextid] at h ⊢
    split_ifs at h ⊢ with hsame hzero
    · obtain ⟨r, hwait, hr⟩ := Option.map_eq_some_iff.mp h
      cases hr
      rw [waitNextMillis_append more hwait]
      rfl
    · cases h
      rfl
    · cases h
      rfl

/-- The readings `k, ..., k + m - 1` of a clock. -/
def readingsFrom (clock : ℕ → ℤ) (k m : ℕ) : List ℤ := (List.range' k m).map clock

theorem readingsFrom_add (clock : ℕ → ℤ) (k m m' : ℕ) :
    readingsFrom clock k (m + m') = readingsFrom clock k m ++ readingsFrom clock (k + m) m' := by
  rw [readingsFrom, ← List.range'_append_1, List.map_append]
  rfl

theorem waitNextMillis_returns {clock : ℕ → ℤ} {last : ℤ} (d : ℕ) :
    ∀ {k : ℕ}, last < clock (k + d) → ∃ m ts,
      waitNextMillis last (readingsFrom clock k m) = some (ts, []) := by
  induction d with
  | zero =>
    intro k h
    refine ⟨1, clock k, ?_⟩
    exact if_neg (Int.not_le.mpr h)
  | succ d ih =>
    intro k h
    by_cases hlast : clock k ≤ last
    · obtain ⟨m, ts, hwait⟩ := @ih (k + 1) (by rwa [Nat.add_right_comm])
      refine ⟨m + 1, ts, ?_⟩
      exact (if_pos hlast).trans hwait
    · exact ⟨1, clock k, if_neg hlast⟩

theorem nextid_returns (c : SnowflakeConfig) {clock : ℕ → ℤ}
    (hmono : ∀ i j, i ≤ j → clock i ≤ clock j) (hunbounded : ∀ t, ∃ k, t < clock k)
    (g : Snowflake) (k : ℕ) :
    ∃ m id g', nextid c g (readingsFrom clock k m) = some (id, g', []) := by
  by_cases hwait : g.lastTimestamp = clock k ∧ (g.sequence + 1) &&& sequenceMask = 0
  · obtain ⟨d, hd⟩ := hunbounded g.lastTimestamp
    obtain ⟨m, ts, hts⟩ := @waitNextMillis_returns clock g.lastTimestamp d (k + 1)
      (hd.trans_le (hmono d (k + 1 + d) (by omega)))
    refine ⟨m + 1, makeId c ts 0, ⟨ts, 0⟩, ?_⟩
    change nextid c g (clock k :: readingsFrom clock (k + 1) m) = _
    simp only [nextid, if_pos hwait.1, hwait.2, hts, if_true, Option.map_some]
  · refine ⟨1, ?_⟩
    change ∃ id g', nextid c g [clock k] = some (id, g', [])
    simp only [nextid]
    split_ifs with hsame hzero
    · exact absurd ⟨hsame, hzero⟩ hwait
    · exact ⟨_, _, rfl⟩
    · exact ⟨_, _, rfl⟩

theorem nextids_return (c : SnowflakeConfig) {clock : ℕ → ℤ}
    (hmono : ∀ i j, i ≤ j → clock i ≤ clock j) (hunbounded : ∀ t, ∃ k, t < clock k) (n : ℕ)
    (g : Snowflake) (k : ℕ) :
    ∃ m ids g', nextids c n g (readingsFrom clock k m) = some (ids, g', []) := by
  induction n generalizing g k with
  | zero => exact ⟨0, [], g, rfl⟩
  | succ n ih =>
    obtain ⟨m, id, g₁, hid⟩ := nextid_returns c hmono hunbounded g k
    obtain ⟨m', ids, g', hids⟩ := ih g₁ (k + m)
    refine ⟨m + m', id :: ids, g', ?_⟩
    rw [nextids, readingsFrom_add, nextid_append _ hid]
    change (nextids c n g₁ (readingsFrom clock (k + m) m')).map _ = _
    rw [hids]
    rfl

theorem readingsFrom_pairwise {clock : ℕ → ℤ} (hmono : ∀ i j, i ≤ j → clock i ≤ clock j) (k m : ℕ) :
    (readingsFrom clock k m).Pairwise (· ≤ ·) := by
  refine List.pairwise_map.mpr ((List.pairwise_lt_range' (s := k) (n := m)).imp ?_)
  intro a b hab
  exact hmono a b hab.le

theorem nextids_length {c : SnowflakeConfig} {n : ℕ} {g g' : Snowflake} {readings rest ids : List ℤ}
    (h : nextids c n g readings = some (ids, g', rest)) : ids.length = n := by
  induction n generalizing g readings ids with
  | zero =>
    cases h
    rfl
  | succ n ih =>
    obtain ⟨id, g₁, mid, ids', hid, hids, rfl⟩ := nextids_succ h
    rw [List.length_cons, ih hids]

/-- Calls of one generator, and of two that differ in datacenter or worker. The clock of the
first part exceeds every bound, so the 41 bits are asked of the readings that were made. -/
theorem snowflake_ids_unique (c : SnowflakeConfig) (hc : init c = .ok ()) :
    (∀ clock : ℕ → ℤ, (∀ i j, i ≤ j → clock i ≤ clock j) → (∀ t, ∃ k, t < clock k) →
      ∀ n, ∃ m ids g,
      nextids c n new (readingsFrom clock 0 m) = some (ids, g, []) ∧ ids.length = n ∧
      ((∀ k < m, 0 ≤ clock k - c.twepoch ∧ clock k - c.twepoch < 2 ^ 41) →
        ids.Pairwise (· < ·) ∧ ∀ id ∈ ids, 0 ≤ id)) ∧
    ∀ c' : SnowflakeConfig, init c' = .ok () →
      (c.datacenterId, c.workerId) ≠ (c'.datacenterId, c'.workerId) →
      ∀ n readings ids g rest n' readings' ids' g' rest',
        nextids c n new readings = some (ids, g, rest) →
        nextids c' n' new readings' = some (ids', g', rest') → ∀ id ∈ ids, id ∉ ids' := by
  refine ⟨fun clock hmono hunbounded n => ?_, fun c' hc' hne n readings ids g rest n' readings' ids'
    g' rest' h h' => nextids_disjoint hc hc' hne h h'⟩
  obtain ⟨m, ids, g, hids⟩ := nextids_return c hmono hunbounded n new 0
  refine ⟨m, ids, g, hids, nextids_length hids, fun hrange => ?_⟩
  have hsteady : Steady c (readingsFrom clock 0 m) := by
    refine ⟨readingsFrom_pairwise hmono 0 m, fun ts hts => ?_⟩
    obtain ⟨k, hk, rfl⟩ := List.mem_map.mp hts
    exact hrange k (by rw [List.mem_range'_1] at hk; omega)
  obtain ⟨hpairwise, hnonneg, -⟩ := nextids_ascending hc hsteady hids
  exact ⟨hpairwise, hnonneg⟩

theorem two_snowflakes_unique :
    (∃ m ids g, nextids ⟨0, 3, 5⟩ 4 new (readingsFrom (fun k => (k / 3 : ℕ)) 0 m) =
      some (ids, g, []) ∧ ids.length = 4 ∧
      ((∀ k < m, 0 ≤ ((k / 3 : ℕ) : ℤ) - 0 ∧ ((k / 3 : ℕ) : ℤ) - 0 < 2 ^ 41) →
        ids.Pairwise (· < ·) ∧ ∀ id ∈ ids, 0 ≤ id)) ∧
    nextids ⟨0, 3, 5⟩ 2 new [7, 7] = some ([30027776, 30027777], ⟨7, 1⟩, []) ∧
    nextids ⟨0, 4, 5⟩ 2 new [7, 7] = some ([30031872, 30031873], ⟨7, 1⟩, []) ∧
    ∀ id ∈ ([30027776, 30027777] : List ℤ), id ∉ ([30031872, 30031873] : List ℤ) := by
  have hmono : ∀ i j : ℕ, i ≤ j → ((i / 3 : ℕ) : ℤ) ≤ ((j / 3 : ℕ) : ℤ) :=
    fun _ _ h => Int.ofNat_le.mpr (Nat.div_le_div_right h)
  have hunbounded : ∀ t : ℤ, ∃ k : ℕ, t < ((k / 3 : ℕ) : ℤ) := fun t => ⟨3 * t.toNat + 3, by omega⟩
  have h := snowflake_ids_unique ⟨0, 3, 5⟩ rfl
  have hrun : nextids ⟨0, 3, 5⟩ 2 new [7, 7] = some ([30027776, 30027777], ⟨7, 1⟩, []) := by decide
  have hrun' : nextids ⟨0, 4, 5⟩ 2 new [7, 7] = some ([30031872, 30031873], ⟨7, 1⟩, []) := by decide
  refine ⟨h.1 _ hmono hunbounded 4, hrun, hrun', ?_⟩
  exact h.2 ⟨0, 4, 5⟩ rfl (by decide) 2 [7, 7] _ _ _ 2 [7, 7] _ _ _ hrun hrun'

end Snowflake
end MSylar.Tools
