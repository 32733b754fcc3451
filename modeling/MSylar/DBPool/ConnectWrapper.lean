import Mathlib.Data.List.Nodup
import MSylar.DBPool.Pool

/-!
# Ownership of a connection (database.tpp:7-56, database.hpp:96-120)

A `ConnectWrapper` owns the slot `m_conn_idx` and its destructor gives it back, with the timeout flag
of the wrapper. The copy constructor is the default one; the two moves take the index, the connection
and the pool, and leave `m_timeout` alone.
-/

namespace MSylar.DBPool
open MSylar.Calls MSylar.Execution
variable {κ : Type*}

/-- `pool` is whether `m_pool` is set. -/
structure ConnectWrapper (κ : Type*) where
  connector : Option κ
  pool : Bool
  connIdx : ℤ
  timeout : Bool

namespace ConnectWrapper

/-- What `borrowOneConn` returns: a slot and its connection, or nothing. -/
def new : Option (ℤ × κ) → ConnectWrapper κ
  | some (idx, c) => ⟨some c, true, idx, false⟩
  | none => ⟨none, false, -1, false⟩

/-- The fields that a move takes from `other`. -/
def take (w other : ConnectWrapper κ) : ConnectWrapper κ :=
  { w with connIdx := other.connIdx, connector := other.connector, pool := other.pool }

def moved (w : ConnectWrapper κ) : ConnectWrapper κ :=
  { w with connIdx := -1, connector := none, pool := false }

/-- The members have their default values before the move. -/
def moveConstruct (other : ConnectWrapper κ) : ConnectWrapper κ :=
  take ⟨none, false, -1, false⟩ other

/-- The call of `returnConn` in the destructor. -/
def destroy (w : ConnectWrapper κ) : List (ℤ × Bool) :=
  if w.connIdx < 0 then [] else [(w.connIdx, w.timeout)]

end ConnectWrapper

/-- The wrappers, each at its place until it is destroyed, the calls of `returnConn`, and for each
index the flag that was last set for it. -/
structure Handles (κ : Type*) where
  wrappers : List (Option (ConnectWrapper κ))
  returned : List (ℤ × Bool) := []
  lastSet : ℤ → Bool := fun _ => false
  borrowed : List ℤ

inductive HandleAction where
  | copy (j : ℕ)
  | moveConstruct (j : ℕ)
  | moveAssign (j k : ℕ)
  | setTimeout (j : ℕ) (timeout : Bool)
  | destroy (j : ℕ)

namespace Handles

def get? (s : Handles κ) (j : ℕ) : Option (ConnectWrapper κ) := s.wrappers[j]?.join

def step (s : Handles κ) : HandleAction → Option (Handles κ)
  | .copy j => (s.get? j).map fun w => { s with wrappers := s.wrappers ++ [some w] }
  | .moveConstruct j => (s.get? j).map fun w =>
    { s with wrappers := s.wrappers.set j (some w.moved) ++ [some w.moveConstruct] }
  | .moveAssign j k => (s.get? j).bind fun w => (s.get? k).map fun other =>
    { s with wrappers := (s.wrappers.set j (some (w.take other))).set k (some other.moved) }
  | .setTimeout j timeout => (s.get? j).map fun w =>
    { s with wrappers := s.wrappers.set j (some { w with timeout := timeout })
             lastSet := fun i => if i = w.connIdx then timeout else s.lastSet i }
  | .destroy j => (s.get? j).map fun w =>
    { s with wrappers := s.wrappers.set j none
             returned := s.returned ++ w.destroy }

def indices (lent : List (Option (ℤ × κ))) : List ℤ := lent.filterMap fun b => b.map Prod.fst

def start (lent : List (Option (ℤ × κ))) : Handles κ :=
  { wrappers := lent.map fun b => some (.new b), borrowed := indices lent }

/-- An index that is owned has not been returned. One that is not has been returned once, with the
flag last set for it. -/
structure Kept (s : Handles κ) : Prop where
  held : ∀ i ∈ s.borrowed, (∃ w, some w ∈ s.wrappers ∧ w.connIdx = i) → ∀ r ∈ s.returned, r.1 ≠ i
  released : ∀ i ∈ s.borrowed, (∀ w, some w ∈ s.wrappers → w.connIdx ≠ i) →
    s.returned.filter (fun r => r.1 = i) = [(i, s.lastSet i)]
  pool : ∀ w, some w ∈ s.wrappers → 0 ≤ w.connIdx → w.pool = true

/-- No copy of a wrapper that owns something; no move onto such a wrapper; and a move only where the
flag is the same on both sides. -/
def ownGuard (s : Handles κ) : HandleAction → Prop
  | .copy j => ∀ w ∈ s.get? j, w.connIdx < 0
  | .moveConstruct j => ∀ w ∈ s.get? j, w.connIdx < 0 ∨ w.timeout = false
  | .moveAssign j k => ∀ w ∈ s.get? j, ∀ other ∈ s.get? k,
    w.connIdx < 0 ∧ (other.connIdx < 0 ∨ other.timeout = w.timeout)
  | _ => True

instance (s : Handles κ) : DecidablePred (ownGuard s)
  | .copy j => inferInstanceAs (Decidable (∀ w ∈ s.get? j, w.connIdx < 0))
  | .moveConstruct j =>
    inferInstanceAs (Decidable (∀ w ∈ s.get? j, w.connIdx < 0 ∨ w.timeout = false))
  | .moveAssign j k => inferInstanceAs (Decidable (∀ w ∈ s.get? j, ∀ other ∈ s.get? k,
      w.connIdx < 0 ∧ (other.connIdx < 0 ∨ other.timeout = w.timeout)))
  | .setTimeout _ _ => isTrue trivial
  | .destroy _ => isTrue trivial

/-! ### The invariant -/

def owns (i : ℤ) (o : Option (ConnectWrapper κ)) : ℕ := if o.any (fun w => w.connIdx = i) then 1 else 0

def owners (s : Handles κ) (i : ℤ) : ℕ := (s.wrappers.map (owns i)).sum

def returns (s : Handles κ) (i : ℤ) : ℕ := (s.returned.filter fun r => r.1 = i).length

structure Inv (s : Handles κ) : Prop where
  nodup : s.borrowed.Nodup
  nonneg : ∀ i ∈ s.borrowed, 0 ≤ i
  once : ∀ i, 0 ≤ i → s.owners i + s.returns i = s.borrowed.count i
  flag : ∀ w, some w ∈ s.wrappers → 0 ≤ w.connIdx → w.timeout = s.lastSet w.connIdx
  log : ∀ r ∈ s.returned, 0 ≤ r.1 ∧ r.2 = s.lastSet r.1
  pool : ∀ w, some w ∈ s.wrappers → 0 ≤ w.connIdx → w.pool = true

@[simp] theorem owns_none (i : ℤ) : owns i (none : Option (ConnectWrapper κ)) = 0 := rfl

@[simp] theorem owns_some (i : ℤ) (w : ConnectWrapper κ) :
    owns i (some w) = if w.connIdx = i then 1 else 0 := by
  simp [owns]

theorem get?_eq_some {s : Handles κ} {j : ℕ} {w : ConnectWrapper κ} (h : s.get? j = some w) :
    s.wrappers[j]? = some (some w) := by
  unfold get? at h
  cases ho : s.wrappers[j]? with
  | none =>
    rw [ho] at h
    cases h
  | some o =>
    rw [ho] at h
    exact congrArg some h

theorem owners_pos {s : Handles κ} {w : ConnectWrapper κ} (h : some w ∈ s.wrappers) :
    0 < s.owners w.connIdx := by
  obtain ⟨j, hj⟩ := List.getElem?_of_mem h
  have hle := le_sum (f := owns w.connIdx) hj
  rw [owns_some, if_pos rfl] at hle
  exact hle

theorem owner_of_pos {s : Handles κ} {i : ℤ} (h : 0 < s.owners i) :
    ∃ w, some w ∈ s.wrappers ∧ w.connIdx = i := by
  obtain ⟨j, o, hj, hpos⟩ := exists_of_sum_pos h
  cases o with
  | none => cases hpos
  | some w =>
    rw [owns_some] at hpos
    split_ifs at hpos with hw
    · exact ⟨w, List.mem_of_getElem? hj, hw⟩
    · cases hpos

theorem Inv.kept {s : Handles κ} (h : s.Inv) : s.Kept := by
  have hcount : ∀ i ∈ s.borrowed, s.owners i + s.returns i = 1 := by
    intro i hi
    rw [h.once i (h.nonneg i hi), List.count_eq_one_of_mem h.nodup hi]
  refine ⟨fun i hi ⟨w, hw, hwi⟩ r hr hri => ?_, fun i hi hnone => ?_, h.pool⟩
  · have hone := hcount i hi
    have howned := owners_pos hw
    have hpos : 0 < s.returns i := List.length_pos_of_mem (List.mem_filter.mpr ⟨hr, by simpa using hri⟩)
    rw [hwi] at howned
    omega
  · have hzero : s.owners i = 0 := by
      by_contra hne
      obtain ⟨w, hw, hwi⟩ := owner_of_pos (Nat.pos_of_ne_zero hne)
      exact hnone w hw hwi
    have hone := hcount i hi
    rw [hzero, Nat.zero_add] at hone
    obtain ⟨r, hr⟩ := List.length_eq_one_iff.mp hone
    obtain ⟨hmem, hri⟩ := List.mem_filter.mp (hr ▸ List.mem_singleton.mpr rfl)
    have hfst : r.1 = i := by simpa using hri
    rw [hr, ← hfst, ← (h.log r hmem).2]

/-! ### One step -/

theorem Inv.sole {s : Handles κ} (h : s.Inv) {w : ConnectWrapper κ} (hw : some w ∈ s.wrappers)
    (hidx : 0 ≤ w.connIdx) :
    w.connIdx ∈ s.borrowed ∧ s.owners w.connIdx = 1 ∧ s.returns w.connIdx = 0 := by
  have hpos := owners_pos hw
  have honce := h.once _ hidx
  have hle := List.nodup_iff_count_le_one.mp h.nodup w.connIdx
  refine ⟨List.count_pos_iff.mp (by omega), by omega, by omega⟩

/-- Wrappers that change hands. -/
theorem Inv.handOver {s : Handles κ} {l : List (Option (ConnectWrapper κ))} (h : s.Inv)
    (howners : ∀ i, 0 ≤ i → (l.map (owns i)).sum = s.owners i)
    (hall : ∀ w, some w ∈ l → 0 ≤ w.connIdx → w.timeout = s.lastSet w.connIdx ∧ w.pool = true) :
    Inv { s with wrappers := l } := by
  refine ⟨h.nodup, h.nonneg, fun i hi => ?_, fun w hw hidx => (hall w hw hidx).1, h.log,
    fun w hw hidx => (hall w hw hidx).2⟩
  rw [← h.once i hi, ← howners i hi]
  rfl

theorem moved_neg (w : ConnectWrapper κ) : w.moved.connIdx < 0 := by
  change (-1 : ℤ) < 0
  decide

theorem owns_eq_zero {i : ℤ} {w : ConnectWrapper κ} (hi : 0 ≤ i) (hw : w.connIdx < 0) :
    owns i (some w) = 0 := by
  rw [owns_some, if_neg (by omega)]

theorem owners_moveConstruct {s : Handles κ} {j : ℕ} {w : ConnectWrapper κ} {i : ℤ}
    (hw : s.get? j = some w) (hi : 0 ≤ i) :
    ((s.wrappers.set j (some w.moved) ++ [some w.moveConstruct]).map (owns i)).sum = s.owners i := by
  have hsum := sum_set (owns i) (get?_eq_some hw) (some w.moved)
  have hmoved : owns i (some w.moved) = 0 := owns_eq_zero hi (moved_neg w)
  have hnew : owns i (some w.moveConstruct) = owns i (some w) := by
    rw [owns_some, owns_some]
    rfl
  rw [sum_enter, hnew, owners]
  omega

/-- The target loses what it owned, also where it is its own source. -/
theorem owners_moveAssign {s : Handles κ} {j k : ℕ} {w other : ConnectWrapper κ} {i : ℤ}
    (hw : s.get? j = some w) (hother : s.get? k = some other) (hi : 0 ≤ i) :
    (((s.wrappers.set j (some (w.take other))).set k (some other.moved)).map (owns i)).sum +
      owns i (some w) = s.owners i := by
  have hj := get?_eq_some hw
  have hmoved : owns i (some other.moved) = 0 := owns_eq_zero hi (moved_neg other)
  by_cases hjk : j = k
  · subst hjk
    have hsum := sum_set (owns i) hj (some other.moved)
    rw [List.set_set, owners]
    omega
  · have hfirst := sum_set (owns i) hj (some (w.take other))
    have htake : owns i (some (w.take other)) = owns i (some other) := by
      rw [owns_some, owns_some]
      rfl
    have hthere : (s.wrappers.set j (some (w.take other)))[k]? = some (some other) := by
      rw [List.getElem?_set_ne hjk, get?_eq_some hother]
    have hsecond := sum_set (owns i) hthere (some other.moved)
    rw [owners]
    omega

theorem Inv.moveConstruct {s : Handles κ} (h : s.Inv) {j : ℕ} {w : ConnectWrapper κ}
    (hw : s.get? j = some w) (hflag : w.connIdx < 0 ∨ w.timeout = false) :
    Inv { s with wrappers := s.wrappers.set j (some w.moved) ++ [some w.moveConstruct] } := by
  have hmem := List.mem_of_getElem? (get?_eq_some hw)
  refine h.handOver (fun i hi => owners_moveConstruct hw hi) fun v hv hidx => ?_
  rcases List.mem_append.mp hv with hv | hv
  · rcases List.mem_or_eq_of_mem_set hv with hv | hv
    · exact ⟨h.flag v hv hidx, h.pool v hv hidx⟩
    · cases hv
      exact absurd (moved_neg w) (Int.not_lt.mpr hidx)
  · cases List.mem_singleton.mp hv
    have hflag' : w.timeout = false := hflag.resolve_left (Int.not_lt.mpr hidx)
    exact ⟨hflag'.symm.trans (h.flag w hmem hidx), h.pool w hmem hidx⟩

theorem Inv.moveAssign {s : Handles κ} (h : s.Inv) {j k : ℕ} {w other : ConnectWrapper κ}
    (hw : s.get? j = some w) (hother : s.get? k = some other) (hempty : w.connIdx < 0)
    (hflag : other.connIdx < 0 ∨ other.timeout = w.timeout) :
    Inv { s with
      wrappers := (s.wrappers.set j (some (w.take other))).set k (some other.moved) } := by
  have hmem := List.mem_of_getElem? (get?_eq_some hother)
  refine h.handOver (fun i hi => ?_) fun v hv hidx => ?_
  · have hsum := owners_moveAssign hw hother hi
    rwa [owns_eq_zero hi hempty, Nat.add_zero] at hsum
  · rcases List.mem_or_eq_of_mem_set hv with hv | hv
    · rcases List.mem_or_eq_of_mem_set hv with hv | hv
      · exact ⟨h.flag v hv hidx, h.pool v hv hidx⟩
      · cases hv
        have hflag' : other.timeout = w.timeout := hflag.resolve_left (Int.not_lt.mpr hidx)
        exact ⟨hflag'.symm.trans (h.flag other hmem hidx), h.pool other hmem hidx⟩
    · cases hv
      exact absurd (moved_neg other) (Int.not_lt.mpr hidx)

theorem Inv.setTimeout {s : Handles κ} (h : s.Inv) {j : ℕ} {w : ConnectWrapper κ} {timeout : Bool}
    (hw : s.get? j = some w) :
    Inv { s with wrappers := s.wrappers.set j (some { w with timeout := timeout })
                 lastSet := fun i => if i = w.connIdx then timeout else s.lastSet i } := by
  have hj := get?_eq_some hw
  have hmem := List.mem_of_getElem? hj
  have hothers : ∀ v, some v ∈ s.wrappers.set j (some { w with timeout := timeout }) →
      0 ≤ v.connIdx → v = { w with timeout := timeout } ∨
        (some v ∈ s.wrappers ∧ v.connIdx ≠ w.connIdx) := by
    intro v hv hidx
    by_cases hsame : v.connIdx = w.connIdx
    · -- the index has one owner
      have hone := (h.sole hmem (hsame ▸ hidx)).2.1
      have hsum : (s.wrappers.map (owns w.connIdx)).sum = owns w.connIdx (some w) := by
        rw [owns_some, if_pos rfl]
        exact hone
      rcases others_zero hj hsum _ _ hv with heq | hzero
      · exact .inl (Option.some.inj heq)
      · rw [owns_some, if_pos hsame] at hzero
        cases hzero
    · rcases List.mem_or_eq_of_mem_set hv with hv | hv
      · exact .inr ⟨hv, hsame⟩
      · cases hv
        exact absurd rfl hsame
  refine ⟨h.nodup, h.nonneg, fun i hi => ?_, fun v hv hidx => ?_, fun r hr => ?_, fun v hv hidx => ?_⟩
  · rw [← h.once i hi]
    have hsum := sum_set (owns i) hj (some { w with timeout := timeout })
    rw [owns_some, owns_some] at hsum
    simp only [owners, returns] at hsum ⊢
    omega
  · rcases hothers v hv hidx with rfl | ⟨hold, hne⟩
    · simp only [if_true]
    · simp only [hne, if_false]
      exact h.flag v hold hidx
  · obtain ⟨hnonneg, hset⟩ := h.log r hr
    -- what has been returned has no owner
    have hne : r.1 ≠ w.connIdx := by
      intro heq
      have hnone := (h.sole hmem (heq ▸ hnonneg)).2.2
      have hpos : 0 < s.returns w.connIdx :=
        List.length_pos_of_mem (List.mem_filter.mpr ⟨hr, by simpa using heq⟩)
      omega
    simp only [hne, if_false]
    exact ⟨hnonneg, hset⟩
  · rcases hothers v hv hidx with rfl | ⟨hold, -⟩
    · exact h.pool w hmem hidx
    · exact h.pool v hold hidx

theorem Inv.destroy {s : Handles κ} (h : s.Inv) {j : ℕ} {w : ConnectWrapper κ}
    (hw : s.get? j = some w) :
    Inv { s with wrappers := s.wrappers.set j none, returned := s.returned ++ w.destroy } := by
  have hj := get?_eq_some hw
  have hmem := List.mem_of_getElem? hj
  refine ⟨h.nodup, h.nonneg, fun i hi => ?_, fun v hv hidx => ?_, fun r hr => ?_, fun v hv hidx => ?_⟩
  · have hsum := sum_set (owns i) hj none
    have hnew : (w.destroy.filter fun r => r.1 = i).length = owns i (some w) := by
      unfold ConnectWrapper.destroy
      split_ifs with hneg
      · rw [owns_eq_zero hi hneg]
        rfl
      · rw [owns_some, List.filter_singleton]
        split_ifs <;> simp_all
    rw [owns_none] at hsum
    rw [← h.once i hi]
    simp only [owners, returns, List.filter_append, List.length_append, hnew] at hsum ⊢
    omega
  · exact h.flag v ((List.mem_or_eq_of_mem_set hv).resolve_right nofun) hidx
  · rcases List.mem_append.mp hr with hr | hr
    · exact h.log r hr
    · unfold ConnectWrapper.destroy at hr
      split_ifs at hr with hneg
      · cases hr
      · cases List.mem_singleton.mp hr
        exact ⟨Int.not_lt.mp hneg, h.flag w hmem (Int.not_lt.mp hneg)⟩
  · exact h.pool v ((List.mem_or_eq_of_mem_set hv).resolve_right nofun) hidx

theorem step_inv {s t : Handles κ} {a : HandleAction} (h : s.Inv) (hg : ownGuard s a)
    (hs : step s a = some t) : t.Inv := by
  cases a with
  | copy j =>
    obtain ⟨w, hw, rfl⟩ := Option.map_eq_some_iff.mp hs
    have hneg := hg w hw
    refine h.handOver (fun i hi => ?_) fun v hv hidx => ?_
    · rw [sum_enter, owns_eq_zero hi hneg, Nat.add_zero, owners]
    · rcases List.mem_append.mp hv with hv | hv
      · exact ⟨h.flag v hv hidx, h.pool v hv hidx⟩
      · cases List.mem_singleton.mp hv
        omega
  | moveConstruct j =>
    obtain ⟨w, hw, rfl⟩ := Option.map_eq_some_iff.mp hs
    exact h.moveConstruct hw (hg w hw)
  | moveAssign j k =>
    obtain ⟨w, hw, hs⟩ := Option.bind_eq_some_iff.mp hs
    obtain ⟨other, hother, rfl⟩ := Option.map_eq_some_iff.mp hs
    obtain ⟨hempty, hflag⟩ := hg w hw other hother
    exact h.moveAssign hw hother hempty hflag
  | setTimeout j timeout =>
    obtain ⟨w, hw, rfl⟩ := Option.map_eq_some_iff.mp hs
    exact h.setTimeout hw
  | destroy j =>
    obtain ⟨w, hw, rfl⟩ := Option.map_eq_some_iff.mp hs
    exact h.destroy hw

/-! ### What goes wrong otherwise -/

theorem not_owned {s : Handles κ} {i : ℤ} (h : s.owners i = 0) :
    ∀ w, some w ∈ s.wrappers → w.connIdx ≠ i := by
  rintro w hw rfl
  have hpos := owners_pos hw
  omega

theorem not_kept_of_lost {s : Handles κ} {i : ℤ} (hi : i ∈ s.borrowed) (hnone : s.owners i = 0)
    (hreturns : s.returns i = 0) : ¬ s.Kept := by
  intro hkept
  have hreleased := hkept.released i hi (not_owned hnone)
  rw [returns, hreleased] at hreturns
  cases hreturns

theorem not_kept_of_flag {s : Handles κ} {i : ℤ} {f : Bool} (hi : i ∈ s.borrowed)
    (hnone : s.owners i = 0) (hr : (i, f) ∈ s.returned) (hf : f ≠ s.lastSet i) : ¬ s.Kept := by
  intro hkept
  have hreleased := hkept.released i hi (not_owned hnone)
  have hmem : (i, f) ∈ s.returned.filter fun r => r.1 = i := List.mem_filter.mpr ⟨hr, by simp⟩
  rw [hreleased] at hmem
  exact hf (Prod.mk.inj (List.mem_singleton.mp hmem)).2

def destroyed (s : Handles κ) (j : ℕ) (w : ConnectWrapper κ) : Handles κ :=
  { s with wrappers := s.wrappers.set j none, returned := s.returned ++ w.destroy }

theorem exec_destroy {s : Handles κ} {j : ℕ} {w : ConnectWrapper κ} (h : s.wrappers[j]? = some (some w)) :
    exec step s ([j].map .destroy) = some (s.destroyed j w) := by
  simp only [List.map_cons, List.map_nil, exec, step, get?, h, Option.join_some, Option.map_some,
    Option.bind_some, destroyed]

theorem destroy_owner {w : ConnectWrapper κ} (h : 0 ≤ w.connIdx) :
    w.destroy = [(w.connIdx, w.timeout)] := if_neg (Int.not_lt.mpr h)

/-- Destroying the only owner, whose flag is not the one last set. -/
theorem destroyed_not_kept {s : Handles κ} {j : ℕ} {w : ConnectWrapper κ}
    (hj : s.wrappers[j]? = some (some w)) (hidx : 0 ≤ w.connIdx) (hi : w.connIdx ∈ s.borrowed)
    (hone : s.owners w.connIdx = 1) (hf : w.timeout ≠ s.lastSet w.connIdx) :
    ¬ (s.destroyed j w).Kept := by
  refine @not_kept_of_flag _ _ w.connIdx w.timeout hi ?_ ?_ hf
  · have hsum := sum_set (owns w.connIdx) hj none
    rw [owns_none, owns_some, if_pos rfl] at hsum
    simp only [owners, destroyed] at hone ⊢
    omega
  · rw [destroyed, destroy_owner hidx]
    exact List.mem_append_right _ (List.mem_singleton.mpr rfl)

theorem Inv.copy_breaks {s : Handles κ} (h : s.Inv) {j : ℕ} {w : ConnectWrapper κ}
    (hw : s.get? j = some w) (hidx : 0 ≤ w.connIdx) :
    ∃ u, exec step { s with wrappers := s.wrappers ++ [some w] } ([j].map .destroy) = some u ∧
      ¬ u.Kept := by
  have hj := get?_eq_some hw
  have hlt := (List.getElem?_eq_some_iff.mp hj).1
  have hthere : (s.wrappers ++ [some w])[j]? = some (some w) := by
    rw [List.getElem?_append_left hlt, hj]
  refine ⟨_, exec_destroy hthere, fun hkept => ?_⟩
  -- the copy is still there
  have hmem : some w ∈ (s.wrappers ++ [some w]).set j none := by
    rw [List.set_append_left _ _ hlt]
    exact List.mem_append_right _ (List.mem_singleton.mpr rfl)
  have hin := (h.sole (List.mem_of_getElem? hj) hidx).1
  refine hkept.held w.connIdx hin ⟨w, hmem, rfl⟩ (w.connIdx, w.timeout) ?_ rfl
  rw [destroyed, destroy_owner hidx]
  exact List.mem_append_right _ (List.mem_singleton.mpr rfl)

theorem Inv.moveConstruct_breaks {s : Handles κ} (h : s.Inv) {j : ℕ} {w : ConnectWrapper κ}
    (hw : s.get? j = some w) (hidx : 0 ≤ w.connIdx) (hlate : w.timeout = true) :
    ∃ u, exec step { s with wrappers := s.wrappers.set j (some w.moved) ++ [some w.moveConstruct] }
      ([s.wrappers.length].map .destroy) = some u ∧ ¬ u.Kept := by
  have hmem := List.mem_of_getElem? (get?_eq_some hw)
  obtain ⟨hin, hone, -⟩ := h.sole hmem hidx
  have hlast : (s.wrappers.set j (some w.moved) ++ [some w.moveConstruct])[s.wrappers.length]? =
      some (some w.moveConstruct) := by
    rw [← List.length_set (a := some w.moved) (i := j), List.getElem?_concat_length]
  refine ⟨_, exec_destroy hlast, destroyed_not_kept hlast hidx hin ?_ ?_⟩
  · exact (owners_moveConstruct hw hidx).trans hone
  · change false ≠ s.lastSet w.connIdx
    rw [← h.flag w hmem hidx, hlate]
    exact Bool.false_ne_true

theorem Inv.moveAssign_breaks {s : Handles κ} (h : s.Inv) {j k : ℕ} {w other : ConnectWrapper κ}
    (hw : s.get? j = some w) (hother : s.get? k = some other) (hempty : w.connIdx < 0)
    (hidx : 0 ≤ other.connIdx) (hflags : other.timeout ≠ w.timeout) :
    ∃ u, exec step { s with
        wrappers := (s.wrappers.set j (some (w.take other))).set k (some other.moved) }
      ([j].map .destroy) = some u ∧ ¬ u.Kept := by
  have hj := get?_eq_some hw
  have hmem := List.mem_of_getElem? (get?_eq_some hother)
  obtain ⟨hin, hone, -⟩ := h.sole hmem hidx
  have hjk : j ≠ k := by
    rintro rfl
    rw [hw] at hother
    cases hother
    omega
  have hthere : ((s.wrappers.set j (some (w.take other))).set k (some other.moved))[j]? =
      some (some (w.take other)) := by
    rw [List.getElem?_set_ne (Ne.symm hjk),
      List.getElem?_set_self (List.getElem?_eq_some_iff.mp hj).1]
  refine ⟨_, exec_destroy hthere, destroyed_not_kept hthere hidx hin ?_ ?_⟩
  · have hsum := owners_moveAssign hw hother hidx
    rw [owns_eq_zero hidx hempty, Nat.add_zero] at hsum
    exact hsum.trans hone
  · change w.timeout ≠ s.lastSet other.connIdx
    rw [← h.flag other hmem hidx]
    exact Ne.symm hflags

/-- What the target owned is gone. -/
theorem Inv.overwrite_breaks {s : Handles κ} (h : s.Inv) {j k : ℕ} {w other : ConnectWrapper κ}
    (hw : s.get? j = some w) (hother : s.get? k = some other) (hidx : 0 ≤ w.connIdx) :
    ¬ Kept { s with
      wrappers := (s.wrappers.set j (some (w.take other))).set k (some other.moved) } := by
  obtain ⟨hin, hone, hnone⟩ := h.sole (List.mem_of_getElem? (get?_eq_some hw)) hidx
  refine @not_kept_of_lost _ _ w.connIdx hin ?_ hnone
  have hsum := owners_moveAssign hw hother hidx
  rw [owns_some, if_pos rfl, hone] at hsum
  simp only [owners]
  omega

/-- A step against the guard shows once some wrapper is destroyed. -/
theorem step_breaks {s t : Handles κ} {a : HandleAction} (h : s.Inv) (hg : ¬ ownGuard s a)
    (hs : step s a = some t) : ∃ (js : List ℕ) (u : Handles κ),
      exec step t (js.map .destroy) = some u ∧ ¬ u.Kept := by
  cases a with
  | copy j =>
    obtain ⟨w, hw, rfl⟩ := Option.map_eq_some_iff.mp hs
    simp only [ownGuard, hw, Option.mem_def, Option.some.injEq, forall_eq'] at hg
    exact ⟨[j], h.copy_breaks hw (Int.not_lt.mp hg)⟩
  | moveConstruct j =>
    obtain ⟨w, hw, rfl⟩ := Option.map_eq_some_iff.mp hs
    simp only [ownGuard, hw, Option.mem_def, Option.some.injEq, forall_eq', not_or] at hg
    exact ⟨[s.wrappers.length],
      h.moveConstruct_breaks hw (Int.not_lt.mp hg.1) (by simpa using hg.2)⟩
  | moveAssign j k =>
    obtain ⟨w, hw, hs⟩ := Option.bind_eq_some_iff.mp hs
    obtain ⟨other, hother, rfl⟩ := Option.map_eq_some_iff.mp hs
    simp only [ownGuard, hw, hother, Option.mem_def, Option.some.injEq, forall_eq'] at hg
    by_cases hempty : w.connIdx < 0
    · simp only [hempty, true_and, not_or] at hg
      exact ⟨[j], h.moveAssign_breaks hw hother hempty (Int.not_lt.mp hg.1) hg.2⟩
    · exact ⟨[], _, rfl, h.overwrite_breaks hw hother (Int.not_lt.mp hempty)⟩
  | setTimeout j timeout => exact absurd trivial hg
  | destroy j => exact absurd trivial hg

theorem new_none_neg : (ConnectWrapper.new (none : Option (ℤ × κ))).connIdx < 0 := by
  change (-1 : ℤ) < 0
  decide

theorem owners_start (lent : List (Option (ℤ × κ))) {i : ℤ} (hi : 0 ≤ i) :
    (start lent).owners i = (indices lent).count i := by
  rw [owners, start, List.map_map]
  induction lent with
  | nil => rfl
  | cons b lent ih =>
    rw [List.map_cons, List.sum_cons, ih, Function.comp_apply]
    cases b with
    | none =>
      rw [owns_eq_zero hi new_none_neg, Nat.zero_add]
      rfl
    | some b =>
      change owns i (some (.new (some b))) + _ = (b.1 :: indices lent).count i
      rw [owns_some, List.count_cons, Nat.add_comm]
      simp only [beq_iff_eq]
      rfl

theorem start_inv {lent : List (Option (ℤ × κ))} (hnodup : (indices lent).Nodup)
    (hnonneg : ∀ i ∈ indices lent, 0 ≤ i) : (start lent).Inv := by
  have hnew : ∀ w, some w ∈ (start lent).wrappers → ∃ b ∈ lent, w = .new b := by
    intro w hw
    obtain ⟨b, hb, heq⟩ := List.mem_map.mp hw
    exact ⟨b, hb, (Option.some.inj heq).symm⟩
  refine ⟨hnodup, hnonneg, fun i hi => owners_start lent hi, fun w hw hidx => ?_,
    fun r hr => absurd hr List.not_mem_nil, fun w hw hidx => ?_⟩
  · obtain ⟨b, -, rfl⟩ := hnew w hw
    cases b <;> rfl
  · obtain ⟨b, -, rfl⟩ := hnew w hw
    cases b with
    | none => exact absurd new_none_neg (Int.not_lt.mpr hidx)
    | some b => rfl

/-- In a run that meets the guard every index is owned once or has been returned once. A step from
there keeps to that, whatever is destroyed afterwards, only if it meets the guard. -/
theorem wrapper_owns_once_iff (lent : List (Option (ℤ × κ))) (hnodup : (indices lent).Nodup)
    (hnonneg : ∀ i ∈ indices lent, 0 ≤ i) (as : List HandleAction) (s : Handles κ)
    (hg : Guarded step ownGuard (start lent) as) (hrun : exec step (start lent) as = some s) :
    s.Kept ∧ ∀ a t, step s a = some t →
      ((∀ (js : List ℕ) (u : Handles κ), exec step t (js.map .destroy) = some u → u.Kept) ↔
        ownGuard s a) := by
  have hinv : s.Inv := exec_guarded (fun _ _ _ hi hga hs => step_inv hi hga hs)
    (start_inv hnodup hnonneg) hg hrun
  refine ⟨hinv.kept, fun a t hs => ⟨fun hall => ?_, fun hga js u hu => ?_⟩⟩
  · by_contra hbreak
    obtain ⟨js, u, hu, hnot⟩ := step_breaks hinv hbreak hs
    exact hnot (hall js u hu)
  · have hdestroys : Guarded step ownGuard t (js.map .destroy) := by
      refine guarded_of_forall (fun b hb r => ?_) t
      obtain ⟨j, -, rfl⟩ := List.mem_map.mp hb
      trivial
    have hfinal : u.Inv := exec_guarded (fun _ _ _ hi hgb hs => step_inv hi hgb hs)
      (step_inv hinv hga hs) hdestroys hu
    exact hfinal.kept

/-- Two lent connections and an empty wrapper. -/
def lentPair : List (Option (ℤ × ℕ)) := [some (0, 10), none, some (1, 11)]

def moveBoth : List HandleAction :=
  [.moveConstruct 0, .setTimeout 3 true, .moveAssign 1 2, .destroy 3, .destroy 0, .destroy 1, .destroy 2]

theorem move_both_returned :
    ∃ s, exec step (start lentPair) moveBoth = some s ∧ s.returned = [(0, true), (1, false)] ∧
      s.Kept := by
  refine ⟨_, rfl, rfl, ?_⟩
  exact (wrapper_owns_once_iff lentPair (by decide) (by decide) moveBoth _ (by decide) rfl).1

/-- A copy returns its index twice; a move onto another wrapper, or onto itself, loses one; a move
loses the flag. -/
theorem wrapper_returns_wrongly :
    (∃ s, exec step (start lentPair) [.copy 0, .destroy 0, .destroy 3] = some s ∧
      s.returned = [(0, false), (0, false)] ∧ ¬ s.Kept) ∧
    (∃ s, exec step (start lentPair) [.moveAssign 0 2, .destroy 0, .destroy 2] = some s ∧
      s.returned = [(1, false)] ∧ ¬ s.Kept) ∧
    (∃ s, exec step (start lentPair) [.moveAssign 0 0, .destroy 0] = some s ∧
      s.returned = [] ∧ ¬ s.Kept) ∧
    ∃ s, exec step (start lentPair) [.setTimeout 0 true, .moveConstruct 0, .destroy 3] = some s ∧
      s.returned = [(0, false)] ∧ ¬ s.Kept := by
  have hin : (0 : ℤ) ∈ indices lentPair := by decide
  refine ⟨⟨_, rfl, rfl, fun hkept => ?_⟩, ⟨_, rfl, rfl, not_kept_of_lost hin rfl rfl⟩,
    ⟨_, rfl, rfl, not_kept_of_lost hin rfl rfl⟩, ⟨_, rfl, rfl, ?_⟩⟩
  · have hreleased := hkept.released 0 hin (not_owned rfl)
    exact absurd (congrArg List.length hreleased) (by decide)
  · exact @not_kept_of_flag _ _ 0 false hin rfl (by decide) (by decide)

end Handles

end MSylar.DBPool
