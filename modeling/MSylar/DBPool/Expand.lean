import Mathlib.Data.Int.Interval
import Mathlib.Data.List.Nodup
import Mathlib.Data.List.Perm.Basic
import MSylar.DBPool.Pool

/-!
# expand with connections that fail (database.tpp:227-265)

The loop pushes a slot on the free list before it looks at the result of `connect`, and a failure
returns before the state is updated. `connect i` is whether slot `i` can be connected.
-/

namespace MSylar.DBPool
open MSylar.Calls MSylar.Execution
variable {κ : Type*}

namespace Pool

/-- `expand` by one thread; `none` stands for the failed assertion on the number of slots. -/
def expand (connect : ℤ → Bool) (p : Pool κ) : Option (ℤ × Pool κ) :=
  if p.maxConnector = p.connectorCount then
    if p.connectorCount = p.connectors.length then some (0, p) else none
  else some (p.expandLocked connect)

/-- The slots that `expand` calls `connect` for. -/
def tried (connect : ℤ → Bool) (p : Pool κ) : List ℤ :=
  if p.maxConnector = p.connectorCount then []
  else (connectFrom connect p.connectorCount p.increase.toNat).1

def gained (connect : ℤ → Bool) (p : Pool κ) : List ℤ := (p.tried connect).filter connect

/-- READY iff there is a free connection. -/
def Flagged (p : Pool κ) : Prop := p.state = .ready ↔ p.freeConnInfos ≠ []

/-- All slots to be added can be connected, and their number is not negative as an `int`. -/
def Grows (connect : ℤ → Bool) (p : Pool κ) : Prop :=
  p.maxConnector = p.connectorCount ∨ 0 ≤ toInt32 p.increaseNum ∧
    ∀ i, p.connectorCount ≤ i → i < p.connectorCount + p.increase → connect i = true

/-- Where nothing is added, the flag is right already, or `expand` sets it rightly to READY. -/
def FlagHolds (p : Pool κ) : Prop :=
  p.maxConnector = p.connectorCount ∨ toInt32 p.increaseNum = 0 →
    if p.maxConnector ≠ p.connectorCount ∧ p.busyConnCount < p.connectorCount then
      p.freeConnInfos ≠ []
    else p.Flagged

end Pool

/-- The free and the lent indices are distinct and below the count. -/
structure Sane (p : Pool κ) (held : List ℤ) : Prop where
  running : p.checkRunState = true
  nodup : (p.freeConnInfos ++ held).Nodup
  range : ∀ i ∈ p.freeConnInfos ++ held, 0 ≤ i ∧ i < p.connectorCount
  busy : p.busyConnCount = held.length
  nonneg : 0 ≤ p.connectorCount
  bound : p.connectorCount ≤ p.maxConnector
  slots : p.connectors.length = p.maxConnector

/-! ### The loop -/

theorem Pool.connectFrom_all {connect : ℤ → Bool} {i : ℤ} {n : ℕ}
    (h : ∀ j, i ≤ j → j < i + n → connect j = true) :
    (Pool.connectFrom connect i n).2 = true := by
  induction n generalizing i with
  | zero => rfl
  | succ n ih =>
    simp only [Pool.connectFrom, h i (by omega) (by omega), if_true]
    exact ih fun j hlow hhigh => h j (by omega) (by omega)

theorem Pool.connectFrom_range {connect : ℤ → Bool} {i : ℤ} {n : ℕ} :
    ∀ j ∈ (Pool.connectFrom connect i n).1, i ≤ j ∧ j < i + n := by
  induction n generalizing i with
  | zero => intro j hj; cases hj
  | succ n ih =>
    intro j hj
    simp only [Pool.connectFrom] at hj
    split at hj
    · rcases List.mem_cons.mp hj with rfl | hj
      · omega
      · have := ih j hj
        omega
    · cases List.mem_singleton.mp hj
      omega

/-- The loop has succeeded iff everything it pushed is connected. -/
theorem Pool.connectFrom_succeeds {connect : ℤ → Bool} {i : ℤ} {n : ℕ} :
    (Pool.connectFrom connect i n).2 = true ↔
      ∀ j ∈ (Pool.connectFrom connect i n).1, connect j = true := by
  induction n generalizing i with
  | zero => simp [Pool.connectFrom]
  | succ n ih =>
    cases hi : connect i with
    | true => simp [Pool.connectFrom, hi, ih]
    | false => simp [Pool.connectFrom, hi]

theorem Pool.connectFrom_nodup {connect : ℤ → Bool} {i : ℤ} {n : ℕ} :
    (Pool.connectFrom connect i n).1.Nodup := by
  induction n generalizing i with
  | zero => exact List.nodup_nil
  | succ n ih =>
    simp only [Pool.connectFrom]
    split
    · refine List.nodup_cons.mpr ⟨fun hmem => ?_, ih⟩
      have := Pool.connectFrom_range i hmem
      omega
    · exact List.nodup_singleton i

theorem Pool.increase_le {p : Pool κ} : p.increase ≤ p.maxConnector - p.connectorCount := by
  unfold Pool.increase
  dsimp only
  split <;> omega

theorem Pool.increase_cases {p : Pool κ} (h : p.connectorCount < p.maxConnector) :
    (p.increase < 0 ↔ Pool.toInt32 p.increaseNum < 0) ∧
      (p.increase = 0 ↔ Pool.toInt32 p.increaseNum = 0) := by
  unfold Pool.increase
  dsimp only
  split <;> omega

/-! ### One call -/

theorem Sane.busy_le {p : Pool κ} {held : List ℤ} (h : Sane p held) :
    (p.freeConnInfos ++ held).length ≤ p.connectorCount := by
  have hsub : (p.freeConnInfos ++ held).toFinset ⊆ Finset.Ico 0 p.connectorCount := by
    intro i hi
    exact Finset.mem_Ico.mpr (h.range i (List.mem_toFinset.mp hi))
  have hcard := Finset.card_le_card hsub
  rw [List.toFinset_card_of_nodup h.nodup, Int.card_Ico, Int.sub_zero] at hcard
  have hnonneg := h.nonneg
  omega

/-- What `expand` is to do: the slots that were connected, and no others, become free, and the pool is
consistent again. -/
def ExpandsWell (connect : ℤ → Bool) (p : Pool κ) (held : List ℤ) : Prop :=
  ∃ rc p', p.expand connect = some (rc, p') ∧
    p'.freeConnInfos.Perm (p.freeConnInfos ++ p.gained connect) ∧
    p'.connectorCount = p.connectorCount + (p.gained connect).length ∧
    p'.Flagged ∧ Sane p' held

theorem Sane.expand_at_max {p : Pool κ} {held : List ℤ} (h : Sane p held) (connect : ℤ → Bool)
    (hmax : p.maxConnector = p.connectorCount) :
    p.expand connect = some (0, p) ∧ p.gained connect = [] := by
  have hslots := h.slots
  simp only [Pool.expand, Pool.gained, Pool.tried, if_pos hmax, List.filter_nil, and_true]
  rw [if_pos (by omega)]

/-- The pool with new indices from the count on. -/
theorem Sane.grown {p : Pool κ} {held new : List ℤ} {n : ℤ} (h : Sane p held) (hn : 0 ≤ n)
    (hle : n ≤ p.maxConnector - p.connectorCount) (hnodup : new.Nodup)
    (hnew : ∀ i, i ∈ new ↔ p.connectorCount ≤ i ∧ i < p.connectorCount + n) :
    Sane (p.grow new (p.connectorCount + n)) held := by
  have hnonneg := h.nonneg
  constructor
  · simp only [Pool.grow, Pool.checkRunState]
    split_ifs
    · rfl
    · exact h.running
  · -- the new indices are not below the old count, the others are
    change (p.freeConnInfos ++ new ++ held).Nodup
    have hperm : (p.freeConnInfos ++ new ++ held).Perm (new ++ (p.freeConnInfos ++ held)) := by
      rw [List.append_assoc]
      exact List.perm_append_comm_assoc _ _ _
    refine hperm.nodup_iff.mpr (List.nodup_append.mpr ⟨hnodup, h.nodup, ?_⟩)
    intro i hi j hj heq
    have hold := h.range j hj
    have hnew' := (hnew i).mp hi
    omega
  · intro i hi
    change i ∈ p.freeConnInfos ++ new ++ held at hi
    change 0 ≤ i ∧ i < p.connectorCount + n
    simp only [List.mem_append] at hi
    rcases hi with (hi | hi) | hi
    · have := h.range i (List.mem_append_left _ hi)
      omega
    · have := (hnew i).mp hi
      omega
    · have := h.range i (List.mem_append_right _ hi)
      omega
  · exact h.busy
  · change 0 ≤ p.connectorCount + n
    omega
  · change p.connectorCount + n ≤ p.maxConnector
    omega
  · exact h.slots

/-- A pool whose new connections all succeed. -/
theorem Sane.grow {p : Pool κ} {held : List ℤ} (h : Sane p held) {connect : ℤ → Bool}
    (hmax : p.maxConnector ≠ p.connectorCount) (hgrows : p.Grows connect) :
    ∃ p', p.expand connect = some (0, p') ∧
      p'.freeConnInfos = p.freeConnInfos ++ p.gained connect ∧
      p'.connectorCount = p.connectorCount + p.increase ∧ p'.busyConnCount = p.busyConnCount ∧
      (p.gained connect).length = p.increase.toNat ∧ 0 ≤ p.increase ∧
      p.tried connect = p.gained connect ∧
      (∀ i, i ∈ p.gained connect ↔ p.connectorCount ≤ i ∧ i < p.connectorCount + p.increase) ∧
      p'.state = (if p.busyConnCount < p.connectorCount + p.increase then .ready else p.state) ∧
      Sane p' held := by
  obtain ⟨hnum, hall⟩ := hgrows.resolve_left hmax
  have hbound := h.bound
  have hlt : p.connectorCount < p.maxConnector := by omega
  have hinc : 0 ≤ p.increase := by
    have hneg := (Pool.increase_cases hlt).1
    omega
  have hle := p.increase_le
  have hok : (Pool.connectFrom connect p.connectorCount p.increase.toNat).2 = true :=
    Pool.connectFrom_all fun j hlow hhigh => hall j hlow (by omega)
  obtain ⟨hlen, hcount⟩ := Pool.connectFrom_spec (Prod.ext rfl hok)
  have hgained : p.gained connect = (Pool.connectFrom connect p.connectorCount p.increase.toNat).1 := by
    rw [Pool.gained, Pool.tried, if_neg hmax]
    exact List.filter_eq_self.mpr (Pool.connectFrom_succeeds.mp hok)
  have hnew : ∀ i, i ∈ p.gained connect ↔
      p.connectorCount ≤ i ∧ i < p.connectorCount + p.increase := by
    intro i
    rw [hgained, ← List.count_pos_iff, hcount i]
    split_ifs <;> omega
  refine ⟨p.grow (p.gained connect) (p.connectorCount + p.increase), ?_, rfl, rfl, rfl,
    by rw [hgained, hlen], hinc, ?_, hnew, rfl, ?_⟩
  · rw [Pool.expand, if_neg hmax, Pool.expandLocked, hok, if_pos rfl, hgained]
  · rw [hgained, Pool.tried, if_neg hmax]
  · refine h.grown hinc hle ?_ hnew
    rw [hgained]
    exact Pool.connectFrom_nodup

/-- A negative number of slots, or a slot that cannot be connected. -/
theorem Sane.expand_fails {p : Pool κ} {held : List ℤ} (h : Sane p held) {connect : ℤ → Bool}
    (hgrows : ¬ p.Grows connect) : ¬ ExpandsWell connect p held := by
  rintro ⟨rc, p', hexpand, hfree, hcount, -, -⟩
  unfold Pool.Grows at hgrows
  push Not at hgrows
  obtain ⟨hmax, hbad⟩ := hgrows
  have hbound := h.bound
  have hlt : p.connectorCount < p.maxConnector := by omega
  have hgained : p.gained connect =
      (Pool.connectFrom connect p.connectorCount p.increase.toNat).1.filter connect := by
    rw [Pool.gained, Pool.tried, if_neg hmax]
  rw [Pool.expand, if_neg hmax, Pool.expandLocked, Option.some.injEq] at hexpand
  cases hok : (Pool.connectFrom connect p.connectorCount p.increase.toNat).2 with
  | true =>
    -- nothing was tried, and the count shrinks
    rw [hok, if_pos rfl] at hexpand
    cases hexpand
    change p.connectorCount + p.increase = _ at hcount
    by_cases hneg : p.increase < 0
    · omega
    · have hnum : 0 ≤ Pool.toInt32 p.increaseNum := by
        have := (Pool.increase_cases hlt).1
        omega
      obtain ⟨i, hlow, hhigh, hi⟩ := hbad hnum
      obtain ⟨hlen, hmem⟩ := Pool.connectFrom_spec (Prod.ext rfl hok)
      have hin : i ∈ (Pool.connectFrom connect p.connectorCount p.increase.toNat).1 := by
        refine List.count_pos_iff.mp ?_
        rw [hmem i, if_pos (by omega)]
        exact Nat.one_pos
      exact hi (Pool.connectFrom_succeeds.mp hok i hin)
  | false =>
    rw [hok, if_neg Bool.false_ne_true] at hexpand
    cases hexpand
    have hlen := hfree.length_eq
    rw [List.length_append, List.length_append, hgained] at hlen
    have hall : ∀ j ∈ (Pool.connectFrom connect p.connectorCount p.increase.toNat).1,
        connect j = true := by
      refine List.length_filter_eq_length_iff.mp ?_
      omega
    rw [Pool.connectFrom_succeeds.mpr hall] at hok
    cases hok

theorem Sane.expandsWell_iff {p : Pool κ} {held : List ℤ} (h : Sane p held) (connect : ℤ → Bool) :
    ExpandsWell connect p held ↔ p.Grows connect ∧ p.FlagHolds := by
  by_cases hgrows : p.Grows connect
  · rw [and_iff_right hgrows]
    by_cases hmax : p.maxConnector = p.connectorCount
    · obtain ⟨hexpand, hgained⟩ := h.expand_at_max connect hmax
      have hflag : p.FlagHolds ↔ p.Flagged := by
        simp only [Pool.FlagHolds, hmax, true_or, true_implies, ne_eq, not_true_eq_false, false_and,
          if_false]
      rw [hflag]
      constructor
      · rintro ⟨rc, p', hp', -, -, hflagged, -⟩
        rw [hexpand] at hp'
        cases hp'
        exact hflagged
      · intro hflagged
        refine ⟨0, p, hexpand, ?_, ?_, hflagged, h⟩
        · rw [hgained, List.append_nil]
        · rw [hgained]
          exact (Int.add_zero _).symm
    · obtain ⟨p', hexpand, hfree, hcount, hbusy, hlen, hinc, -, -, hstate, hsane⟩ := h.grow hmax hgrows
      have hwell : ExpandsWell connect p held ↔ p'.Flagged := by
        constructor
        · rintro ⟨rc, q, hq, -, -, hflagged, -⟩
          rw [hexpand] at hq
          cases hq
          exact hflagged
        · intro hflagged
          refine ⟨0, p', hexpand, ?_, by omega, hflagged, hsane⟩
          rw [hfree]
      have hbound := h.bound
      have hzero := (Pool.increase_cases (by omega : p.connectorCount < p.maxConnector)).2
      rw [hwell, Pool.FlagHolds, Pool.Flagged, hstate, hfree]
      simp only [hmax, false_or, ne_eq, not_false_eq_true, true_and]
      by_cases hnone : p.increase = 0
      · have hnil : p.gained connect = [] := List.length_eq_zero_iff.mp (by omega)
        rw [hnil, List.append_nil, hnone, Int.add_zero]
        simp only [hzero.mp hnone, true_implies]
        split_ifs
        · simp
        · rfl
      · have hle := h.busy_le
        have hheld := h.busy
        rw [List.length_append] at hle
        have hne : p.gained connect ≠ [] := by
          intro hnil
          rw [hnil] at hlen
          change 0 = _ at hlen
          omega
        rw [if_pos (by omega)]
        simp only [true_iff, List.append_eq_nil_iff, not_and]
        exact ⟨fun _ hz => absurd (hzero.mpr hz) hnone, fun _ _ => hne⟩
  · exact iff_of_false (h.expand_fails hgrows) fun hboth => hgrows hboth.1

/-! ### Runs -/

/-- The pool, the lent indices, the slots whose last `connect` succeeded, and whether an assertion
has failed. -/
structure Borrowing (κ : Type*) where
  pool : Pool κ
  held : List ℤ
  connected : List ℤ
  failed : Bool

inductive Use where
  | borrow
  | giveBack (j : ℕ)
  | expand (connect : ℤ → Bool)

def Borrowing.step (s : Borrowing κ) : Use → Option (Borrowing κ)
  | .borrow =>
    match s.pool.borrowOneConn with
    | some (w, p) => some { s with pool := p, held := s.held ++ w.holds }
    | none => some { s with failed := true }
  | .giveBack j => s.held[j]?.map fun i =>
    { s with pool := (s.pool.returnConn i false none).2, held := s.held.eraseIdx j }
  | .expand connect =>
    match s.pool.expand connect with
    | some (_, p) => some { s with pool := p, connected := s.connected ++ s.pool.gained connect }
    | none => some { s with failed := true }

/-- Every `expand` can connect all slots it is to add. -/
def growGuard (s : Borrowing κ) : Use → Prop
  | .expand connect => s.pool.Grows connect
  | _ => True

structure Borrowing.Inv (s : Borrowing κ) : Prop where
  sane : Sane s.pool s.held
  connected : ∀ i ∈ s.pool.freeConnInfos ++ s.held, i ∈ s.connected
  safe : s.failed = false

theorem holds_empty : Pool.Wrapper.holds (.empty : Pool.Wrapper κ) = [] := by
  rw [Pool.Wrapper.holds, if_neg (by simp [Pool.Wrapper.empty])]

theorem Sane.borrow_cases {p : Pool κ} {held : List ℤ} (h : Sane p held) :
    p.borrowOneConn = some (.empty, p) ∨
      ∃ idx rest, p.state = .ready ∧ p.freeConnInfos = idx :: rest ∧ 0 ≤ idx ∧
        p.borrowOneConn = some (⟨idx, p.connectors[idx.toNat]?, false⟩, p.lend rest) := by
  rcases Pool.running_cases h.running with hready | hfull
  · cases hfree : p.freeConnInfos with
    | nil => exact .inl (Pool.borrow_nothing (.inr ⟨hready, hfree⟩))
    | cons idx rest =>
      have hrange := h.range idx (by rw [hfree]; exact List.mem_cons_self)
      exact .inr ⟨idx, rest, hready, rfl, hrange.1, Pool.borrow_front hready hfree hrange⟩
  · exact .inl (Pool.borrow_nothing (.inl hfull))

theorem lend_perm {p : Pool κ} {held rest : List ℤ} {idx : ℤ} (hfree : p.freeConnInfos = idx :: rest) :
    ((p.lend rest).freeConnInfos ++ (held ++ [idx])).Perm (p.freeConnInfos ++ held) := by
  rw [hfree]
  change (rest ++ (held ++ [idx])).Perm (idx :: rest ++ held)
  rw [← List.append_assoc]
  exact List.perm_append_comm

theorem Sane.lend {p : Pool κ} {held rest : List ℤ} {idx : ℤ} (h : Sane p held)
    (hready : p.state = .ready) (hfree : p.freeConnInfos = idx :: rest) :
    Sane (p.lend rest) (held ++ [idx]) := by
  have hperm := @lend_perm _ p held rest idx hfree
  refine ⟨?_, hperm.nodup_iff.mpr h.nodup, ?_, ?_, h.nonneg, h.bound, h.slots⟩
  · simp only [Pool.lend, Pool.checkRunState, hready]
    split_ifs <;> rfl
  · exact fun i hi => h.range i (hperm.mem_iff.mp hi)
  · have hbusy := h.busy
    simp only [Pool.lend, List.length_append, List.length_singleton]
    omega

theorem Sane.borrow {p : Pool κ} {held : List ℤ} (h : Sane p held) :
    ∃ w p', p.borrowOneConn = some (w, p') ∧ Sane p' (held ++ w.holds) ∧
      (p'.freeConnInfos ++ (held ++ w.holds)).Perm (p.freeConnInfos ++ held) := by
  rcases h.borrow_cases with hempty | ⟨idx, rest, hready, hfree, hnonneg, hlend⟩
  · refine ⟨_, _, hempty, ?_⟩
    rw [holds_empty, List.append_nil]
    exact ⟨h, .refl _⟩
  · refine ⟨_, _, hlend, ?_⟩
    rw [Pool.Wrapper.holds, if_pos hnonneg]
    exact ⟨h.lend hready hfree, lend_perm hfree⟩

theorem Sane.giveBack {p : Pool κ} {a b : List ℤ} {idx : ℤ} (h : Sane p (a ++ idx :: b)) :
    Sane (p.giveBack idx) (a ++ b) ∧
      ((p.giveBack idx).freeConnInfos ++ (a ++ b)).Perm (p.freeConnInfos ++ (a ++ idx :: b)) := by
  have hperm : (p.freeConnInfos ++ [idx] ++ (a ++ b)).Perm (p.freeConnInfos ++ (a ++ idx :: b)) := by
    rw [List.append_assoc, List.singleton_append]
    exact List.Perm.append_left _ List.perm_middle.symm
  refine ⟨⟨?_, ?_, ?_, ?_, h.nonneg, h.bound, h.slots⟩, hperm⟩
  · have hrunning := h.running
    simp only [Pool.giveBack, Pool.checkRunState] at hrunning ⊢
    split_ifs
    · rfl
    · exact hrunning
  · exact hperm.nodup_iff.mpr h.nodup
  · exact fun i hi => h.range i (hperm.mem_iff.mp hi)
  · have hbusy := h.busy
    simp only [Pool.giveBack, List.length_append, List.length_cons] at hbusy ⊢
    omega

theorem Sane.returns {p : Pool κ} {held : List ℤ} (h : Sane p held) {idx : ℤ} (hmem : idx ∈ held) :
    p.returnConn idx false none = (0, p.giveBack idx) := by
  have hrange := h.range idx (List.mem_append_right _ hmem)
  have hbound := h.bound
  have hneg : ¬ idx < 0 := by omega
  have hmax : ¬ p.maxConnector ≤ idx := by omega
  simp [Pool.returnConn, h.running, hneg, hmax]

theorem Sane.destroys {p : Pool κ} {held : List ℤ} (h : Sane p held) {w : Pool.Wrapper κ}
    {fresh : Option κ} (hmark : w.timeout = false) (hmem : w.connIdx ∈ held) :
    p.destroyWrapper w fresh = p.giveBack w.connIdx := by
  have hrange := h.range w.connIdx (List.mem_append_right _ hmem)
  have hbound := h.bound
  have hneg : ¬ w.connIdx < 0 := by omega
  have hmax : ¬ p.maxConnector ≤ w.connIdx := by omega
  simp [Pool.destroyWrapper, Pool.returnConn, h.running, hmark, hneg, hmax]

theorem Borrowing.step_inv {s s' : Borrowing κ} {a : Use} (h : s.Inv) (hg : growGuard s a)
    (hs : s.step a = some s') : s'.Inv := by
  cases a with
  | borrow =>
    obtain ⟨w, p, hborrow, hsane, hperm⟩ := h.sane.borrow
    simp only [Borrowing.step, hborrow, Option.some.injEq] at hs
    subst hs
    exact ⟨hsane, fun i hi => h.connected i (hperm.mem_iff.mp hi), h.safe⟩
  | giveBack j =>
    obtain ⟨idx, hidx, rfl⟩ := Option.map_eq_some_iff.mp hs
    have hreturn := h.sane.returns (List.mem_of_getElem? hidx)
    obtain ⟨a, b, hheld, herase⟩ := erase_split hidx
    have hsane := h.sane
    have hconnected := h.connected
    rw [hheld] at hsane hconnected
    obtain ⟨hback, hperm⟩ := hsane.giveBack
    refine ⟨?_, ?_, h.safe⟩
    · rw [herase, hreturn]
      exact hback
    · dsimp only
      rw [herase, hreturn]
      exact fun i hi => hconnected i (hperm.mem_iff.mp hi)
  | expand connect =>
    by_cases hmax : s.pool.maxConnector = s.pool.connectorCount
    · obtain ⟨hexpand, hgained⟩ := h.sane.expand_at_max connect hmax
      simp only [Borrowing.step, hexpand, hgained, List.append_nil, Option.some.injEq] at hs
      subst hs
      exact h
    · obtain ⟨p', hexpand, hfree, -, -, -, -, -, -, -, hsane⟩ := h.sane.grow hmax hg
      simp only [Borrowing.step, hexpand, Option.some.injEq] at hs
      subst hs
      refine ⟨hsane, fun i hi => ?_, h.safe⟩
      dsimp only at hi ⊢
      rw [hfree] at hi
      simp only [List.mem_append] at hi ⊢
      rcases hi with (hi | hi) | hi
      · exact .inl (h.connected i (List.mem_append_left _ hi))
      · exact .inr hi
      · exact .inl (h.connected i (List.mem_append_right _ hi))

/-- One `expand` of a pool whose invariant holds, and runs in which it is retried. -/
theorem expand_keeps_pool_iff (p : Pool κ) (held : List ℤ) (h : Sane p held) :
    (∀ connect, ExpandsWell connect p held ↔ p.Grows connect ∧ p.FlagHolds) ∧
    ∀ (as : List Use) (s : Borrowing κ),
      Guarded Borrowing.step growGuard ⟨p, held, p.freeConnInfos ++ held, false⟩ as →
      exec Borrowing.step ⟨p, held, p.freeConnInfos ++ held, false⟩ as = some s →
      s.failed = false ∧ Sane s.pool s.held ∧ ∀ i ∈ s.held, i ∈ s.connected := by
  refine ⟨h.expandsWell_iff, fun as s hg hs => ?_⟩
  have hstart : Borrowing.Inv ⟨p, held, p.freeConnInfos ++ held, false⟩ :=
    ⟨h, fun _ hi => hi, rfl⟩
  have hinv := exec_guarded (fun _ _ _ hi hga hst => Borrowing.step_inv hi hga hst) hstart hg hs
  exact ⟨hinv.safe, hinv.sane, fun i hi => hinv.connected i (List.mem_append_right _ hi)⟩

/-- One of three slots is connected and lent. -/
def oneOfThree : Pool ℕ := ⟨[], [0, 1, 2], 1, 1, 1, 3, .full, 2⟩

theorem one_of_three_grows :
    ExpandsWell (fun _ => true) oneOfThree [0] ∧
    ∃ s, exec Borrowing.step ⟨oneOfThree, [0], [0], false⟩ [.expand fun _ => true, .borrow] = some s ∧
      s.held = [0, 1] ∧ s.failed = false ∧ Sane s.pool s.held ∧ ∀ i ∈ s.held, i ∈ s.connected := by
  have hsane : Sane oneOfThree [0] := by
    refine ⟨rfl, by decide, by decide, rfl, by decide, by decide, rfl⟩
  obtain ⟨hexpand, hruns⟩ := expand_keeps_pool_iff oneOfThree [0] hsane
  refine ⟨(hexpand _).mpr ⟨.inr ⟨by decide, fun _ _ _ => rfl⟩, ?_⟩, _, rfl, rfl,
    hruns [.expand fun _ => true, .borrow] _ ?_ rfl⟩
  · rintro (hmax | hnum)
    · exact absurd hmax (by decide)
    · exact absurd hnum (by decide)
  · refine ⟨.inr ⟨by decide, fun _ _ _ => rfl⟩, fun _ _ => ⟨trivial, fun _ _ => trivial⟩⟩

/-- Slot 1 cannot be connected: it is on the free list all the same, and after the only connection
has been returned the next borrow fails its assertion. -/
theorem failed_expand_lends_out_of_range :
    ¬ ExpandsWell (fun _ => false) oneOfThree [0] ∧
    ∃ s, exec Borrowing.step ⟨oneOfThree, [0], [0], false⟩
        [.expand fun _ => false, .giveBack 0, .borrow] = some s ∧
      s.pool.freeConnInfos = [1, 0] ∧ s.connected = [0] ∧ s.failed = true := by
  refine ⟨?_, _, rfl, rfl, rfl, rfl⟩
  rintro ⟨rc, p', hp', hfree, -, -, -⟩
  cases hp'
  exact absurd hfree.length_eq (by decide)

end MSylar.DBPool
