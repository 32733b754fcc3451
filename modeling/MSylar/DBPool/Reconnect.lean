import MSylar.DBPool.Expand

/-!
# Returning a connection that timed out (database.tpp:188-222)

`returnConn` replaces the connection of a slot whose query timed out. If the new one cannot be
connected, the index is not given back, and both counts go down by one. `expand` later connects the
slots from the count on.
-/

namespace MSylar.DBPool
open MSylar.Calls MSylar.Execution
variable {κ : Type*}

/-- `broken` are the slots whose last `connect` failed; `clashed` is set when `expand` connects a
slot that a wrapper holds. -/
structure Mending (κ : Type*) where
  pool : Pool κ
  held : List ℤ
  broken : List ℤ
  clashed : Bool
  failed : Bool

def Mending.start (p : Pool κ) : Mending κ := ⟨p, [], [], false, false⟩

inductive Turn (κ : Type*) where
  | borrow
  | giveBack (j : ℕ)
  | timeOut (j : ℕ) (fresh : Option κ)
  | expand (connect : ℤ → Bool)

/-- The slots that are broken after a call of `connect` for each of `tried`. -/
def breaks (connect : ℤ → Bool) (broken tried : List ℤ) : List ℤ :=
  broken.filter (fun i => i ∉ tried) ++ tried.filter fun i => !connect i

def Mending.step (s : Mending κ) : Turn κ → Option (Mending κ)
  | .borrow =>
    match s.pool.borrowOneConn with
    | some (w, p) => some { s with pool := p, held := s.held ++ w.holds }
    | none => some { s with failed := true }
  | .giveBack j => s.held[j]?.map fun i =>
    { s with pool := (s.pool.returnConn i false none).2, held := s.held.eraseIdx j }
  | .timeOut j fresh => s.held[j]?.map fun i =>
    { s with pool := (s.pool.returnConn i true fresh).2, held := s.held.eraseIdx j
             broken := breaks (fun _ => fresh.isSome) s.broken [i] }
  | .expand connect =>
    match s.pool.expand connect with
    | some (_, p) =>
      let tried := s.pool.tried connect
      some { s with pool := p, broken := breaks connect s.broken tried
                    clashed := s.clashed || tried.any fun i => i ∈ s.held }
    | none => some { s with failed := true }

/-- A reconnect fails for the last index only, and every `expand` can connect its slots. -/
def mendGuard (s : Mending κ) : Turn κ → Prop
  | .timeOut j none => ∀ i ∈ s.held[j]?, i = s.pool.connectorCount - 1
  | .expand connect => s.pool.Grows connect
  | _ => True

/-- What is to hold in every state. -/
structure Mending.Kept (s : Mending κ) : Prop where
  below : ∀ i ∈ s.pool.freeConnInfos ++ s.held, i < s.pool.connectorCount
  unavailable : ∀ i ∈ s.broken, i ∉ s.pool.freeConnInfos ++ s.held
  untouched : s.clashed = false
  busy : s.pool.busyConnCount = s.held.length
  full : s.pool.state = .full → s.pool.freeConnInfos = []
  safe : s.failed = false

/-! ### The invariant -/

/-- Every index below the count is free or lent, and FULL says that none is free. -/
structure Whole (p : Pool κ) (held : List ℤ) : Prop extends Sane p held where
  covers : ∀ i, 0 ≤ i → i < p.connectorCount → i ∈ p.freeConnInfos ++ held
  full : p.state = .full → p.freeConnInfos = []

theorem Whole.length_eq {p : Pool κ} {held : List ℤ} (h : Whole p held) :
    p.connectorCount = (p.freeConnInfos ++ held).length := by
  have hsub : Finset.Ico 0 p.connectorCount ⊆ (p.freeConnInfos ++ held).toFinset := by
    intro i hi
    obtain ⟨hlow, hhigh⟩ := Finset.mem_Ico.mp hi
    exact List.mem_toFinset.mpr (h.covers i hlow hhigh)
  have hcard := Finset.card_le_card hsub
  rw [List.toFinset_card_of_nodup h.nodup, Int.card_Ico, Int.sub_zero] at hcard
  have hle := h.busy_le
  have hnonneg := h.nonneg
  omega

theorem Whole.perm {p : Pool κ} {l l' : List ℤ} (h : Whole p l) (hp : l.Perm l') : Whole p l' := by
  have hperm := hp.append_left p.freeConnInfos
  refine ⟨⟨h.running, hperm.nodup_iff.mp h.nodup, fun i hi => h.range i (hperm.mem_iff.mpr hi), ?_,
    h.nonneg, h.bound, h.slots⟩, fun i hlow hhigh => hperm.mem_iff.mp (h.covers i hlow hhigh), h.full⟩
  rw [← hp.length_eq]
  exact h.busy

/-- Indices that are passed on between the free list and the wrappers. -/
theorem Whole.moved {p p' : Pool κ} {held held' : List ℤ} (h : Whole p held) (hsane : Sane p' held')
    (hcount : p'.connectorCount = p.connectorCount)
    (hperm : (p'.freeConnInfos ++ held').Perm (p.freeConnInfos ++ held))
    (hfull : p'.state = .full → p'.freeConnInfos = []) : Whole p' held' := by
  refine ⟨hsane, fun i hlow hhigh => ?_, hfull⟩
  rw [hcount] at hhigh
  exact hperm.mem_iff.mpr (h.covers i hlow hhigh)

theorem Whole.borrow {p : Pool κ} {held : List ℤ} (h : Whole p held) :
    ∃ w p', p.borrowOneConn = some (w, p') ∧ Whole p' (held ++ w.holds) ∧
      (p'.freeConnInfos ++ (held ++ w.holds)).Perm (p.freeConnInfos ++ held) := by
  rcases h.borrow_cases with hempty | ⟨idx, rest, hready, hfree, hnonneg, hlend⟩
  · refine ⟨_, _, hempty, ?_⟩
    rw [holds_empty, List.append_nil]
    exact ⟨h, .refl _⟩
  · refine ⟨_, _, hlend, ?_⟩
    rw [Pool.Wrapper.holds, if_pos hnonneg]
    refine ⟨h.moved (h.lend hready hfree) rfl (lend_perm hfree) fun hfull => ?_, lend_perm hfree⟩
    -- the last free index is lent when the lent ones are all there are
    have hlen := h.length_eq
    have hbusy := h.busy
    rw [hfree, List.length_append, List.length_cons] at hlen
    simp only [Pool.lend] at hfull ⊢
    split_ifs at hfull with hall
    · exact List.length_eq_zero_iff.mp (by omega)
    · rw [hready] at hfull
      cases hfull

/-- A pool with a free connection lends it. -/
theorem Whole.lends {p : Pool κ} {held rest : List ℤ} {idx : ℤ} (h : Whole p held)
    (hfree : p.freeConnInfos = idx :: rest) :
    0 ≤ idx ∧ p.borrowOneConn = some (⟨idx, p.connectors[idx.toNat]?, false⟩, p.lend rest) := by
  have hready : p.state = .ready := by
    refine (Pool.running_cases h.running).resolve_right fun hfull => ?_
    rw [h.full hfull] at hfree
    cases hfree
  have hrange := h.range idx (by rw [hfree]; exact List.mem_cons_self)
  exact ⟨hrange.1, Pool.borrow_front hready hfree hrange⟩

theorem Whole.giveBack {p : Pool κ} {a b : List ℤ} {idx : ℤ} (h : Whole p (a ++ idx :: b)) :
    Whole (p.giveBack idx) (a ++ b) ∧
      ((p.giveBack idx).freeConnInfos ++ (a ++ b)).Perm (p.freeConnInfos ++ (a ++ idx :: b)) := by
  obtain ⟨hsane, hperm⟩ := h.toSane.giveBack
  refine ⟨h.moved hsane rfl hperm fun hfull => ?_, hperm⟩
  simp only [Pool.giveBack] at hfull
  split_ifs at hfull with hwas
  exact absurd hfull hwas

theorem Whole.grow {p : Pool κ} {held : List ℤ} (h : Whole p held) {connect : ℤ → Bool}
    (hmax : p.maxConnector ≠ p.connectorCount) (hgrows : p.Grows connect) :
    ∃ p', p.expand connect = some (0, p') ∧ Whole p' held ∧
      p'.freeConnInfos = p.freeConnInfos ++ p.gained connect ∧
      p.tried connect = p.gained connect ∧ ∀ i ∈ p.gained connect, i ∉ p.freeConnInfos ++ held := by
  obtain ⟨p', hexpand, hfree, hcount, hbusy, hlen, hinc, htried, hnew, hstate, hsane⟩ :=
    h.toSane.grow hmax hgrows
  refine ⟨p', hexpand, ⟨hsane, ?_, ?_⟩, hfree, htried, ?_⟩
  · intro i hlow hhigh
    rw [hcount] at hhigh
    rw [hfree]
    by_cases hold : i < p.connectorCount
    · rcases List.mem_append.mp (h.covers i hlow hold) with hmem | hmem
      · exact List.mem_append_left _ (List.mem_append_left _ hmem)
      · exact List.mem_append_right _ hmem
    · exact List.mem_append_left _ (List.mem_append_right _ ((hnew i).mpr ⟨by omega, hhigh⟩))
  · intro hfull
    have hle := h.busy_le
    have hheld := h.busy
    rw [List.length_append] at hle
    rw [hstate] at hfull
    split_ifs at hfull with hlt
    have hnone : p.gained connect = [] := List.length_eq_zero_iff.mp (by omega)
    rw [hfree, hnone, List.append_nil]
    exact h.full hfull
  · intro i hi hmem
    have hold := (h.range i hmem).2
    have := (hnew i).mp hi
    omega

/-- The pool after a reconnect that failed. -/
def Pool.shrunk (p : Pool κ) : Pool κ :=
  { p with connectorCount := p.connectorCount - 1, busyConnCount := p.busyConnCount - 1 }

theorem Sane.reconnects {p : Pool κ} {held : List ℤ} (h : Sane p held) {idx : ℤ}
    (hmem : idx ∈ held) : (p.returnConn idx true none).2 = p.shrunk ∧
      ∀ c, (p.returnConn idx true (some c)).2 =
        { p with connectors := p.connectors.set idx.toNat c }.giveBack idx := by
  have hrange := h.range idx (List.mem_append_right _ hmem)
  have hbound := h.bound
  have hneg : ¬ idx < 0 := by omega
  have hmax : ¬ p.maxConnector ≤ idx := by omega
  simp [Pool.returnConn, h.running, hneg, hmax, Pool.shrunk]

theorem taken_perm (free a b : List ℤ) (idx : ℤ) :
    (free ++ (a ++ idx :: b)).Perm (idx :: (free ++ (a ++ b))) :=
  (List.Perm.append_left _ List.perm_middle).trans List.perm_middle

/-- Only the last index can be dropped by a smaller count. -/
theorem Whole.shrunk_below_iff {p : Pool κ} {a b : List ℤ} {idx : ℤ} (h : Whole p (a ++ idx :: b)) :
    (∀ i ∈ p.shrunk.freeConnInfos ++ (a ++ b), i < p.shrunk.connectorCount) ↔
      idx = p.connectorCount - 1 := by
  have hperm := taken_perm p.freeConnInfos a b idx
  have hrange := h.range idx (hperm.mem_iff.mpr List.mem_cons_self)
  have hnodup := (hperm.nodup_iff.mp h.nodup)
  constructor
  · intro hbelow
    by_contra hne
    have hlast := hperm.mem_iff.mp (h.covers (p.connectorCount - 1) (by omega) (by omega))
    have hmem := (List.mem_cons.mp hlast).resolve_left fun heq => hne heq.symm
    have := hbelow _ hmem
    change p.connectorCount - 1 < p.connectorCount - 1 at this
    omega
  · intro hlast i hi
    have hne : i ≠ idx := fun heq => (List.nodup_cons.mp hnodup).1 (heq ▸ hi)
    have hold := h.range i (hperm.mem_iff.mpr (List.mem_cons_of_mem _ hi))
    change i < p.connectorCount - 1
    omega

theorem Whole.shrunk {p : Pool κ} {a b : List ℤ} {idx : ℤ} (h : Whole p (a ++ idx :: b))
    (hlast : idx = p.connectorCount - 1) :
    Whole p.shrunk (a ++ b) ∧ idx ∉ p.shrunk.freeConnInfos ++ (a ++ b) := by
  have hperm := taken_perm p.freeConnInfos a b idx
  have hrange := h.range idx (hperm.mem_iff.mpr List.mem_cons_self)
  obtain ⟨hnot, hnodup⟩ := List.nodup_cons.mp (hperm.nodup_iff.mp h.nodup)
  have hbelow := h.shrunk_below_iff.mpr hlast
  have hbound := h.bound
  have hbusy := h.busy
  refine ⟨⟨⟨h.running, hnodup, ?_, ?_, ?_, ?_, h.slots⟩, ?_, h.full⟩, hnot⟩
  · intro i hi
    exact ⟨(h.range i (hperm.mem_iff.mpr (List.mem_cons_of_mem _ hi))).1, hbelow i hi⟩
  · simp only [Pool.shrunk, List.length_append, List.length_cons] at hbusy ⊢
    omega
  · change 0 ≤ p.connectorCount - 1
    omega
  · change p.connectorCount - 1 ≤ p.maxConnector
    omega
  · intro i hlow hhigh
    change i < p.connectorCount - 1 at hhigh
    have hmem := hperm.mem_iff.mp (h.covers i hlow (by omega))
    exact (List.mem_cons.mp hmem).resolve_left (by omega)

/-! ### Runs -/

structure Mending.Inv (s : Mending κ) : Prop where
  whole : Whole s.pool s.held
  unavailable : ∀ i ∈ s.broken, i ∉ s.pool.freeConnInfos ++ s.held
  untouched : s.clashed = false
  safe : s.failed = false

theorem Mending.Inv.kept {s : Mending κ} (h : s.Inv) : s.Kept :=
  ⟨fun i hi => (h.whole.range i hi).2, h.unavailable, h.untouched, h.whole.busy, h.whole.full,
    h.safe⟩

theorem mem_breaks {connect : ℤ → Bool} {broken tried : List ℤ} {i : ℤ}
    (h : i ∈ breaks connect broken tried) :
    (i ∈ broken ∧ i ∉ tried) ∨ (i ∈ tried ∧ connect i = false) := by
  rcases List.mem_append.mp h with hmem | hmem
  · exact .inl (by simpa using List.mem_filter.mp hmem)
  · exact .inr (by simpa using List.mem_filter.mp hmem)

theorem Mending.Inv.timeOut {s s' : Mending κ} (h : s.Inv) {j : ℕ} {fresh : Option κ}
    (hg : mendGuard s (.timeOut j fresh)) (hs : s.step (.timeOut j fresh) = some s') : s'.Inv := by
  obtain ⟨idx, hidx, rfl⟩ := Option.map_eq_some_iff.mp hs
  obtain ⟨hbroken, hmended⟩ := h.whole.reconnects (List.mem_of_getElem? hidx)
  obtain ⟨a, b, hheld, herase⟩ := erase_split hidx
  have hwhole := h.whole
  have hold := h.unavailable
  rw [hheld] at hwhole hold
  cases fresh with
  | none =>
    obtain ⟨hshrunk, hnot⟩ := hwhole.shrunk (hg idx hidx)
    refine ⟨?_, ?_, h.untouched, h.safe⟩
    · rw [herase, hbroken]
      exact hshrunk
    · intro i hi
      dsimp only at hi ⊢
      rw [herase, hbroken]
      rcases mem_breaks hi with ⟨hmem, -⟩ | ⟨hmem, -⟩
      · intro hin
        exact hold i hmem ((taken_perm _ _ _ _).mem_iff.mpr (List.mem_cons_of_mem _ hin))
      · cases List.mem_singleton.mp hmem
        exact hnot
  | some c =>
    have hslot : Whole { s.pool with connectors := s.pool.connectors.set idx.toNat c }
        (a ++ idx :: b) := by
      refine ⟨⟨hwhole.running, hwhole.nodup, hwhole.range, hwhole.busy, hwhole.nonneg, hwhole.bound,
        ?_⟩, hwhole.covers, hwhole.full⟩
      change ((s.pool.connectors.set idx.toNat c).length : ℤ) = s.pool.maxConnector
      rw [List.length_set]
      exact hwhole.slots
    obtain ⟨hback, hperm⟩ := hslot.giveBack
    refine ⟨?_, ?_, h.untouched, h.safe⟩
    · rw [herase, hmended]
      exact hback
    · intro i hi hin
      dsimp only at hi hin
      rw [herase, hmended] at hin
      rcases mem_breaks hi with ⟨hmem, -⟩ | ⟨-, hfalse⟩
      · exact hold i hmem (hperm.mem_iff.mp hin)
      · cases hfalse

theorem Mending.step_inv {s s' : Mending κ} {a : Turn κ} (h : s.Inv) (hg : mendGuard s a)
    (hs : s.step a = some s') : s'.Inv := by
  cases a with
  | borrow =>
    obtain ⟨w, p, hborrow, hwhole, hperm⟩ := h.whole.borrow
    simp only [Mending.step, hborrow, Option.some.injEq] at hs
    subst hs
    exact ⟨hwhole, fun i hi hin => h.unavailable i hi (hperm.mem_iff.mp hin), h.untouched, h.safe⟩
  | giveBack j =>
    obtain ⟨idx, hidx, rfl⟩ := Option.map_eq_some_iff.mp hs
    have hreturn := h.whole.returns (List.mem_of_getElem? hidx)
    obtain ⟨a, b, hheld, herase⟩ := erase_split hidx
    have hwhole := h.whole
    have hold := h.unavailable
    rw [hheld] at hwhole hold
    obtain ⟨hback, hperm⟩ := hwhole.giveBack
    refine ⟨?_, ?_, h.untouched, h.safe⟩
    · rw [herase, hreturn]
      exact hback
    · dsimp only
      rw [herase, hreturn]
      exact fun i hi hin => hold i hi (hperm.mem_iff.mp hin)
  | timeOut j fresh => exact h.timeOut hg hs
  | expand connect =>
    by_cases hmax : s.pool.maxConnector = s.pool.connectorCount
    · obtain ⟨hexpand, -⟩ := h.whole.expand_at_max connect hmax
      have htried : s.pool.tried connect = [] := if_pos hmax
      simp only [Mending.step, hexpand, htried, Option.some.injEq] at hs
      subst hs
      refine ⟨h.whole, fun i hi => ?_, ?_, h.safe⟩
      · rcases mem_breaks hi with ⟨hmem, -⟩ | ⟨hmem, -⟩
        · exact h.unavailable i hmem
        · cases hmem
      · simp [h.untouched]
    · obtain ⟨p', hexpand, hwhole, hfree, htried, hnew⟩ := h.whole.grow hmax hg
      simp only [Mending.step, hexpand, Option.some.injEq] at hs
      subst hs
      refine ⟨hwhole, fun i hi hin => ?_, ?_, h.safe⟩
      · dsimp only at hi hin
        rw [hfree] at hin
        rw [htried] at hi
        rcases mem_breaks hi with ⟨hmem, hnot⟩ | ⟨hmem, hfalse⟩
        · refine h.unavailable i hmem ?_
          simp only [List.mem_append] at hin ⊢
          rcases hin with (hin | hin) | hin
          · exact .inl hin
          · exact absurd hin hnot
          · exact .inr hin
        · rw [(List.mem_filter.mp hmem).2] at hfalse
          cases hfalse
      · dsimp only
        rw [htried, h.untouched, Bool.false_or, List.any_eq_false]
        intro i hi
        have := hnew i hi
        simp only [List.mem_append, not_or] at this
        simpa using this.2

/-- A pool whose `init` succeeded, for any `m_increaseNum`. -/
theorem Pool.connectMin_whole {p p₀ : Pool κ} {connect : ℤ → Bool} {minConn maxConn : ℤ}
    {make : ℕ → κ} {num : ℕ} (hnew : Pool.new minConn maxConn make = some p)
    (hinit : (p.setIncreaseNum num).connectMin connect = (0, p₀)) : Whole p₀ [] := by
  obtain ⟨hmin, hmax, hall, rfl⟩ := Pool.connectMin_new hnew hinit
  obtain ⟨-, hcount⟩ := Pool.connectFrom_spec (Prod.ext rfl hall)
  have hmem : ∀ i, i ∈ (Pool.connectFrom connect 0 minConn.toNat).1 ++ [] ↔ 0 ≤ i ∧ i < minConn := by
    intro i
    rw [List.append_nil, ← List.count_pos_iff, hcount i]
    split_ifs <;> omega
  refine ⟨⟨rfl, ?_, fun i hi => (hmem i).mp hi, rfl, hmin, hmax, ?_⟩,
    fun i hlow hhigh => (hmem i).mpr ⟨hlow, hhigh⟩, fun hfull => by cases hfull⟩
  · rw [List.append_nil]
    exact Pool.connectFrom_nodup
  · simp only [List.length_map, List.length_range]
    omega

theorem Mending.inv_of_run {minConn maxConn : ℤ} {make : ℕ → κ} {num : ℕ}
    {connect : ℤ → Bool} {p p₀ : Pool κ} {as : List (Turn κ)} {s : Mending κ}
    (hnew : Pool.new minConn maxConn make = some p)
    (hinit : (p.setIncreaseNum num).mysqlInit connect = (0, p₀) ∨
      (p.setIncreaseNum num).redisInit connect = (0, p₀))
    (hg : Guarded Mending.step mendGuard (.start p₀) as)
    (hrun : exec Mending.step (.start p₀) as = some s) : s.Inv := by
  have hmin : (p.setIncreaseNum num).connectMin connect = (0, p₀) := by
    rcases hinit with hinit | hinit
    · rwa [Pool.mysqlInit_new num hnew] at hinit
    · exact hinit
  have hstart : (Mending.start p₀).Inv :=
    ⟨Pool.connectMin_whole hnew hmin, fun i hi => absurd hi List.not_mem_nil, rfl, rfl⟩
  exact exec_guarded (fun _ _ _ hi hga hst => Mending.step_inv hi hga hst) hstart hg hrun

/-- In a run that meets `mendGuard` the pool stays consistent, and there a failed reconnect keeps the
indices below the count only if it is of the last index. -/
theorem failed_reconnect_consistent_iff {minConn maxConn : ℤ} {make : ℕ → κ} {num : ℕ}
    {connect : ℤ → Bool} {p p₀ : Pool κ} {as : List (Turn κ)} {s : Mending κ}
    (hnew : Pool.new minConn maxConn make = some p)
    (hinit : (p.setIncreaseNum num).mysqlInit connect = (0, p₀) ∨
      (p.setIncreaseNum num).redisInit connect = (0, p₀))
    (hg : Guarded Mending.step mendGuard (.start p₀) as)
    (hrun : exec Mending.step (.start p₀) as = some s) :
    s.Kept ∧ ∀ j i, s.held[j]? = some i →
      ∃ t, s.step (.timeOut j none) = some t ∧
        ((∀ k ∈ t.pool.freeConnInfos ++ t.held, k < t.pool.connectorCount) ↔
          i = s.pool.connectorCount - 1) := by
  have hinv := Mending.inv_of_run hnew hinit hg hrun
  refine ⟨hinv.kept, fun j i hj => ⟨_, by rw [Mending.step, hj, Option.map_some], ?_⟩⟩
  obtain ⟨a, b, hheld, herase⟩ := erase_split hj
  have hwhole := hinv.whole
  have hbroken := (hwhole.reconnects (List.mem_of_getElem? hj)).1
  rw [hheld] at hwhole
  dsimp only
  rw [herase, hbroken]
  exact hwhole.shrunk_below_iff

def pairNew : Pool ℕ := ⟨[], [0, 1], 0, 0, 2, 2, .init, 1⟩

def pairReady : Pool ℕ := ⟨[0, 1], [0, 1], 2, 0, 2, 2, .ready, 1⟩

/-- Both connections are lent; the second one times out and cannot be replaced at first. -/
def mendLast : List (Turn ℕ) :=
  [.borrow, .borrow, .timeOut 1 none, .expand fun _ => true, .borrow]

theorem mend_last_consistent :
    ∃ s, exec Mending.step (.start pairReady) mendLast = some s ∧ s.held = [0, 1] ∧ s.Kept := by
  refine ⟨⟨⟨[], [0, 1], 2, 2, 2, 2, .full, 1⟩, [0, 1], [], false, false⟩, rfl, rfl, ?_⟩
  have hg : Guarded Mending.step mendGuard (.start pairReady) mendLast := by
    refine ⟨trivial, fun _ h₁ => ⟨trivial, fun _ h₂ => ?_⟩⟩
    cases h₁
    cases h₂
    refine ⟨?_, fun _ h₃ => ?_⟩
    · rintro i hi
      cases hi
      rfl
    cases h₃
    exact ⟨.inr ⟨by decide, fun _ _ _ => rfl⟩, fun _ _ => ⟨trivial, fun _ _ => trivial⟩⟩
  exact (@failed_reconnect_consistent_iff ℕ 2 2 id 1 (fun _ => true)
    pairNew pairReady _ _ rfl (.inl rfl) hg rfl).1

/-- The first of two lent connections fails: the other index is not below the count any more,
and `expand` connects it again and puts it on the free list. -/
theorem failed_reconnect_frees_held :
    Pool.new 2 2 id = some pairNew ∧
    (pairNew.setIncreaseNum 1).mysqlInit (fun _ => true) = (0, pairReady) ∧
    (∃ s, exec Mending.step (.start pairReady) [.borrow, .borrow, .timeOut 0 none] = some s ∧
      s.held = [1] ∧ s.pool.connectorCount = 1 ∧ ¬ s.Kept) ∧
    ∃ s, exec Mending.step (.start pairReady)
        [.borrow, .borrow, .timeOut 0 none, .expand fun _ => true] = some s ∧
      s.held = [1] ∧ s.pool.freeConnInfos = [1] ∧ s.clashed = true := by
  refine ⟨rfl, rfl, ⟨_, rfl, rfl, rfl, fun hkept => ?_⟩, ⟨_, rfl, rfl, rfl, rfl⟩⟩
  exact absurd (hkept.below 1 (List.mem_singleton.mpr rfl)) (by decide)

end MSylar.DBPool
