import MSylar.DBPool.Reconnect

/-!
# The retry loop of executeQuery (mysql.cc:330-379, redis.cc:153-188)

Both pools try to borrow, `expand` where there is room, and else wait in `GetConnAwaiter`. One call is
followed alone, from any state of the pool. The `k`-th `expand` of the call finds that slot `i` can be
connected iff `cs k i`. A pool that is not running answers with a result on a null pointer, which only
the constructor of the MySQL result takes (redis.cc:14-16).
-/

namespace MSylar.DBPool
open MSylar.Calls MSylar.Execution
variable {κ : Type*}

inductive PoolKind where
  | mysql
  | redis
  deriving DecidableEq

/-- Where the loop ends. An assertion that fails ends it too. -/
inductive Outcome (κ : Type*) where
  | borrowed (w : Pool.Wrapper κ)
  | suspended
  | returned
  | aborted

namespace Pool

/-- One round of the loop: how it ends, or the pool at the start of the next round. -/
def retry (connect : ℤ → Bool) (p : Pool κ) : Outcome κ ⊕ Pool κ :=
  match p.borrowOneConn with
  | none => .inl .aborted
  | some (w, p) =>
    if 0 ≤ w.connIdx then .inl (.borrowed w)
    else if p.connectorCount < p.maxConnector then
      match p.expand connect with
      | none => .inl .aborted
      | some (_, p) => .inr p
    else .inl .suspended

/-- At most `n` rounds. -/
def retries : ℕ → (ℕ → ℤ → Bool) → Pool κ → Option (Outcome κ)
  | 0, _, _ => none
  | n + 1, cs, p =>
    match p.retry (cs 0) with
    | .inl o => some o
    | .inr p => retries n (fun k => cs (k + 1)) p

def executeQuery (kind : PoolKind) (n : ℕ) (cs : ℕ → ℤ → Bool) (p : Pool κ) : Option (Outcome κ) :=
  if p.checkRunState then p.retries n cs
  else
    match kind with
    | .mysql => some .returned
    | .redis => some .aborted

/-- The call gets a connection, waits or returns, after some number of rounds. -/
def Progresses (kind : PoolKind) (cs : ℕ → ℤ → Bool) (p : Pool κ) : Prop :=
  ∃ n o, p.executeQuery kind n cs = some o ∧ o ≠ .aborted

/-- The first free index is one below `count`. -/
def FrontBelow (p : Pool κ) (count : ℤ) : Prop := ∃ idx ∈ p.freeConnInfos.head?, 0 ≤ idx ∧ idx < count

/-- There is a connection to take, or no room for another. In the last case `expand` adds nothing, and
only turns FULL into READY. -/
def Settled (p : Pool κ) : Prop :=
  p.checkRunState = false ∨
  p.state = .ready ∧ p.FrontBelow p.connectorCount ∨
  (p.state = .full ∨ p.freeConnInfos = []) ∧ p.maxConnector ≤ p.connectorCount ∨
  p.state = .full ∧ toInt32 p.increaseNum ≤ 0 ∧
    p.busyConnCount < p.connectorCount + toInt32 p.increaseNum ∧
    p.FrontBelow (p.connectorCount + toInt32 p.increaseNum)

def SettledFor (kind : PoolKind) (p : Pool κ) : Prop :=
  p.Settled ∧ (p.checkRunState = true ∨ kind = .mysql)

end Pool

/-! ### One round -/

theorem Pool.executeQuery_running {p : Pool κ} (hrun : p.checkRunState = true) (kind : PoolKind) (n : ℕ)
    (cs : ℕ → ℤ → Bool) : p.executeQuery kind n cs = p.retries n cs :=
  if_pos hrun

theorem Pool.retry_front {p : Pool κ} (connect : ℤ → Bool) (hready : p.state = .ready)
    (hfront : p.FrontBelow p.connectorCount) : ∃ w, p.retry connect = .inl (.borrowed w) := by
  obtain ⟨idx, hidx, hlow, hhigh⟩ := hfront
  obtain ⟨rest, hfree⟩ : ∃ rest, p.freeConnInfos = idx :: rest := by
    cases hl : p.freeConnInfos with
    | nil =>
      rw [hl] at hidx
      cases hidx
    | cons i rest =>
      rw [hl] at hidx
      cases hidx
      exact ⟨rest, rfl⟩
  have hborrow := Pool.borrow_front hready hfree ⟨hlow, hhigh⟩
  refine ⟨⟨idx, p.connectors[idx.toNat]?, false⟩, ?_⟩
  simp only [Pool.retry, hborrow, if_pos hlow]

theorem Pool.retry_aborts {p : Pool κ} (connect : ℤ → Bool) (hready : p.state = .ready)
    (hfree : p.freeConnInfos ≠ []) (hfront : ¬ p.FrontBelow p.connectorCount) :
    p.retry connect = .inl .aborted := by
  cases hl : p.freeConnInfos with
  | nil => exact absurd hl hfree
  | cons idx rest =>
    have hout : ¬ (0 ≤ idx ∧ idx < p.connectorCount) := fun hin => by
      refine hfront ⟨idx, ?_, hin⟩
      rw [hl]
      rfl
    simp only [Pool.retry, Pool.borrowOneConn, Pool.checkRunState, hready, hl, if_neg hout]
    simp

/-- Nothing to borrow. -/
theorem Pool.retry_none {p : Pool κ} (connect : ℤ → Bool) (hrun : p.checkRunState = true)
    (hnone : p.state = .full ∨ p.freeConnInfos = []) :
    p.retry connect = if p.connectorCount < p.maxConnector then .inr (p.expandLocked connect).2
      else .inl .suspended := by
  have hborrow : p.borrowOneConn = some (.empty, p) := by
    refine Pool.borrow_nothing ?_
    rcases Pool.running_cases hrun with hready | hfull
    · rcases hnone with hfull | hnil
      · exact .inl hfull
      · exact .inr ⟨hready, hnil⟩
    · exact .inl hfull
  have hneg : ¬ 0 ≤ (Pool.Wrapper.empty : Pool.Wrapper κ).connIdx := by
    change ¬ (0 : ℤ) ≤ -1
    decide
  simp only [Pool.retry, hborrow, if_neg hneg]
  split_ifs with hroom
  · rw [Pool.expand, if_neg (by omega)]
  · rfl

/-! ### States that are not settled -/

theorem Pool.increase_nonpos {p : Pool κ} (hroom : p.connectorCount < p.maxConnector)
    (hnum : Pool.toInt32 p.increaseNum ≤ 0) : p.increase = Pool.toInt32 p.increaseNum := by
  unfold Pool.increase
  dsimp only
  rw [if_pos (by omega)]

/-- An `expand` that adds nothing. -/
theorem Pool.expandLocked_nonpos {p : Pool κ} (connect : ℤ → Bool)
    (hroom : p.connectorCount < p.maxConnector) (hnum : Pool.toInt32 p.increaseNum ≤ 0) :
    (p.expandLocked connect).2 = p.grow [] (p.connectorCount + Pool.toInt32 p.increaseNum) := by
  have hinc := p.increase_nonpos hroom hnum
  have hzero : p.increase.toNat = 0 := Int.toNat_of_nonpos (by omega)
  simp only [Pool.expandLocked, hzero, Pool.connectFrom, if_true]
  rw [hinc]

/-- An `expand` whose first connection fails. -/
theorem Pool.expandLocked_fails {p : Pool κ} (hroom : p.connectorCount < p.maxConnector)
    (hnum : 0 < Pool.toInt32 p.increaseNum) :
    (p.expandLocked fun _ => false).2 =
      { p with freeConnInfos := p.freeConnInfos ++ [p.connectorCount] } := by
  have hpos : 0 < p.increase := by
    have hcases := Pool.increase_cases hroom
    omega
  obtain ⟨n, hn⟩ : ∃ n, p.increase.toNat = n + 1 := ⟨p.increase.toNat - 1, by omega⟩
  simp only [Pool.expandLocked, hn, Pool.connectFrom, Bool.false_eq_true, if_false]
  rfl

theorem Pool.not_settled_iff {p : Pool κ} : ¬ p.Settled ↔
    p.checkRunState = true ∧ ¬ (p.state = .ready ∧ p.FrontBelow p.connectorCount) ∧
    (p.state = .full ∨ p.freeConnInfos = [] → p.connectorCount < p.maxConnector) ∧
    (p.state = .full → Pool.toInt32 p.increaseNum ≤ 0 →
      p.busyConnCount < p.connectorCount + Pool.toInt32 p.increaseNum →
      ¬ p.FrontBelow (p.connectorCount + Pool.toInt32 p.increaseNum)) := by
  unfold Pool.Settled
  simp only [not_or, not_and, Bool.not_eq_false, not_le]

theorem Pool.grow_unsettled {p : Pool κ} (hrun : p.checkRunState = true)
    (hnone : p.state = .full ∨ p.freeConnInfos = []) (hroom : p.connectorCount < p.maxConnector)
    (hnum : Pool.toInt32 p.increaseNum ≤ 0)
    (hlast : p.state = .full → Pool.toInt32 p.increaseNum ≤ 0 →
      p.busyConnCount < p.connectorCount + Pool.toInt32 p.increaseNum →
      ¬ p.FrontBelow (p.connectorCount + Pool.toInt32 p.increaseNum)) :
    ¬ (p.grow [] (p.connectorCount + Pool.toInt32 p.increaseNum)).Settled := by
  rw [Pool.not_settled_iff]
  have hfree : (p.grow [] (p.connectorCount + Pool.toInt32 p.increaseNum)).freeConnInfos =
      p.freeConnInfos := List.append_nil _
  have hcount : (p.grow [] (p.connectorCount + Pool.toInt32 p.increaseNum)).connectorCount =
      p.connectorCount + Pool.toInt32 p.increaseNum := rfl
  refine ⟨?_, ?_, fun _ => ?_, fun hfull _ hbusy => ?_⟩
  · simp only [Pool.grow, Pool.checkRunState]
    split_ifs
    · rfl
    · exact hrun
  · rintro ⟨hready, hbelow⟩
    rw [Pool.FrontBelow, hfree, hcount] at hbelow
    rcases hnone with hfull | hnil
    · simp only [Pool.grow, hfull] at hready
      split_ifs at hready with hbusy
      exact hlast hfull hnum hbusy hbelow
    · obtain ⟨idx, hidx, -⟩ := hbelow
      rw [hnil] at hidx
      cases hidx
  · rw [hcount]
    change _ < p.maxConnector
    omega
  · -- it is FULL only if `expand` has left it so
    simp only [Pool.grow] at hfull hbusy
    split_ifs at hfull with hready
    omega

/-- Where no connection ever succeeds, a round leaves the pool unsettled. -/
theorem Pool.retry_unsettled {p : Pool κ} (h : ¬ p.Settled) :
    p.retry (fun _ => false) = .inl .aborted ∨
      ∃ q, p.retry (fun _ => false) = .inr q ∧ ¬ q.Settled := by
  obtain ⟨hrun, hfront, hroom, hlast⟩ := Pool.not_settled_iff.mp h
  by_cases hnone : p.state = .full ∨ p.freeConnInfos = []
  · have hlt := hroom hnone
    refine .inr ⟨_, by rw [Pool.retry_none _ hrun hnone, if_pos hlt], ?_⟩
    by_cases hnum : Pool.toInt32 p.increaseNum ≤ 0
    · rw [Pool.expandLocked_nonpos _ hlt hnum]
      exact Pool.grow_unsettled hrun hnone hlt hnum hlast
    · rw [Pool.expandLocked_fails hlt (by omega), Pool.not_settled_iff]
      refine ⟨hrun, ?_, fun _ => hlt, fun _ hle => absurd hle hnum⟩
      rintro ⟨hready, idx, hidx, -, hbelow⟩
      -- the pool was READY with an empty list, and the slot that failed is the count
      rcases hnone with hfull | hnil
      · rw [hfull] at hready
        cases hready
      · rw [hnil] at hidx
        cases hidx
        exact absurd hbelow (lt_irrefl _)
  · push Not at hnone
    have hready := (Pool.running_cases hrun).resolve_right hnone.1
    exact .inl (Pool.retry_aborts _ hready hnone.2 fun hbelow => hfront ⟨hready, hbelow⟩)

theorem Pool.retries_unsettled {p : Pool κ} (h : ¬ p.Settled) (n : ℕ) :
    p.retries n (fun _ _ => false) = none ∨ p.retries n (fun _ _ => false) = some .aborted := by
  induction n generalizing p with
  | zero => exact .inl rfl
  | succ n ih =>
    rcases Pool.retry_unsettled h with habort | ⟨q, hq, hsettled⟩
    · exact .inr (by simp only [Pool.retries, habort])
    · simp only [Pool.retries, hq]
      exact ih hsettled

theorem Pool.not_progresses {p : Pool κ} (kind : PoolKind) (h : ¬ p.Settled) :
    ¬ p.Progresses kind fun _ _ => false := by
  rintro ⟨n, o, ho, hfine⟩
  rw [Pool.executeQuery_running (Pool.not_settled_iff.mp h).1] at ho
  rcases Pool.retries_unsettled h n with hnone | habort
  · rw [hnone] at ho
    cases ho
  · rw [habort] at ho
    cases ho
    exact hfine rfl

/-- The assertion of the Redis result. -/
theorem Pool.redis_stopped {p : Pool κ} (hstopped : p.checkRunState = false) (cs : ℕ → ℤ → Bool) :
    ¬ p.Progresses .redis cs := by
  rintro ⟨n, o, ho, hfine⟩
  rw [Pool.executeQuery, hstopped] at ho
  cases ho
  exact hfine rfl

/-! ### States that are -/

theorem Pool.progresses_one {p : Pool κ} {kind : PoolKind} {cs : ℕ → ℤ → Bool} {o : Outcome κ}
    (hrun : p.checkRunState = true) (h : p.retry (cs 0) = .inl o) (ho : o ≠ .aborted) :
    p.Progresses kind cs := by
  refine ⟨1, o, ?_, ho⟩
  rw [Pool.executeQuery_running hrun]
  simp only [Pool.retries, h]

theorem Pool.progresses_two {p q : Pool κ} {kind : PoolKind} {cs : ℕ → ℤ → Bool} {o : Outcome κ}
    (hrun : p.checkRunState = true) (h : p.retry (cs 0) = .inr q) (hq : q.retry (cs 1) = .inl o)
    (ho : o ≠ .aborted) : p.Progresses kind cs := by
  refine ⟨2, o, ?_, ho⟩
  rw [Pool.executeQuery_running hrun]
  simp only [Pool.retries, h, Nat.zero_add, hq]

theorem Pool.settled_progresses {p : Pool κ} {kind : PoolKind} (hkind : p.SettledFor kind)
    (cs : ℕ → ℤ → Bool) : p.Progresses kind cs := by
  obtain ⟨h, hserved⟩ := hkind
  by_cases hrun : p.checkRunState = true
  · rcases h with hstopped | ⟨hready, hfront⟩ | ⟨hnone, hmax⟩ | ⟨hfull, hnum, hbusy, hfront⟩
    · rw [hstopped] at hrun
      cases hrun
    · obtain ⟨w, hw⟩ := Pool.retry_front (cs 0) hready hfront
      exact Pool.progresses_one hrun hw (by simp)
    · have hwait : p.retry (cs 0) = .inl .suspended := by
        rw [Pool.retry_none _ hrun hnone, if_neg (by omega)]
      exact Pool.progresses_one hrun hwait (by simp)
    · by_cases hroom : p.connectorCount < p.maxConnector
      · have hnext : p.retry (cs 0) =
            .inr (p.grow [] (p.connectorCount + Pool.toInt32 p.increaseNum)) := by
          rw [Pool.retry_none _ hrun (.inl hfull), if_pos hroom,
            Pool.expandLocked_nonpos _ hroom hnum]
        have hready : (p.grow [] (p.connectorCount + Pool.toInt32 p.increaseNum)).state = .ready :=
          if_pos hbusy
        have hfront' : (p.grow [] (p.connectorCount + Pool.toInt32 p.increaseNum)).FrontBelow
            (p.connectorCount + Pool.toInt32 p.increaseNum) := by
          rw [Pool.FrontBelow, Pool.grow, List.append_nil]
          exact hfront
        obtain ⟨w, hw⟩ := Pool.retry_front (cs 1) hready hfront'
        exact Pool.progresses_two hrun hnext hw (by simp)
      · have hwait : p.retry (cs 0) = .inl .suspended := by
          rw [Pool.retry_none _ hrun (.inl hfull), if_neg hroom]
        exact Pool.progresses_one hrun hwait (by simp)
  · obtain rfl := hserved.resolve_left hrun
    refine ⟨0, .returned, ?_, by simp⟩
    rw [Pool.executeQuery, if_neg hrun]

theorem Pool.progresses_iff (kind : PoolKind) (p : Pool κ) :
    (∀ cs, p.Progresses kind cs) ↔ p.SettledFor kind := by
  refine ⟨fun hall => ⟨?_, ?_⟩, Pool.settled_progresses⟩
  · by_contra hsettled
    exact Pool.not_progresses kind hsettled (hall _)
  · by_contra hneither
    push Not at hneither
    obtain ⟨hstopped, hkind⟩ := hneither
    cases kind with
    | mysql => exact hkind rfl
    | redis =>
      exact Pool.redis_stopped (Bool.eq_false_of_not_eq_true hstopped) _ (hall fun _ _ => false)

/-! ### Consistent pools -/

theorem Whole.front {p : Pool κ} {held : List ℤ} (h : Whole p held) (hfree : p.freeConnInfos ≠ []) :
    p.state = .ready ∧ p.FrontBelow p.connectorCount := by
  refine ⟨(Pool.running_cases h.running).resolve_right fun hfull => hfree (h.full hfull), ?_⟩
  cases hl : p.freeConnInfos with
  | nil => exact absurd hl hfree
  | cons idx rest =>
    have hmem : idx ∈ p.freeConnInfos ++ held := by
      rw [hl]
      exact List.mem_cons_self
    refine ⟨idx, ?_, h.range idx hmem⟩
    rw [hl]
    rfl

theorem Whole.settled_iff {p : Pool κ} {held : List ℤ} (h : Whole p held) :
    p.Settled ↔ p.freeConnInfos ≠ [] ∨ p.maxConnector = p.connectorCount := by
  have hbound := h.bound
  constructor
  · intro hsettled
    by_contra hneither
    push Not at hneither
    obtain ⟨hnil, hmax⟩ := hneither
    have hnofront : ∀ count, ¬ p.FrontBelow count := by
      rintro count ⟨idx, hidx, -⟩
      rw [hnil] at hidx
      cases hidx
    rcases hsettled with hstopped | ⟨-, hfront⟩ | ⟨-, hle⟩ | ⟨-, -, -, hfront⟩
    · rw [h.running] at hstopped
      cases hstopped
    · exact hnofront _ hfront
    · omega
    · exact hnofront _ hfront
  · rintro (hfree | hmax)
    · exact .inr (.inl (h.front hfree))
    · by_cases hfree : p.freeConnInfos = []
      · exact .inr (.inr (.inl ⟨.inr hfree, by omega⟩))
      · exact .inr (.inl (h.front hfree))

theorem Whole.settledFor_iff {p : Pool κ} {held : List ℤ} (h : Whole p held) (kind : PoolKind) :
    p.SettledFor kind ↔ p.freeConnInfos ≠ [] ∨ p.maxConnector = p.connectorCount := by
  rw [Pool.SettledFor, h.settled_iff, and_iff_left (.inl h.running)]

/-- One `expand` that succeeds is enough. -/
theorem Whole.grow_progresses {p : Pool κ} {held : List ℤ} (h : Whole p held) (kind : PoolKind)
    {cs : ℕ → ℤ → Bool}
    (hnil : p.freeConnInfos = []) (hmax : p.maxConnector ≠ p.connectorCount)
    (hnum : 1 ≤ Pool.toInt32 p.increaseNum) (hgrows : p.Grows (cs 0)) :
    p.Progresses kind cs := by
  have hbound := h.bound
  have hroom : p.connectorCount < p.maxConnector := by omega
  obtain ⟨q, hexpand, hwhole, hfree, -, -⟩ := h.grow hmax hgrows
  obtain ⟨-, -, -, -, -, hlen, -⟩ := h.toSane.grow hmax hgrows
  have hpos : 0 < p.increase := by
    have hcases := Pool.increase_cases hroom
    omega
  have hne : q.freeConnInfos ≠ [] := by
    intro hq
    rw [hfree, List.append_eq_nil_iff] at hq
    rw [hq.2, List.length_nil] at hlen
    omega
  have hnext : p.retry (cs 0) = .inr q := by
    rw [Pool.expand, if_neg hmax, Option.some.injEq] at hexpand
    rw [Pool.retry_none _ h.running (.inr hnil), if_pos hroom, hexpand]
  obtain ⟨hready, hfront⟩ := hwhole.front hne
  obtain ⟨w, hw⟩ := Pool.retry_front (cs 1) hready hfront
  exact Pool.progresses_two h.running hnext hw (by simp)

/-- A call makes progress for all outcomes of `connect` iff the pool is settled, in any state of it,
and runs if it is a Redis pool. In the states of a run that meets `mendGuard` that is: a connection is
free, or there is no room. And there one `expand` that succeeds is enough. -/
theorem retry_progresses_iff {minConn maxConn : ℤ} {make : ℕ → κ} {num : ℕ}
    {connect : ℤ → Bool} {p p₀ : Pool κ} {as : List (Turn κ)} {s : Mending κ}
    (hnew : Pool.new minConn maxConn make = some p)
    (hinit : (p.setIncreaseNum num).mysqlInit connect = (0, p₀) ∨
      (p.setIncreaseNum num).redisInit connect = (0, p₀))
    (hg : Guarded Mending.step mendGuard (.start p₀) as)
    (hrun : exec Mending.step (.start p₀) as = some s) (kind : PoolKind) :
    (∀ q : Pool κ, (∀ cs, q.Progresses kind cs) ↔ q.SettledFor kind) ∧
    (s.pool.SettledFor kind ↔
      s.pool.freeConnInfos ≠ [] ∨ s.pool.maxConnector = s.pool.connectorCount) ∧
    (1 ≤ Pool.toInt32 s.pool.increaseNum → ∀ cs, s.pool.Grows (cs 0) →
      s.pool.Progresses kind cs) := by
  have hwhole := (Mending.inv_of_run hnew hinit hg hrun).whole
  refine ⟨Pool.progresses_iff kind, hwhole.settledFor_iff kind, fun hnum cs hgrows => ?_⟩
  by_cases hsettled : s.pool.SettledFor kind
  · exact Pool.settled_progresses hsettled cs
  · rw [hwhole.settledFor_iff, not_or, not_not] at hsettled
    exact hwhole.grow_progresses kind hsettled.1 hsettled.2 hnum hgrows

theorem all_lent_suspends :
    ∃ s, exec Mending.step (.start pairReady) [.borrow, .borrow] = some s ∧
      ∀ cs, s.pool.Progresses .redis cs := by
  refine ⟨⟨⟨[], [0, 1], 2, 2, 2, 2, .full, 1⟩, [0, 1], [], false, false⟩, rfl, ?_⟩
  obtain ⟨hall, hsettled, -⟩ := @retry_progresses_iff ℕ 2 2 id 1 (fun _ => true) pairNew pairReady
    [.borrow, .borrow] ⟨⟨[], [0, 1], 2, 2, 2, 2, .full, 1⟩, [0, 1], [], false, false⟩ rfl (.inr rfl)
    ⟨trivial, fun _ _ => ⟨trivial, fun _ _ => trivial⟩⟩ rfl .redis
  exact (hall _).mpr (hsettled.mpr (.inr rfl))

/-- A FULL pool with room, where no connection can be made, is the same after each round but for one
more index on the free list. -/
theorem Pool.retries_full {p : Pool κ} (hfull : p.state = .full)
    (hroom : p.connectorCount < p.maxConnector) (hnum : 0 < Pool.toInt32 p.increaseNum) (n : ℕ) :
    p.retries n (fun _ _ => false) = none := by
  induction n generalizing p with
  | zero => rfl
  | succ n ih =>
    have hrun : p.checkRunState = true := by
      rw [Pool.checkRunState, hfull]
    have hnext : p.retry (fun _ => false) =
        .inr { p with freeConnInfos := p.freeConnInfos ++ [p.connectorCount] } := by
      rw [Pool.retry_none _ hrun (.inl hfull), if_pos hroom, Pool.expandLocked_fails hroom hnum]
    simp only [Pool.retries, hnext]
    exact ih hfull hroom hnum

def oneNew : Pool ℕ := ⟨[], [0, 1], 0, 0, 1, 2, .init, 1⟩

def oneReady : Pool ℕ := ⟨[0], [0, 1], 1, 0, 1, 2, .ready, 1⟩

/-- The only connection is lent and no other can be made: the loop goes on for ever. In a pool that
starts without connections the slot that failed is taken from the free list. A Redis pool that was
closed answers with an abort. -/
theorem failing_connect_loops :
    Pool.new 1 2 id = some oneNew ∧
    (oneNew.setIncreaseNum 1).mysqlInit (fun _ => true) = (0, oneReady) ∧
    (∃ s, exec Mending.step (.start oneReady) [.borrow] = some s ∧
      ∀ kind n, s.pool.executeQuery kind n (fun _ _ => false) = none) ∧
    Pool.new 0 2 id = some ⟨[], [0, 1], 0, 0, 0, 2, .init, 1⟩ ∧
    (Pool.setIncreaseNum ⟨[], [0, 1], 0, 0, 0, 2, .init, 1⟩ 1).mysqlInit (fun _ => true) =
      (0, noneOfTwo) ∧
    (∀ kind, noneOfTwo.executeQuery kind 2 (fun _ _ => false) = some .aborted) ∧
    (oneNew.setIncreaseNum 1).redisInit (fun _ => true) = (0, oneReady) ∧
    ∀ cs, ¬ Pool.Progresses .redis cs { oneReady with state := .closing } := by
  refine ⟨rfl, rfl, ⟨_, rfl, fun kind n => ?_⟩, rfl, rfl, fun _ => rfl, rfl, ?_⟩
  · exact Pool.retries_full rfl (by decide) (by decide) n
  · exact Pool.redis_stopped rfl

end MSylar.DBPool
