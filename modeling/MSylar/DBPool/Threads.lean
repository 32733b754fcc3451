import MSylar.DBPool.Pool

/-!
# Threads on a connection pool (database.hpp:152-156, database.tpp:108-265, mysql.cc:330-379)

Any number of `executeQuery` coroutines, of direct calls of the operations of the pool and of
`close` calls. A step is a locked region up to the next access of `m_state`, or one load or store
of `m_state` outside the lock. `close` stores without the lock, so its store can fall between the
accesses of a region. A failed assertion ends the run.
-/

namespace MSylar.DBPool
open MSylar.Calls MSylar.Execution
variable {κ : Type*}

inductive Caller where
  | query
  | user
  deriving DecidableEq

inductive Point where
  | query
  | borrow (k : Caller)
  -- with the lock, before each load of `m_state`; past the last one; before the store of `FULL`
  | borrowFull (k : Caller)
  | borrowReady (k : Caller)
  | taking (k : Caller)
  | filling (idx : ℤ)
  | inUse (idx : ℤ)
  | room
  | expand (k : Caller)
  | expandCheck (k : Caller)
  | expandLocked (k : Caller)
  -- with the lock, before the connections are made and before the store of `READY`
  | connecting (k : Caller)
  | growing (k : Caller)
  | register (k : Caller)
  | registerLocked (k : Caller)
  | parked
  | resumed
  | giveBack (idx : ℤ) (isTimeOut : Bool)
  | reconnect (idx : ℤ)
  | relock (idx : ℤ)
  -- with the lock, before the load of `m_state` and before the store of `READY`
  | returning (idx : ℤ)
  | freeing
  | tickle (closer : Bool)
  | tickleLocked (closer : Bool)
  | close
  | done
  deriving DecidableEq

/-- The callback of a call is its number. `scheduled` are the callbacks given to the scheduler
and not yet run. The flags say whether a `close` has stored `CLOSING`, whether one has returned,
and whether a connection was lent after the store. -/
structure Shared (κ : Type*) where
  pool : Pool κ
  locked : Bool := false
  waitConnCb : List ℕ := []
  scheduled : List ℕ := []
  closeStored : Bool := false
  closeReturned : Bool := false
  lentLate : Bool := false

/-- Whether a query times out, the connection made for the reconnect, if it connects, and which
slots `expand` can connect. -/
structure Input (κ : Type*) where
  isTimeOut : Bool := false
  fresh : Option κ := none
  connect : ℤ → Bool := fun _ => true

namespace Shared

def setState (s : Shared κ) (state : State) : Shared κ :=
  { s with pool := { s.pool with state := state } }

def lock (s : Shared κ) : Shared κ := { s with locked := true }

def unlock (s : Shared κ) : Shared κ := { s with locked := false }

def lend (s : Shared κ) : Shared κ :=
  { s with locked := false, lentLate := s.lentLate || s.closeStored }

def take (s : Shared κ) (n : ℕ) : Shared κ :=
  { s with waitConnCb := s.waitConnCb.drop n, scheduled := s.scheduled ++ s.waitConnCb.take n }

def ticked (s : Shared κ) (closer : Bool) : Shared κ :=
  { s with closeReturned := s.closeReturned || closer }

end Shared

def Caller.gotNothing : Caller → Point
  | .query => .room
  | .user => .done

def Caller.expanded : Caller → Point
  | .query => .borrow .query
  | .user => .done

def Caller.registered : Caller → Point
  | .query => .parked
  | .user => .done

/-- All connections that `expand` makes succeed, and some are not busy. -/
def Pool.opens (p : Pool κ) (connect : ℤ → Bool) : Prop :=
  (Pool.connectFrom connect p.connectorCount p.increase.toNat).2 = true ∧
    p.busyConnCount < p.connectorCount + p.increase

instance (p : Pool κ) (connect : ℤ → Bool) : Decidable (p.opens connect) :=
  inferInstanceAs (Decidable (_ ∧ _))

/-- The pool after `expand` but for the store of `READY`. -/
def Pool.grown (p : Pool κ) (connect : ℤ → Bool) : Pool κ :=
  { (p.expandLocked connect).2 with state := p.state }

def Point.run (i : ℕ) (x : Input κ) (s : Shared κ) : Point → Option (Shared κ × Point)
  | .query => some (s, if s.pool.checkRunState then .borrow .query else .done)
  | .borrow k =>
    if s.locked then none
    else if s.pool.checkRunState then some (s.lock, .borrowFull k) else some (s, k.gotNothing)
  | .borrowFull k =>
    if s.pool.state = .full then some (s.unlock, k.gotNothing) else some (s, .borrowReady k)
  | .borrowReady k =>
    if s.pool.state = .ready then some (s, .taking k) else some (s.unlock, k.gotNothing)
  | .taking k =>
    match s.pool.freeConnInfos with
    | [] => some (s.unlock, k.gotNothing)
    | idx :: rest =>
      if 0 ≤ idx ∧ idx < s.pool.connectorCount then
        let taken := { s with pool := { s.pool with
          freeConnInfos := rest, busyConnCount := s.pool.busyConnCount + 1 } }
        if s.pool.busyConnCount + 1 = s.pool.connectorCount then some (taken, .filling idx)
        else some (taken.lend, .inUse idx)
      else none
  | .filling idx => some ((s.setState .full).lend, .inUse idx)
  | .inUse idx => some (s, .giveBack idx x.isTimeOut)
  | .room =>
    some (s, if s.pool.connectorCount < s.pool.maxConnector then .expand .query
      else .register .query)
  -- the load of `m_state` at the head of `expand` decides about a log line only
  | .expand k => some (s, .expandCheck k)
  | .expandCheck k =>
    if s.pool.maxConnector = s.pool.connectorCount then
      if s.pool.connectorCount = s.pool.connectors.length then some (s, k.expanded) else none
    else some (s, .expandLocked k)
  | .expandLocked k => if s.locked then none else some (s.lock, .connecting k)
  | .connecting k =>
    let grown := { s with pool := s.pool.grown x.connect }
    if s.pool.opens x.connect then some (grown, .growing k) else some (grown.unlock, k.expanded)
  | .growing k => some ((s.setState .ready).unlock, k.expanded)
  | .register k =>
    some (s, if s.pool.checkRunState then .registerLocked k else k.registered)
  | .registerLocked k =>
    if s.locked then none
    else if s.pool.state ≠ .full then
      some ({ s with scheduled := s.scheduled ++ [i] }, k.registered)
    else some ({ s with waitConnCb := s.waitConnCb ++ [i] }, k.registered)
  | .parked =>
    if i ∈ s.scheduled then some ({ s with scheduled := s.scheduled.erase i }, .resumed) else none
  | .resumed => some (s, if s.pool.checkRunState then .borrow .query else .done)
  | .giveBack idx isTimeOut =>
    if s.locked then none
    else if !s.pool.checkRunState || (idx < 0 || s.pool.maxConnector ≤ idx) then some (s, .done)
    else if isTimeOut then some (s, .reconnect idx)
    else some (s.lock, .returning idx)
  | .reconnect idx =>
    match x.fresh with
    | none => some ({ s with pool := { s.pool with
        connectorCount := s.pool.connectorCount - 1
        busyConnCount := s.pool.busyConnCount - 1 } }, .done)
    | some c => some ({ s with pool := { s.pool with
        connectors := s.pool.connectors.set idx.toNat c } }, .relock idx)
  | .relock idx => if s.locked then none else some (s.lock, .returning idx)
  | .returning idx =>
    let given := { s with pool := { s.pool with
      freeConnInfos := s.pool.freeConnInfos ++ [idx]
      busyConnCount := s.pool.busyConnCount - 1 } }
    if s.pool.state = .full then some (given, .freeing) else some (given.unlock, .tickle false)
  | .freeing => some ((s.setState .ready).unlock, .tickle false)
  | .tickle closer =>
    if s.waitConnCb.isEmpty then some (s.ticked closer, .done) else some (s, .tickleLocked closer)
  -- the callbacks are scheduled after the unlock, which nobody but the scheduler sees
  | .tickleLocked closer =>
    if s.locked then none
    else if s.pool.state = .closing then some ((s.take s.waitConnCb.length).ticked closer, .done)
    else some ((s.take (min s.pool.freeConnInfos.length s.waitConnCb.length)).ticked closer, .done)
  | .close => some ({ s.setState .closing with closeStored := true }, .tickle true)
  | .done => none

inductive Entry where
  | executeQuery
  | borrowOneConn
  | expand
  | registeConnCb
  | tickle
  | close

def Entry.point : Entry → Point
  | .executeQuery => .query
  | .borrowOneConn => .borrow .user
  | .expand => .expand .user
  | .registeConnCb => .register .user
  | .tickle => .tickle false
  | .close => .close

inductive ThreadAction (κ : Type*) where
  | start (e : Entry)
  | next (i : ℕ) (x : Input κ)

abbrev Threads (κ : Type*) := World (Shared κ) Point

def Threads.init (p : Pool κ) : Threads κ := ⟨{ pool := p }, []⟩

def Threads.step (w : Threads κ) : ThreadAction κ → Option (Threads κ)
  | .start e => some (w.enter e.point)
  | .next i x => w.advance (Point.run i x) i

/-! ### A closed pool -/

/-- Once `close` has stored `CLOSING` the pool is not running and no connection has been lent. -/
def Shared.StaysClosed (s : Shared κ) : Prop :=
  s.closeStored = true → s.pool.checkRunState = false ∧ s.lentLate = false

/-- A call that has loaded `m_state` for the last time and will still store to it or lend. -/
def Point.committed : Point → Bool
  | .taking _ | .filling _ | .freeing | .growing _ => true
  | _ => false

def Point.connects : Point → Bool
  | .connecting _ => true
  | _ => false

/-- `close` stores while no other call is committed, and after the store no `expand` makes
connections that let it store `READY`. -/
def closeGuard (w : Threads κ) : ThreadAction κ → Prop
  | .start _ => True
  | .next i x => ∀ c ∈ w.calls[i]?, (c = .close → ∀ d ∈ w.calls, d.committed = false) ∧
      (c.connects = true → w.shared.closeStored = true → ¬ w.shared.pool.opens x.connect)

instance (w : Threads κ) : DecidablePred (closeGuard w)
  | .start _ => isTrue trivial
  | .next i x => inferInstanceAs (Decidable (∀ c ∈ w.calls[i]?,
      (c = .close → ∀ d ∈ w.calls, d.committed = false) ∧
      (c.connects = true → w.shared.closeStored = true → ¬ w.shared.pool.opens x.connect)))

/-- The steps of an `expand` that nothing falls between. -/
theorem Pool.grown_store (p : Pool κ) (connect : ℤ → Bool) : (p.expandLocked connect).2 =
    if p.opens connect then { p.grown connect with state := .ready } else p.grown connect := by
  unfold grown opens expandLocked
  dsimp only
  by_cases hall : (connectFrom connect p.connectorCount p.increase.toNat).2 = true
  · by_cases hbusy : p.busyConnCount < p.connectorCount + p.increase
    · simp only [hall, hbusy, and_self, if_true, grow]
    · simp only [hall, hbusy, and_false, if_true, if_false, grow]
  · simp only [hall]
    rfl

/-- Away from `close`, the connections of `expand` and the points that may hand out a connection, a
step leaves the state of the pool alone, and only commits while the pool runs. -/
theorem Point.run_quiet {i : ℕ} {x : Input κ} {s s' : Shared κ} {c c' : Point}
    (h : c.run i x s = some (s', c')) (hclose : c ≠ .close) (hconnects : c.connects = false)
    (hcommitted : c.committed = false) :
    s'.closeStored = s.closeStored ∧ s'.lentLate = s.lentLate ∧ s'.pool.state = s.pool.state ∧
      (c'.committed = true → s.pool.checkRunState = true) := by
  have hnothing : ∀ k : Caller, k.gotNothing.committed = false := fun k => by cases k <;> rfl
  have hregistered : ∀ k : Caller, k.registered.committed = false := fun k => by cases k <;> rfl
  have hexpanded : ∀ k : Caller, k.expanded.committed = false := fun k => by cases k <;> rfl
  have hquiet : ∀ t : Shared κ, ∀ d : Point, t.closeStored = s.closeStored →
      t.lentLate = s.lentLate → t.pool.state = s.pool.state → d.committed = false →
      (t.closeStored = s.closeStored ∧ t.lentLate = s.lentLate ∧ t.pool.state = s.pool.state ∧
        (d.committed = true → s.pool.checkRunState = true)) := by
    intro t d h1 h2 h3 h4
    refine ⟨h1, h2, h3, fun hd => ?_⟩
    rw [h4] at hd
    cases hd
  cases c with
  | close => exact absurd rfl hclose
  | connecting k => cases hconnects
  | growing k => cases hcommitted
  | taking k => cases hcommitted
  | filling idx => cases hcommitted
  | freeing => cases hcommitted
  | query =>
    cases h
    exact hquiet _ _ rfl rfl rfl (by split <;> rfl)
  | borrow k =>
    simp only [run, Option.ite_none_left_eq_some] at h
    obtain ⟨-, h⟩ := h
    split at h
    · cases h
      exact hquiet _ _ rfl rfl rfl rfl
    · cases h
      exact hquiet _ _ rfl rfl rfl (hnothing k)
  | borrowFull k =>
    simp only [run] at h
    split at h
    · cases h
      exact hquiet _ _ rfl rfl rfl (hnothing k)
    · cases h
      exact hquiet _ _ rfl rfl rfl rfl
  | borrowReady k =>
    simp only [run] at h
    split at h
    · rename_i hready
      cases h
      refine ⟨rfl, rfl, rfl, fun _ => ?_⟩
      simp only [Pool.checkRunState, hready]
    · cases h
      exact hquiet _ _ rfl rfl rfl (hnothing k)
  | inUse idx =>
    cases h
    exact hquiet _ _ rfl rfl rfl rfl
  | room =>
    cases h
    exact hquiet _ _ rfl rfl rfl (by split <;> rfl)
  | expand k =>
    cases h
    exact hquiet _ _ rfl rfl rfl rfl
  | expandCheck k =>
    simp only [run] at h
    split at h
    · split at h
      · cases h
        exact hquiet _ _ rfl rfl rfl (hexpanded k)
      · cases h
    · cases h
      exact hquiet _ _ rfl rfl rfl rfl
  | expandLocked k =>
    simp only [run, Option.ite_none_left_eq_some] at h
    obtain ⟨-, h⟩ := h
    cases h
    exact hquiet _ _ rfl rfl rfl rfl
  | register k =>
    cases h
    refine hquiet _ _ rfl rfl rfl ?_
    split
    · rfl
    · exact hregistered k
  | registerLocked k =>
    simp only [run, Option.ite_none_left_eq_some] at h
    obtain ⟨-, h⟩ := h
    split at h
    · cases h
      exact hquiet _ _ rfl rfl rfl (hregistered k)
    · cases h
      exact hquiet _ _ rfl rfl rfl (hregistered k)
  | parked =>
    simp only [run] at h
    split at h
    · cases h
      exact hquiet _ _ rfl rfl rfl rfl
    · cases h
  | resumed =>
    cases h
    exact hquiet _ _ rfl rfl rfl (by split <;> rfl)
  | giveBack idx isTimeOut =>
    simp only [run, Option.ite_none_left_eq_some] at h
    obtain ⟨-, h⟩ := h
    split at h
    · cases h
      exact hquiet _ _ rfl rfl rfl rfl
    · split at h
      · cases h
        exact hquiet _ _ rfl rfl rfl rfl
      · cases h
        exact hquiet _ _ rfl rfl rfl rfl
  | reconnect idx =>
    simp only [run] at h
    split at h
    · cases h
      exact hquiet _ _ rfl rfl rfl rfl
    · cases h
      exact hquiet _ _ rfl rfl rfl rfl
  | relock idx =>
    simp only [run, Option.ite_none_left_eq_some] at h
    obtain ⟨-, h⟩ := h
    cases h
    exact hquiet _ _ rfl rfl rfl rfl
  | returning idx =>
    simp only [run] at h
    split at h
    · rename_i hfull
      cases h
      refine ⟨rfl, rfl, rfl, fun _ => ?_⟩
      simp only [Pool.checkRunState, hfull]
    · cases h
      exact hquiet _ _ rfl rfl rfl rfl
  | tickle closer =>
    simp only [run] at h
    split at h
    · cases h
      exact hquiet _ _ rfl rfl rfl rfl
    · cases h
      exact hquiet _ _ rfl rfl rfl rfl
  | tickleLocked closer =>
    simp only [run, Option.ite_none_left_eq_some] at h
    obtain ⟨-, h⟩ := h
    split at h
    · cases h
      exact hquiet _ _ rfl rfl rfl rfl
    · cases h
      exact hquiet _ _ rfl rfl rfl rfl
  | done => cases h

/-- The points that may hand out a connection leave `close` alone. -/
theorem Point.run_committed {i : ℕ} {x : Input κ} {s s' : Shared κ} {c c' : Point}
    (h : c.run i x s = some (s', c')) (hcommitted : c.committed = true) :
    s'.closeStored = s.closeStored ∧
      (s'.lentLate = s.lentLate ∨ s'.lentLate = (s.lentLate || s.closeStored)) := by
  cases c with
  | taking k =>
    simp only [run] at h
    split at h
    · cases h
      exact ⟨rfl, .inl rfl⟩
    · split at h
      · split at h
        · cases h
          exact ⟨rfl, .inl rfl⟩
        · cases h
          exact ⟨rfl, .inr rfl⟩
      · cases h
  | filling idx =>
    cases h
    exact ⟨rfl, .inr rfl⟩
  | freeing =>
    cases h
    exact ⟨rfl, .inl rfl⟩
  | growing k =>
    cases h
    exact ⟨rfl, .inl rfl⟩
  | _ => cases hcommitted

/-- The connections of `expand` leave the state alone, and commit it to a store. -/
theorem Point.run_connects {i : ℕ} {x : Input κ} {s s' : Shared κ} {c c' : Point}
    (h : c.run i x s = some (s', c')) (hconnects : c.connects = true) :
    s'.closeStored = s.closeStored ∧ s'.lentLate = s.lentLate ∧ s'.pool.state = s.pool.state ∧
      (c'.committed = true → s.pool.opens x.connect) := by
  cases c with
  | connecting k =>
    simp only [run] at h
    split at h
    · rename_i hopens
      cases h
      exact ⟨rfl, rfl, rfl, fun _ => hopens⟩
    · cases h
      refine ⟨rfl, rfl, rfl, fun hcom => ?_⟩
      cases k <;> cases hcom
  | _ => cases hconnects

theorem Point.run_cases {i : ℕ} {x : Input κ} {s s' : Shared κ} {c c' : Point}
    (h : c.run i x s = some (s', c')) :
    (c = .close ∧ s' = { s.setState .closing with closeStored := true } ∧ c' = .tickle true) ∨
    (c.committed = true ∧ s'.closeStored = s.closeStored ∧
      (s'.lentLate = s.lentLate ∨ s'.lentLate = (s.lentLate || s.closeStored))) ∨
    (s'.closeStored = s.closeStored ∧ s'.lentLate = s.lentLate ∧ s'.pool.state = s.pool.state ∧
      (c'.committed = true → s.pool.checkRunState = true ∨
        c.connects = true ∧ s.pool.opens x.connect)) := by
  by_cases hclose : c = .close
  · subst hclose
    cases h
    exact .inl ⟨rfl, rfl, rfl⟩
  · cases hconnects : c.connects with
    | true =>
      obtain ⟨hst, hlent, hstate, hopens⟩ := run_connects h hconnects
      exact .inr (.inr ⟨hst, hlent, hstate, fun hcom => .inr ⟨rfl, hopens hcom⟩⟩)
    | false =>
      cases hcommitted : c.committed with
      | false =>
        obtain ⟨hst, hlent, hstate, hruns⟩ := run_quiet h hclose hconnects hcommitted
        exact .inr (.inr ⟨hst, hlent, hstate, fun hcom => .inl (hruns hcom)⟩)
      | true => exact .inr (.inl ⟨rfl, run_committed h hcommitted⟩)

structure Threads.Closed (w : Threads κ) : Prop where
  state : w.shared.closeStored = true → w.shared.pool.state = .closing
  late : w.shared.lentLate = false
  calls : w.shared.closeStored = true → ∀ c ∈ w.calls, c.committed = false

theorem Threads.Closed.step {w w' : Threads κ} {a : ThreadAction κ} (h : w.Closed)
    (hg : closeGuard w a) (hs : w.step a = some w') : w'.Closed := by
  cases a with
  | start e =>
    cases hs
    refine ⟨h.state, h.late, fun hst => forall_enter (h.calls hst) ?_⟩
    cases e <;> rfl
  | next i x =>
    obtain ⟨c, s, c', hc, hrun, rfl⟩ := advance_cases hs
    obtain ⟨hclose, hconnects⟩ := hg c hc
    have hmem := List.mem_of_getElem? hc
    rcases Point.run_cases hrun with ⟨rfl, rfl, rfl⟩ | ⟨hcom, hst, hlent⟩ |
      ⟨hst, hlent, hstate, hcom⟩
    · exact ⟨fun _ => rfl, h.late, fun _ => forall_set (hclose rfl) (fun _ _ hd => hd) rfl⟩
    · -- a committed call means that `close` has not stored
      have hopen : w.shared.closeStored = false := by
        by_contra hstored
        rw [Bool.not_eq_false] at hstored
        rw [h.calls hstored c hmem] at hcom
        cases hcom
      rw [hopen, h.late, Bool.or_false, or_self] at hlent
      rw [hopen] at hst
      refine ⟨fun hs => ?_, hlent, fun hs => ?_⟩ <;> rw [hst] at hs <;> cases hs
    · refine ⟨fun hstored => ?_, hlent.trans h.late, fun hstored => ?_⟩
      · rw [hstate]
        exact h.state (hst ▸ hstored)
      · refine forall_set (h.calls (hst ▸ hstored)) (fun _ _ hd => hd) ?_
        rw [← Bool.not_eq_true]
        intro hcommitted
        rcases hcom hcommitted with hrunning | ⟨hmakes, hopens⟩
        · rw [Pool.checkRunState, h.state (hst ▸ hstored)] at hrunning
          cases hrunning
        · exact hconnects hmakes (hst ▸ hstored) hopens

/-- In a run whose steps all meet the guard a closed pool stays closed. -/
theorem closed_pool_stays_closed (p : Pool κ) (as : List (ThreadAction κ)) (w : Threads κ)
    (hg : Guarded Threads.step closeGuard (Threads.init p) as)
    (hw : exec Threads.step (Threads.init p) as = some w) : w.shared.StaysClosed := by
  have hinit : (Threads.init p).Closed := by
    refine ⟨?_, rfl, ?_⟩
    · intro hst
      cases hst
    · intro hst
      cases hst
  have hclosed := exec_guarded (fun s a t hi hga hst => Threads.Closed.step hi hga hst) hinit hg hw
  intro hstored
  refine ⟨?_, hclosed.late⟩
  rw [Pool.checkRunState, hclosed.state hstored]

def oneOfTwo : Pool ℕ := ⟨[0], [0, 1], 1, 0, 1, 2, .ready, 1⟩

def steps (n i : ℕ) : List (ThreadAction ℕ) := List.replicate n (.next i {})

def oneLent : List (ThreadAction ℕ) :=
  .start .executeQuery :: steps 6 0 ++ .start .executeQuery :: steps 3 1 ++ [.start .close]

def closedInTime : List (ThreadAction ℕ) :=
  oneLent ++ steps 2 2 ++ steps 4 1 ++ [.next 1 { connect := fun _ => false }] ++ steps 1 1

theorem closed_in_time_stays_closed :
    ∃ w, exec Threads.step (Threads.init oneOfTwo) closedInTime = some w ∧
      w.shared.closeStored = true ∧ w.shared.StaysClosed :=
  ⟨_, rfl, rfl, closed_pool_stays_closed oneOfTwo closedInTime _ (by decide) rfl⟩

/-- The same with a connection that succeeds: `expand` stores `READY` and the query gets it. -/
def expandedAfterClose : List (ThreadAction ℕ) := oneLent ++ steps 2 2 ++ steps 11 1

/-- `close` stores and returns while `expand` is connecting. -/
def closedWhileConnecting : List (ThreadAction ℕ) :=
  oneLent ++ steps 4 1 ++ steps 2 2 ++ steps 7 1

theorem expand_reopens_pool :
    (∃ w, exec Threads.step (Threads.init oneOfTwo) expandedAfterClose = some w ∧
      ¬ w.shared.StaysClosed ∧ w.shared.lentLate = true) ∧
    ∃ w, exec Threads.step (Threads.init oneOfTwo) closedWhileConnecting = some w ∧
      ¬ w.shared.StaysClosed ∧ w.shared.lentLate = true := by
  refine ⟨⟨_, rfl, fun h => ?_, rfl⟩, ⟨_, rfl, fun h => ?_, rfl⟩⟩
  · cases (h rfl).2
  · cases (h rfl).2

end MSylar.DBPool
