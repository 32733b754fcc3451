import MSylar.DBPool.Threads

/-!
# Queries that wait for a connection (database.hpp:61-85, database.tpp:108-222)

A query that finds no connection suspends in `GetConnAwaiter` and leaves its callback with the
pool. Whoever gives a connection back has to call `tickle`. Before the pool is closed a waiting
callback is answered for: a connection is still out, a callback has been scheduled, or some call
is on its way to `tickle` or to another `borrowOneConn`.
-/

namespace MSylar.DBPool
open MSylar.Calls MSylar.Execution
variable {κ : Type*}

def Point.rests : Point → Bool
  | .done | .parked | .inUse _ => true
  | _ => false

/-- No operation is in progress: a call is over, is suspended or uses its connection, and no
callback is waiting to be run. -/
def Threads.Idle (w : Threads κ) : Prop :=
  w.shared.scheduled = [] ∧ ∀ c ∈ w.calls, c.rests = true

structure Threads.NobodyStranded (w : Threads κ) : Prop where
  registered : ∀ i, w.calls[i]? = some .parked →
    i ∈ w.shared.waitConnCb ∨ i ∈ w.shared.scheduled
  served : w.Idle → w.shared.waitConnCb ≠ [] →
    w.shared.pool.checkRunState = true ∧ ∃ idx, Point.inUse idx ∈ w.calls
  closed : w.shared.closeReturned = true → w.shared.waitConnCb = []

/-- What a step must find so that no callback is forgotten by it. -/
def Point.remembers (x : Input κ) (s : Shared κ) : Point → Bool
  | .reconnect _ => x.fresh.isSome
  | .register _ => s.pool.checkRunState
  | .registerLocked _ => !s.closeReturned || s.pool.state ≠ .full
  | .tickleLocked true =>
    s.pool.state = .closing || s.waitConnCb.length ≤ s.pool.freeConnInfos.length
  | _ => true

def Entry.ofQueries : Entry → Bool
  | .executeQuery | .close => true
  | _ => false

/-- The only calls are `executeQuery` and `close`. A reconnect succeeds, `registeConnCb` finds
the pool running, the `tickle` of `close` finds `CLOSING` or as many connections as callbacks, and
`registeConnCb` does not find `FULL` after a `close` has returned. -/
def waitGuard (w : Threads κ) : ThreadAction κ → Prop
  | .start e => e.ofQueries = true
  | .next i x => ∀ c ∈ w.calls[i]?, c.remembers x w.shared = true

instance (w : Threads κ) : DecidablePred (waitGuard w)
  | .start e => inferInstanceAs (Decidable (e.ofQueries = true))
  | .next i x => inferInstanceAs (Decidable (∀ c ∈ w.calls[i]?, c.remembers x w.shared = true))

/-! ### The invariant -/

def Point.holdsLock : Point → ℕ
  | .borrowFull _ | .borrowReady _ | .taking _ | .filling _ | .connecting _ | .growing _
  | .returning _ | .freeing => 1
  | _ => 0

def Point.holds : Point → ℕ
  | .filling _ | .inUse _ | .giveBack _ _ | .reconnect _ | .relock _ | .returning _ => 1
  | _ => 0

/-- A call that will still call `tickle`, or borrow, or register again. -/
def Point.answers : Point → Bool
  | .borrow _ | .borrowFull _ | .borrowReady _ | .taking _ | .room | .expand _ | .expandCheck _
  | .expandLocked _ | .connecting _ | .growing _ | .register _ | .registerLocked _ | .resumed
  | .freeing | .tickle _ | .tickleLocked _ => true
  | _ => false

def Point.closes : Point → Bool
  | .tickle true | .tickleLocked true => true
  | _ => false

def PointOk (maxConnector : ℤ) : Point → Prop
  | .borrow k | .borrowFull k | .borrowReady k | .taking k | .expand k | .expandCheck k
  | .expandLocked k | .connecting k | .growing k | .register k | .registerLocked k => k = .query
  | .filling idx | .inUse idx | .giveBack idx _ | .reconnect idx | .relock idx
  | .returning idx => 0 ≤ idx ∧ idx < maxConnector
  | _ => True

-- While no `close` has stored.
structure Threads.Open (w : Threads κ) : Prop where
  running : w.shared.pool.state = .ready ∨ w.shared.pool.state = .full
  busy : w.shared.pool.busyConnCount = (w.calls.map Point.holds).sum
  full : w.shared.pool.state = .full → 1 ≤ w.shared.pool.busyConnCount ∨ .freeing ∈ w.calls
  waiting : w.shared.waitConnCb ≠ [] →
    1 ≤ w.shared.pool.freeConnInfos.length + w.shared.pool.busyConnCount ∧
    (1 ≤ w.shared.pool.busyConnCount ∨ w.shared.scheduled ≠ [] ∨
      ∃ c ∈ w.calls, c.answers = true)

structure Threads.Served (w : Threads κ) : Prop where
  lock : (w.calls.map Point.holdsLock).sum = w.shared.locked.toNat
  bound : w.shared.pool.connectorCount ≤ w.shared.pool.maxConnector
  calls : ∀ c ∈ w.calls, PointOk w.shared.pool.maxConnector c
  registered : ∀ i, w.calls[i]? = some .parked →
    i ∈ w.shared.waitConnCb ∨ i ∈ w.shared.scheduled
  opened : w.shared.closeStored = false → w.Open
  closer : ∀ c ∈ w.calls, c.closes = true → w.shared.closeStored = true
  closing : w.shared.closeStored = true → w.shared.closeReturned = false →
    ∃ c ∈ w.calls, c.closes = true
  closed : w.shared.closeReturned = true → w.shared.closeStored = true ∧ w.shared.waitConnCb = []

theorem Threads.Open.checkRunState {w : Threads κ} (h : w.Open) :
    w.shared.pool.checkRunState = true := by
  rcases h.running with hs | hs <;> simp only [Pool.checkRunState, hs]

theorem Threads.Open.busy_nonneg {w : Threads κ} (h : w.Open) :
    0 ≤ w.shared.pool.busyConnCount := by
  rw [h.busy]
  exact Int.natCast_nonneg _

theorem Threads.Open.busy_pos {w : Threads κ} (h : w.Open) {i : ℕ} {c : Point}
    (hc : w.calls[i]? = some c) (hh : c.holds = 1) : 1 ≤ w.shared.pool.busyConnCount := by
  have hle := le_sum (f := Point.holds) hc
  rw [h.busy]
  omega

theorem Threads.Served.locked {w : Threads κ} (h : w.Served) {i : ℕ} {c : Point}
    (hc : w.calls[i]? = some c) (hh : c.holdsLock = 1) : w.shared.locked = true := by
  have hle := le_sum (f := Point.holdsLock) hc
  have hlock := h.lock
  cases hl : w.shared.locked with
  | true => rfl
  | false =>
    rw [hl, Bool.toNat_false] at hlock
    omega

theorem Threads.Served.full_busy {w : Threads κ} (h : w.Served) (ho : w.Open)
    (hfree : w.shared.locked = false) (hfull : w.shared.pool.state = .full) :
    1 ≤ w.shared.pool.busyConnCount := by
  rcases ho.full hfull with hbusy | hmem
  · exact hbusy
  · obtain ⟨i, hi⟩ := List.getElem?_of_mem hmem
    rw [h.locked hi rfl] at hfree
    cases hfree

/-! ### Moving one call -/

structure Calm (s t : Shared κ) : Prop where
  free : t.pool.freeConnInfos = s.pool.freeConnInfos
  busy : t.pool.busyConnCount = s.pool.busyConnCount
  count : t.pool.connectorCount = s.pool.connectorCount
  max : t.pool.maxConnector = s.pool.maxConnector
  state : t.pool.state = s.pool.state
  wait : t.waitConnCb = s.waitConnCb
  scheduled : t.scheduled = s.scheduled
  stored : t.closeStored = s.closeStored
  returned : t.closeReturned = s.closeReturned

theorem Calm.refl (s : Shared κ) : Calm s s := ⟨rfl, rfl, rfl, rfl, rfl, rfl, rfl, rfl, rfl⟩

theorem Calm.lock (s : Shared κ) : Calm s s.lock := ⟨rfl, rfl, rfl, rfl, rfl, rfl, rfl, rfl, rfl⟩

theorem Calm.unlock (s : Shared κ) : Calm s s.unlock :=
  ⟨rfl, rfl, rfl, rfl, rfl, rfl, rfl, rfl, rfl⟩

theorem Threads.Served.advance {w : Threads κ} (h : w.Served) {i : ℕ} {c c' : Point} {s : Shared κ}
    (hc : w.calls[i]? = some c)
    (hlock : c'.holdsLock + w.shared.locked.toNat = c.holdsLock + s.locked.toNat)
    (hbound : s.pool.connectorCount ≤ s.pool.maxConnector)
    (hmax : s.pool.maxConnector = w.shared.pool.maxConnector)
    (hown : PointOk w.shared.pool.maxConnector c')
    (hothers : ∀ j, j ≠ i → j ∈ w.shared.waitConnCb ∨ j ∈ w.shared.scheduled →
      j ∈ s.waitConnCb ∨ j ∈ s.scheduled)
    (hself : c' = .parked → i ∈ s.waitConnCb ∨ i ∈ s.scheduled)
    (hopened : s.closeStored = false → Threads.Open ⟨s, w.calls.set i c'⟩)
    (hstored : w.shared.closeStored = true → s.closeStored = true)
    (hcloser : c'.closes = true → s.closeStored = true)
    (hclosing : s.closeStored = true → s.closeReturned = false →
      ∃ d ∈ w.calls.set i c', d.closes = true)
    (hclosed : s.closeReturned = true → s.closeStored = true ∧ s.waitConnCb = []) :
    Threads.Served ⟨s, w.calls.set i c'⟩ := by
  refine ⟨?_, hbound, ?_, ?_, hopened, ?_, hclosing, hclosed⟩
  · have hsum := sum_set Point.holdsLock hc c'
    have hw := h.lock
    dsimp only at hsum ⊢
    omega
  · dsimp only
    rw [hmax]
    exact forall_set h.calls (fun _ _ hd => hd) hown
  · have hidx : ∀ j d, w.calls[j]? = some d → d = .parked →
        j ∈ w.shared.waitConnCb ∨ j ∈ w.shared.scheduled :=
      fun j d hd hpk => h.registered j (hpk ▸ hd)
    intro j hj
    exact forall_set_idx hidx (fun j d hne hd hpk => hothers j hne (hd hpk)) hself j _ hj rfl
  · exact forall_set h.closer (fun d _ hd hcl => hstored (hd hcl)) hcloser

theorem Threads.Open.advance {w : Threads κ} (h : w.Open) {i : ℕ} {c c' : Point} {s : Shared κ}
    (hc : w.calls[i]? = some c) (hrunning : s.pool.state = .ready ∨ s.pool.state = .full)
    (hbusy : s.pool.busyConnCount + c.holds = w.shared.pool.busyConnCount + c'.holds)
    (hfull : s.pool.state = .full → 1 ≤ s.pool.busyConnCount ∨ .freeing ∈ w.calls.set i c')
    (hwaiting : s.waitConnCb ≠ [] → 1 ≤ s.pool.freeConnInfos.length + s.pool.busyConnCount ∧
      (1 ≤ s.pool.busyConnCount ∨ s.scheduled ≠ [] ∨ ∃ d ∈ w.calls.set i c', d.answers = true)) :
    Threads.Open ⟨s, w.calls.set i c'⟩ := by
  refine ⟨hrunning, ?_, hfull, hwaiting⟩
  have hsum := sum_set Point.holds hc c'
  have hw := h.busy
  dsimp only at hsum ⊢
  omega

theorem Threads.Served.calm {w : Threads κ} (h : w.Served) {i : ℕ} {c c' : Point} {s : Shared κ}
    (hc : w.calls[i]? = some c) (hs : Calm w.shared s)
    (hlock : c'.holdsLock + w.shared.locked.toNat = c.holdsLock + s.locked.toNat)
    (hown : PointOk w.shared.pool.maxConnector c')
    (hholds : w.shared.closeStored = false → c'.holds = c.holds)
    (hanswers : w.shared.closeStored = false → c.answers = true → w.shared.waitConnCb ≠ [] →
      c'.answers = true)
    (hfreeing : c ≠ .freeing) (hparked : c' ≠ .parked)
    (hcloses : c'.closes = c.closes) : Threads.Served ⟨s, w.calls.set i c'⟩ := by
  refine h.advance hc hlock ?_ hs.max hown ?_ (fun heq => absurd heq hparked) ?_
    (fun hst => hs.stored.trans hst) ?_ ?_ ?_
  · rw [hs.count, hs.max]
    exact h.bound
  · rw [hs.wait, hs.scheduled]
    exact fun _ _ hj => hj
  · intro hst
    rw [hs.stored] at hst
    have ho := h.opened hst
    refine ho.advance hc (hs.state ▸ ho.running) ?_ ?_ ?_
    · rw [hs.busy, hholds hst]
    · rw [hs.state, hs.busy]
      intro hfull
      exact (ho.full hfull).imp_right fun hmem => mem_set_of_ne hc c' hmem hfreeing.symm
    · rw [hs.wait, hs.free, hs.busy, hs.scheduled]
      intro hwait
      obtain ⟨hone, hans⟩ := ho.waiting hwait
      refine ⟨hone, hans.imp_right fun hans => hans.imp_right fun hex => ?_⟩
      exact exists_set hc (fun ha => hanswers hst ha hwait) hex
  · rw [hcloses, hs.stored]
    exact h.closer c (List.mem_of_getElem? hc)
  · rw [hs.stored, hs.returned]
    exact fun hst hret => exists_set hc (fun hcl => hcloses.trans hcl) (h.closing hst hret)
  · rw [hs.stored, hs.returned, hs.wait]
    exact h.closed

/-- The call moves on without a connection changing hands. -/
structure Point.Keeps (c c' : Point) : Prop where
  holds : c'.holds = c.holds
  answers : c.answers = true → c'.answers = true
  freeing : c ≠ .freeing
  parked : c' ≠ .parked
  closes : c'.closes = c.closes

section
variable {w : Threads κ} {i : ℕ} {c c' : Point}

theorem Threads.Served.stays (h : w.Served) (hc : w.calls[i]? = some c) (hk : c.Keeps c')
    (hlock : c'.holdsLock = c.holdsLock) (hown : PointOk w.shared.pool.maxConnector c') :
    Threads.Served ⟨w.shared, w.calls.set i c'⟩ :=
  h.calm hc (.refl _) (by rw [hlock]) hown (fun _ => hk.holds) (fun _ ha _ => hk.answers ha)
    hk.freeing hk.parked hk.closes

theorem Threads.Served.locks (h : w.Served) (hc : w.calls[i]? = some c) (hk : c.Keeps c')
    (hfree : w.shared.locked = false) (hlock : c'.holdsLock = c.holdsLock + 1)
    (hown : PointOk w.shared.pool.maxConnector c') :
    Threads.Served ⟨w.shared.lock, w.calls.set i c'⟩ := by
  refine h.calm hc (.lock _) ?_ hown (fun _ => hk.holds) (fun _ ha _ => hk.answers ha)
    hk.freeing hk.parked hk.closes
  rw [hfree, hlock]
  rfl

theorem Threads.Served.unlocks (h : w.Served) (hc : w.calls[i]? = some c) (hk : c.Keeps c')
    (hheld : c.holdsLock = 1) (hlock : c'.holdsLock = 0)
    (hown : PointOk w.shared.pool.maxConnector c') :
    Threads.Served ⟨w.shared.unlock, w.calls.set i c'⟩ := by
  refine h.calm hc (.unlock _) ?_ hown (fun _ => hk.holds) (fun _ ha _ => hk.answers ha)
    hk.freeing hk.parked hk.closes
  rw [h.locked hc hheld, hheld, hlock]
  rfl

end

/-! ### The steps that do more -/

variable {w : Threads κ} {i : ℕ}

theorem Threads.Served.taken (h : w.Served) {k : Caller} {c' : Point} {s : Shared κ} {idx : ℤ}
    {rest : List ℤ} (hc : w.calls[i]? = some (.taking k))
    (hrange : 0 ≤ idx ∧ idx < w.shared.pool.connectorCount)
    (hs : Calm { w.shared with pool := { w.shared.pool with
      freeConnInfos := rest, busyConnCount := w.shared.pool.busyConnCount + 1 } } s)
    (hc' : c' = .filling idx ∧ s.locked = w.shared.locked ∨ c' = .inUse idx ∧ s.locked = false) :
    Threads.Served ⟨s, w.calls.set i c'⟩ := by
  have hbound := h.bound
  have hlocked := h.locked hc rfl
  have hkind : c'.holds = 1 ∧ PointOk w.shared.pool.maxConnector c' ∧ c' ≠ .parked ∧
      c'.closes = false ∧ c'.holdsLock + w.shared.locked.toNat = 1 + s.locked.toNat := by
    rcases hc' with ⟨rfl, hl⟩ | ⟨rfl, hl⟩
    · exact ⟨rfl, ⟨hrange.1, by omega⟩, Point.noConfusion, rfl, by rw [hl]; rfl⟩
    · exact ⟨rfl, ⟨hrange.1, by omega⟩, Point.noConfusion, rfl, by rw [hl, hlocked]; rfl⟩
  obtain ⟨hholds, hown, hpk, hcl, hlock⟩ := hkind
  refine h.advance hc hlock ?_ hs.max hown ?_ (fun heq => absurd heq hpk) ?_
    (fun hst => hs.stored.trans hst) (fun hx => ?_) ?_ ?_
  · rw [hs.count, hs.max]
    exact hbound
  · rw [hs.wait, hs.scheduled]
    exact fun _ _ hj => hj
  · intro hst
    rw [hs.stored] at hst
    have ho := h.opened hst
    have hbusy := ho.busy_nonneg
    have hpos : 1 ≤ s.pool.busyConnCount := by
      rw [hs.busy]
      dsimp only
      omega
    refine ho.advance hc (hs.state ▸ ho.running) ?_ (fun _ => .inl hpos) (fun _ => ⟨?_, .inl hpos⟩)
    · rw [hs.busy, hholds]
      simp only [Point.holds]
      omega
    · omega
  · rw [hcl] at hx
    cases hx
  · rw [hs.stored, hs.returned]
    refine fun hst hret => exists_set hc (fun hx => ?_) (h.closing hst hret)
    cases hx
  · rw [hs.stored, hs.returned, hs.wait]
    exact h.closed

theorem Threads.Served.filled (h : w.Served) {idx : ℤ} (hc : w.calls[i]? = some (.filling idx)) :
    Threads.Served ⟨(w.shared.setState .full).lend, w.calls.set i (.inUse idx)⟩ := by
  have hlocked := h.locked hc rfl
  have hown : PointOk w.shared.pool.maxConnector (.filling idx) :=
    h.calls _ (List.mem_of_getElem? hc)
  refine h.advance hc ?_ h.bound rfl hown (fun _ _ hj => hj) Point.noConfusion ?_ (fun hst => hst)
    (fun hx => by cases hx) ?_ h.closed
  · rw [hlocked]
    rfl
  · intro hst
    have ho := h.opened hst
    have hpos := ho.busy_pos hc rfl
    refine ho.advance hc (.inr rfl) rfl (fun _ => .inl hpos) (fun hwait => ?_)
    exact ⟨(ho.waiting hwait).1, .inl hpos⟩
  · refine fun hst hret => exists_set hc (fun hx => ?_) (h.closing hst hret)
    cases hx

theorem Pool.connectFrom_last {connect : ℤ → Bool} {j : ℤ} {n : ℕ}
    (h : (Pool.connectFrom connect j n).2 = false) :
    (Pool.connectFrom connect j n).1.getLastD 0 < j + n := by
  induction n generalizing j with
  | zero => cases h
  | succ n ih =>
    unfold Pool.connectFrom at h ⊢
    split at h
    · rename_i hj
      have hi := ih h
      rw [if_pos hj]
      cases hr : (Pool.connectFrom connect (j + 1) n).1 with
      | nil =>
        simp only [hr, List.getLastD_cons, List.getLastD_nil]
        omega
      | cons y ys =>
        rw [hr] at hi
        simp only [hr, List.getLastD_cons] at hi ⊢
        omega
    · rename_i hj
      rw [if_neg hj]
      simp only [List.getLastD_cons, List.getLastD_nil]
      omega

-- `expand` keeps the count within bounds and takes nothing away.
theorem Pool.grown_spec (p : Pool κ) (connect : ℤ → Bool) :
    (p.grown connect).connectorCount ≤ p.maxConnector ∧
    (p.grown connect).maxConnector = p.maxConnector ∧
    (p.grown connect).busyConnCount = p.busyConnCount ∧
    p.freeConnInfos.length ≤ (p.grown connect).freeConnInfos.length := by
  have hinc : p.increase ≤ p.maxConnector - p.connectorCount := by
    unfold Pool.increase
    dsimp only
    split <;> omega
  unfold Pool.grown Pool.expandLocked
  dsimp only
  split
  · refine ⟨?_, rfl, rfl, ?_⟩
    · simp only [Pool.grow]
      omega
    · simp only [Pool.grow, List.length_append]
      omega
  · rename_i hfail
    have hlast := Pool.connectFrom_last (Bool.not_eq_true _ ▸ hfail)
    refine ⟨?_, rfl, rfl, ?_⟩
    · dsimp only
      by_cases hpos : 0 ≤ p.increase
      · rw [Int.toNat_of_nonneg hpos] at hlast
        omega
      · rw [Int.toNat_eq_zero.mpr (by omega)] at hfail
        exact absurd rfl hfail
    · dsimp only
      rw [List.length_append]
      omega

theorem Threads.Served.connected (h : w.Served) (hc : w.calls[i]? = some (.connecting .query))
    (connect : ℤ → Bool) {c' : Point} {locked : Bool}
    (hc' : c' = .growing .query ∧ locked = w.shared.locked ∨
      c' = .borrow .query ∧ locked = false) :
    Threads.Served ⟨{ w.shared with pool := w.shared.pool.grown connect, locked := locked },
      w.calls.set i c'⟩ := by
  obtain ⟨hcount, hmax, hbusy, hfree⟩ := Pool.grown_spec w.shared.pool connect
  have hlocked := h.locked hc rfl
  have hkind : c'.holds = 0 ∧ c'.answers = true ∧ PointOk w.shared.pool.maxConnector c' ∧
      c' ≠ .parked ∧ c'.closes = false ∧
      c'.holdsLock + w.shared.locked.toNat = 1 + locked.toNat := by
    rcases hc' with ⟨rfl, hl⟩ | ⟨rfl, hl⟩
    · exact ⟨rfl, rfl, rfl, Point.noConfusion, rfl, by rw [hl]; rfl⟩
    · exact ⟨rfl, rfl, rfl, Point.noConfusion, rfl, by rw [hl, hlocked]; rfl⟩
  obtain ⟨hholds, hans, hown, hpk, hcl, hlock⟩ := hkind
  refine h.advance hc hlock (hmax.symm ▸ hcount) hmax hown (fun _ _ hj => hj)
    (fun heq => absurd heq hpk) ?_ (fun hst => hst) (fun hx => ?_) ?_ h.closed
  · intro hst
    have ho := h.opened hst
    refine ho.advance hc ho.running ?_ (fun hfull => ?_) fun hwait => ?_
    · dsimp only
      rw [hbusy, hholds]
      rfl
    · dsimp only
      rw [hbusy]
      exact (ho.full hfull).imp_right fun hmem => mem_set_of_ne hc _ hmem Point.noConfusion
    · have hone := (ho.waiting hwait).1
      dsimp only
      rw [hbusy]
      exact ⟨by omega, .inr (.inr ⟨_, mem_set_self hc _, hans⟩)⟩
  · rw [hcl] at hx
    cases hx
  · refine fun hst hret => exists_set hc (fun hx => ?_) (h.closing hst hret)
    cases hx

theorem Threads.Served.registers (h : w.Served) (hc : w.calls[i]? = some (.registerLocked .query))
    (hfree : w.shared.locked = false)
    (hg : w.shared.closeReturned = true → w.shared.pool.state ≠ .full) :
    Threads.Served ⟨if w.shared.pool.state ≠ .full then
        { w.shared with scheduled := w.shared.scheduled ++ [i] }
      else { w.shared with waitConnCb := w.shared.waitConnCb ++ [i] },
      w.calls.set i .parked⟩ := by
  have hclosing : w.shared.closeStored = true → w.shared.closeReturned = false →
      ∃ d ∈ w.calls.set i .parked, d.closes = true := by
    refine fun hst hret => exists_set hc (fun hx => ?_) (h.closing hst hret)
    cases hx
  have hstay : ∀ ho : w.Open, w.shared.pool.state = .full →
      1 ≤ w.shared.pool.busyConnCount ∨ .freeing ∈ w.calls.set i .parked := fun ho hfull =>
    .inl (h.full_busy ho hfree hfull)
  by_cases hfull : w.shared.pool.state = .full
  · rw [if_neg (not_not.mpr hfull)]
    refine h.advance hc rfl h.bound rfl trivial ?_ ?_ ?_ (fun hst => hst) (fun hx => by cases hx)
      hclosing (fun hret => absurd hfull (hg hret))
    · exact fun j _ hj => hj.imp_left (List.mem_append_left _)
    · exact fun _ => .inl (List.mem_append_right _ (List.mem_singleton_self i))
    · intro hst
      have ho := h.opened hst
      have hpos := h.full_busy ho hfree hfull
      exact ho.advance hc ho.running rfl (hstay ho) fun _ => ⟨by dsimp only; omega, .inl hpos⟩
  · rw [if_pos hfull]
    refine h.advance hc rfl h.bound rfl trivial ?_ ?_ ?_ (fun hst => hst) (fun hx => by cases hx)
      hclosing h.closed
    · exact fun j _ hj => hj.imp_right (List.mem_append_left _)
    · exact fun _ => .inr (List.mem_append_right _ (List.mem_singleton_self i))
    · intro hst
      have ho := h.opened hst
      refine ho.advance hc ho.running rfl (hstay ho) fun hwait => ⟨(ho.waiting hwait).1, .inr (.inl ?_)⟩
      exact List.append_ne_nil_of_right_ne_nil _ (List.cons_ne_nil i [])

theorem Threads.Served.resumes (h : w.Served) (hc : w.calls[i]? = some .parked) :
    Threads.Served ⟨{ w.shared with scheduled := w.shared.scheduled.erase i },
      w.calls.set i .resumed⟩ := by
  refine h.advance hc rfl h.bound rfl trivial ?_ Point.noConfusion ?_ (fun hst => hst)
    (fun hx => by cases hx) ?_ h.closed
  · exact fun j hj hmem => hmem.imp_right (List.mem_erase_of_ne hj).mpr
  · intro hst
    have ho := h.opened hst
    refine ho.advance hc ho.running rfl (fun hfull => ?_) fun hwait => ⟨(ho.waiting hwait).1, ?_⟩
    · exact (ho.full hfull).imp_right fun hmem => mem_set_of_ne hc _ hmem Point.noConfusion
    · exact .inr (.inr ⟨_, mem_set_self hc _, rfl⟩)
  · refine fun hst hret => exists_set hc (fun hx => ?_) (h.closing hst hret)
    cases hx

theorem Threads.Served.returns (h : w.Served) {idx : ℤ} (hc : w.calls[i]? = some (.returning idx))
    {c' : Point} {s : Shared κ}
    (hs : Calm { w.shared with pool := { w.shared.pool with
      freeConnInfos := w.shared.pool.freeConnInfos ++ [idx]
      busyConnCount := w.shared.pool.busyConnCount - 1 } } s)
    (hc' : c' = .freeing ∧ s.locked = w.shared.locked ∨
      c' = .tickle false ∧ s.locked = false ∧ w.shared.pool.state ≠ .full) :
    Threads.Served ⟨s, w.calls.set i c'⟩ := by
  have hlocked := h.locked hc rfl
  have hkind : c'.holds = 0 ∧ c'.answers = true ∧ PointOk w.shared.pool.maxConnector c' ∧
      c' ≠ .parked ∧ c'.closes = false ∧
      c'.holdsLock + w.shared.locked.toNat = 1 + s.locked.toNat := by
    rcases hc' with ⟨rfl, hl⟩ | ⟨rfl, hl, -⟩
    · exact ⟨rfl, rfl, trivial, Point.noConfusion, rfl, by rw [hl]; rfl⟩
    · exact ⟨rfl, rfl, trivial, Point.noConfusion, rfl, by rw [hl, hlocked]; rfl⟩
  obtain ⟨hholds, hans, hown, hpk, hcl, hlock⟩ := hkind
  refine h.advance hc hlock ?_ hs.max hown ?_ (fun heq => absurd heq hpk) ?_
    (fun hst => hs.stored.trans hst) (fun hx => ?_) ?_ ?_
  · rw [hs.count, hs.max]
    exact h.bound
  · rw [hs.wait, hs.scheduled]
    exact fun _ _ hj => hj
  · intro hst
    rw [hs.stored] at hst
    have ho := h.opened hst
    have hpos := ho.busy_pos hc rfl
    refine ho.advance hc (hs.state ▸ ho.running) ?_ ?_ ?_
    · rw [hs.busy, hholds]
      simp only [Point.holds]
      omega
    · intro hfull
      rw [hs.state] at hfull
      rcases hc' with ⟨rfl, -⟩ | ⟨-, -, hne⟩
      · exact .inr (mem_set_self hc _)
      · exact absurd hfull hne
    · intro _
      refine ⟨?_, .inr (.inr ⟨c', mem_set_self hc c', hans⟩)⟩
      rw [hs.free, hs.busy]
      dsimp only
      rw [List.length_append, List.length_singleton]
      omega
  · rw [hcl] at hx
    cases hx
  · rw [hs.stored, hs.returned]
    refine fun hst hret => exists_set hc (fun hx => ?_) (h.closing hst hret)
    cases hx
  · rw [hs.stored, hs.returned, hs.wait]
    exact h.closed

/-- The store of `READY` that ends a locked region. -/
theorem Threads.Served.readied (h : w.Served) {c c' : Point} (hc : w.calls[i]? = some c)
    (hpoint : c = .freeing ∧ c' = .tickle false ∨ c = .growing .query ∧ c' = .borrow .query) :
    Threads.Served ⟨(w.shared.setState .ready).unlock, w.calls.set i c'⟩ := by
  have hkind : c.holdsLock = 1 ∧ c'.holdsLock = 0 ∧ c'.holds = c.holds ∧ c.closes = false ∧
      c'.answers = true ∧ PointOk w.shared.pool.maxConnector c' ∧ c' ≠ .parked ∧
      c'.closes = false := by
    rcases hpoint with ⟨rfl, rfl⟩ | ⟨rfl, rfl⟩
    · exact ⟨rfl, rfl, rfl, rfl, rfl, trivial, Point.noConfusion, rfl⟩
    · exact ⟨rfl, rfl, rfl, rfl, rfl, rfl, Point.noConfusion, rfl⟩
  obtain ⟨hheld, hlock, hholds, hcl, hans, hown, hpk, hcl'⟩ := hkind
  have hlocked := h.locked hc hheld
  refine h.advance hc ?_ h.bound rfl hown (fun _ _ hj => hj) (fun heq => absurd heq hpk) ?_
    (fun hst => hst) (fun hx => ?_) ?_ h.closed
  · rw [hlocked, hheld, hlock]
    rfl
  · intro hst
    have ho := h.opened hst
    refine ho.advance hc (.inl rfl) ?_ (fun hfull => by cases hfull) fun hwait => ?_
    · rw [hholds]
      rfl
    · exact ⟨(ho.waiting hwait).1, .inr (.inr ⟨_, mem_set_self hc _, hans⟩)⟩
  · rw [hcl'] at hx
    cases hx
  · refine fun hst hret => exists_set hc (fun hx => ?_) (h.closing hst hret)
    rw [hcl] at hx
    cases hx

/-- `tickle` ends having taken `n` callbacks: all of them if `close` has called it, and at least
one while there is a free connection. -/
theorem Threads.Served.ticks (h : w.Served) {closer : Bool} {c : Point} (n : ℕ)
    (hc : w.calls[i]? = some c) (hpoint : c = .tickle closer ∨ c = .tickleLocked closer)
    (hall : closer = true → w.shared.waitConnCb.length ≤ n)
    (hsome : w.shared.closeStored = false → n < w.shared.waitConnCb.length →
      w.shared.pool.freeConnInfos.length ≤ n) :
    Threads.Served ⟨(w.shared.take n).ticked closer, w.calls.set i .done⟩ := by
  have hkind : c.holdsLock = 0 ∧ c.holds = 0 ∧ c ≠ .freeing ∧ c.closes = closer := by
    rcases hpoint with rfl | rfl <;> cases closer <;>
      exact ⟨rfl, rfl, Point.noConfusion, rfl⟩
  obtain ⟨hlock, hholds, hfreeing, hcloses⟩ := hkind
  refine h.advance hc ?_ h.bound rfl trivial ?_ Point.noConfusion ?_ (fun hst => hst)
    (fun hx => by cases hx) ?_ ?_
  · rw [hlock]
    rfl
  · intro j _ hj
    simp only [Shared.take, Shared.ticked]
    rcases hj with hj | hj
    · rw [← List.take_append_drop n w.shared.waitConnCb] at hj
      rcases List.mem_append.mp hj with hj | hj
      · exact .inr (List.mem_append_right _ hj)
      · exact .inl hj
    · exact .inr (List.mem_append_left _ hj)
  · intro hst
    have ho := h.opened hst
    refine ho.advance hc ho.running ?_ (fun hfull => ?_) fun hwait => ?_
    · rw [hholds]
      rfl
    · exact (ho.full hfull).imp_right fun hmem => mem_set_of_ne hc _ hmem hfreeing.symm
    · have hlen : n < w.shared.waitConnCb.length := by
        by_contra hge
        exact hwait (List.drop_eq_nil_of_le (Nat.not_lt.mp hge))
      have hne : w.shared.waitConnCb ≠ [] := List.ne_nil_of_length_pos (Nat.zero_lt_of_lt hlen)
      have hone := (ho.waiting hne).1
      have hleft := hsome hst hlen
      refine ⟨hone, ?_⟩
      by_cases hbusy : 1 ≤ w.shared.pool.busyConnCount
      · exact .inl hbusy
      · refine .inr (.inl ?_)
        refine List.append_ne_nil_of_right_ne_nil _ (List.ne_nil_of_length_pos ?_)
        rw [List.length_take]
        omega
  · intro hst hret
    obtain ⟨hret', hcloser⟩ := Bool.or_eq_false_iff.mp hret
    refine exists_set hc (fun hx => ?_) (h.closing hst hret')
    rw [hcloses, hcloser] at hx
    cases hx
  · intro hret
    rcases Bool.or_eq_true_iff.mp hret with hret | hcloser
    · obtain ⟨hst, hnil⟩ := h.closed hret
      refine ⟨hst, ?_⟩
      simp only [Shared.take, Shared.ticked, hnil, List.drop_nil]
    · refine ⟨h.closer c (List.mem_of_getElem? hc) (hcloses.trans hcloser), ?_⟩
      exact List.drop_eq_nil_of_le (hall hcloser)

theorem Threads.Served.closes (h : w.Served) (hc : w.calls[i]? = some .close) :
    Threads.Served ⟨{ w.shared.setState .closing with closeStored := true },
      w.calls.set i (.tickle true)⟩ := by
  refine h.advance hc rfl h.bound rfl trivial (fun _ _ hj => hj) Point.noConfusion
    (fun hst => by cases hst) (fun _ => rfl) (fun _ => rfl) ?_ ?_
  · exact fun _ _ => ⟨_, mem_set_self hc _, rfl⟩
  · exact fun hret => ⟨rfl, (h.closed hret).2⟩

/-! ### Steps and runs -/

theorem Threads.Served.run (h : w.Served) {c c' : Point} {x : Input κ} {s : Shared κ}
    (hc : w.calls[i]? = some c) (hg : c.remembers x w.shared = true)
    (hrun : c.run i x w.shared = some (s, c')) : Threads.Served ⟨s, w.calls.set i c'⟩ := by
  have hok : PointOk w.shared.pool.maxConnector c := h.calls c (List.mem_of_getElem? hc)
  have hrunning : w.shared.closeStored = false → w.shared.pool.checkRunState = true := fun hst =>
    (h.opened hst).checkRunState
  cases c with
  | query =>
    simp only [Point.run, Option.some.injEq, Prod.mk.injEq] at hrun
    obtain ⟨rfl, rfl⟩ := hrun
    split
    · exact h.stays hc ⟨rfl, Bool.noConfusion, Point.noConfusion, Point.noConfusion, rfl⟩ rfl rfl
    · exact h.stays hc ⟨rfl, Bool.noConfusion, Point.noConfusion, Point.noConfusion, rfl⟩ rfl trivial
  | borrow k =>
    cases hok
    simp only [Point.run, Option.ite_none_left_eq_some, Bool.not_eq_true] at hrun
    obtain ⟨hfree, hrun⟩ := hrun
    split at hrun
    · cases hrun
      exact h.locks hc ⟨rfl, fun _ => rfl, Point.noConfusion, Point.noConfusion, rfl⟩ hfree rfl rfl
    · cases hrun
      exact h.stays hc ⟨rfl, fun _ => rfl, Point.noConfusion, Point.noConfusion, rfl⟩ rfl trivial
  | borrowFull k =>
    cases hok
    simp only [Point.run] at hrun
    split at hrun
    · cases hrun
      exact h.unlocks hc ⟨rfl, fun _ => rfl, Point.noConfusion, Point.noConfusion, rfl⟩ rfl rfl trivial
    · cases hrun
      exact h.stays hc ⟨rfl, fun _ => rfl, Point.noConfusion, Point.noConfusion, rfl⟩ rfl rfl
  | borrowReady k =>
    cases hok
    simp only [Point.run] at hrun
    split at hrun
    · cases hrun
      exact h.stays hc ⟨rfl, fun _ => rfl, Point.noConfusion, Point.noConfusion, rfl⟩ rfl rfl
    · cases hrun
      exact h.unlocks hc ⟨rfl, fun _ => rfl, Point.noConfusion, Point.noConfusion, rfl⟩ rfl rfl trivial
  | taking k =>
    cases hok
    simp only [Point.run] at hrun
    split at hrun
    · cases hrun
      exact h.unlocks hc ⟨rfl, fun _ => rfl, Point.noConfusion, Point.noConfusion, rfl⟩ rfl rfl trivial
    · split at hrun
      · rename_i hrange
        split at hrun
        · cases hrun
          exact h.taken hc hrange (.refl _) (.inl ⟨rfl, rfl⟩)
        · cases hrun
          exact h.taken hc hrange ⟨rfl, rfl, rfl, rfl, rfl, rfl, rfl, rfl, rfl⟩ (.inr ⟨rfl, rfl⟩)
      · cases hrun
  | filling idx =>
    cases hrun
    exact h.filled hc
  | inUse idx =>
    cases hrun
    exact h.stays hc ⟨rfl, Bool.noConfusion, Point.noConfusion, Point.noConfusion, rfl⟩ rfl hok
  | room =>
    simp only [Point.run, Option.some.injEq, Prod.mk.injEq] at hrun
    obtain ⟨rfl, rfl⟩ := hrun
    split
    · exact h.stays hc ⟨rfl, fun _ => rfl, Point.noConfusion, Point.noConfusion, rfl⟩ rfl rfl
    · exact h.stays hc ⟨rfl, fun _ => rfl, Point.noConfusion, Point.noConfusion, rfl⟩ rfl rfl
  | expand k =>
    cases hrun
    exact h.stays hc ⟨rfl, fun _ => rfl, Point.noConfusion, Point.noConfusion, rfl⟩ rfl hok
  | expandCheck k =>
    cases hok
    simp only [Point.run] at hrun
    split at hrun
    · split at hrun
      · cases hrun
        exact h.stays hc ⟨rfl, fun _ => rfl, Point.noConfusion, Point.noConfusion, rfl⟩ rfl rfl
      · cases hrun
    · cases hrun
      exact h.stays hc ⟨rfl, fun _ => rfl, Point.noConfusion, Point.noConfusion, rfl⟩ rfl rfl
  | expandLocked k =>
    cases hok
    simp only [Point.run, Option.ite_none_left_eq_some, Bool.not_eq_true] at hrun
    obtain ⟨hfree, hrun⟩ := hrun
    cases hrun
    exact h.locks hc ⟨rfl, fun _ => rfl, Point.noConfusion, Point.noConfusion, rfl⟩ hfree rfl rfl
  | connecting k =>
    cases hok
    simp only [Point.run] at hrun
    split at hrun
    · cases hrun
      exact h.connected hc x.connect (.inl ⟨rfl, rfl⟩)
    · cases hrun
      exact h.connected hc x.connect (.inr ⟨rfl, rfl⟩)
  | growing k =>
    cases hok
    cases hrun
    exact h.readied hc (.inr ⟨rfl, rfl⟩)
  | register k =>
    have hrun' : w.shared.pool.checkRunState = true := hg
    simp only [Point.run, hrun', if_true, Option.some.injEq, Prod.mk.injEq] at hrun
    obtain ⟨rfl, rfl⟩ := hrun
    exact h.stays hc ⟨rfl, fun _ => rfl, Point.noConfusion, Point.noConfusion, rfl⟩ rfl hok
  | registerLocked k =>
    cases hok
    have hg' : w.shared.closeReturned = true → w.shared.pool.state ≠ .full := by
      intro hret
      simpa [Point.remembers, hret] using hg
    simp only [Point.run, Option.ite_none_left_eq_some, Bool.not_eq_true] at hrun
    obtain ⟨hfree, hrun⟩ := hrun
    have hreg := h.registers hc hfree hg'
    split at hrun
    · rename_i hne
      cases hrun
      rwa [if_pos hne] at hreg
    · rename_i hfull
      cases hrun
      rwa [if_neg hfull] at hreg
  | parked =>
    simp only [Point.run] at hrun
    split at hrun
    · cases hrun
      exact h.resumes hc
    · cases hrun
  | resumed =>
    simp only [Point.run, Option.some.injEq, Prod.mk.injEq] at hrun
    obtain ⟨rfl, rfl⟩ := hrun
    split
    · exact h.stays hc ⟨rfl, fun _ => rfl, Point.noConfusion, Point.noConfusion, rfl⟩ rfl rfl
    · rename_i hstop
      exact h.calm hc (.refl _) rfl trivial (fun _ => rfl)
        (fun hst _ _ => absurd (hrunning hst) hstop) Point.noConfusion Point.noConfusion rfl
  | giveBack idx isTimeOut =>
    simp only [Point.run, Option.ite_none_left_eq_some, Bool.not_eq_true] at hrun
    obtain ⟨hfree, hrun⟩ := hrun
    split at hrun
    · rename_i hrefused
      cases hrun
      refine h.calm hc (.refl _) rfl trivial (fun hst => ?_) (fun _ ha => by cases ha)
        Point.noConfusion Point.noConfusion rfl
      -- a running pool takes back every index it has lent
      obtain ⟨hlow, hhigh⟩ := hok
      simp [hrunning hst] at hrefused
      omega
    · split at hrun
      · cases hrun
        exact h.stays hc ⟨rfl, Bool.noConfusion, Point.noConfusion, Point.noConfusion, rfl⟩ rfl hok
      · cases hrun
        exact h.locks hc ⟨rfl, Bool.noConfusion, Point.noConfusion, Point.noConfusion, rfl⟩ hfree rfl hok
  | reconnect idx =>
    obtain ⟨c, hx⟩ := Option.isSome_iff_exists.mp hg
    simp only [Point.run, hx, Option.some.injEq, Prod.mk.injEq] at hrun
    obtain ⟨rfl, rfl⟩ := hrun
    exact h.calm hc ⟨rfl, rfl, rfl, rfl, rfl, rfl, rfl, rfl, rfl⟩ rfl hok (fun _ => rfl)
      (fun _ ha => by cases ha) Point.noConfusion Point.noConfusion rfl
  | relock idx =>
    simp only [Point.run, Option.ite_none_left_eq_some, Bool.not_eq_true] at hrun
    obtain ⟨hfree, hrun⟩ := hrun
    cases hrun
    exact h.locks hc ⟨rfl, Bool.noConfusion, Point.noConfusion, Point.noConfusion, rfl⟩ hfree rfl hok
  | returning idx =>
    simp only [Point.run] at hrun
    split at hrun
    · cases hrun
      exact h.returns hc (.refl _) (.inl ⟨rfl, rfl⟩)
    · rename_i hne
      cases hrun
      exact h.returns hc (.unlock _) (.inr ⟨rfl, rfl, hne⟩)
  | freeing =>
    cases hrun
    exact h.readied hc (.inl ⟨rfl, rfl⟩)
  | tickle closer =>
    simp only [Point.run] at hrun
    split at hrun
    · rename_i hempty
      rw [List.isEmpty_iff] at hempty
      cases hrun
      have htick := h.ticks 0 hc (.inl rfl) (fun _ => by simp [hempty]) fun _ hlt => by
        rw [hempty] at hlt
        cases hlt
      simpa only [Shared.take, List.drop_zero, List.take_zero, List.append_nil] using htick
    · cases hrun
      refine h.calm hc (.refl _) rfl trivial (fun _ => rfl) (fun _ _ _ => rfl) Point.noConfusion
        Point.noConfusion ?_
      cases closer <;> rfl
  | tickleLocked closer =>
    simp only [Point.run] at hrun
    split at hrun
    · cases hrun
    · split at hrun
      · cases hrun
        exact h.ticks _ hc (.inr rfl) (fun _ => Nat.le_refl _) fun _ hlt => absurd hlt (Nat.lt_irrefl _)
      · rename_i hopen
        cases hrun
        refine h.ticks _ hc (.inr rfl) (fun hcloser => ?_) fun _ hlt => ?_
        · subst hcloser
          simp only [Point.remembers, Bool.or_eq_true, decide_eq_true_eq, hopen, false_or] at hg
          omega
        · omega
  | close =>
    cases hrun
    exact h.closes hc
  | done => cases hrun

theorem Threads.Served.enter (h : w.Served) {e : Entry} (he : e.ofQueries = true) :
    Threads.Served (w.enter e.point) := by
  have hkind : e.point.holdsLock = 0 ∧ e.point.holds = 0 ∧ e.point ≠ .parked ∧
      e.point.closes = false ∧ PointOk w.shared.pool.maxConnector e.point := by
    cases e with
    | executeQuery => exact ⟨rfl, rfl, Point.noConfusion, rfl, trivial⟩
    | close => exact ⟨rfl, rfl, Point.noConfusion, rfl, trivial⟩
    | _ => cases he
  obtain ⟨hlock, hholds, hpk, hcl, hok⟩ := hkind
  refine ⟨?_, h.bound, forall_enter h.calls hok, ?_, fun hst => ?_, ?_, fun hst hret => ?_, h.closed⟩
  · rw [World.enter, sum_enter, hlock, Nat.add_zero]
    exact h.lock
  · have hidx : ∀ j d, w.calls[j]? = some d → d = .parked →
        j ∈ w.shared.waitConnCb ∨ j ∈ w.shared.scheduled :=
      fun j d hd heq => h.registered j (heq ▸ hd)
    intro j hj
    exact forall_enter_idx hidx (fun heq => absurd heq hpk) j _ hj rfl
  · have ho := h.opened hst
    refine ⟨ho.running, ?_, fun hfull => (ho.full hfull).imp_right (List.mem_append_left _), ?_⟩
    · rw [World.enter, sum_enter, hholds, Nat.add_zero]
      exact ho.busy
    · intro hwait
      obtain ⟨hone, hans⟩ := ho.waiting hwait
      refine ⟨hone, hans.imp_right fun hans => hans.imp_right ?_⟩
      rintro ⟨d, hd, ha⟩
      exact ⟨d, List.mem_append_left _ hd, ha⟩
  · refine forall_enter h.closer fun hx => ?_
    rw [hcl] at hx
    cases hx
  · obtain ⟨d, hd, hx⟩ := h.closing hst hret
    exact ⟨d, List.mem_append_left _ hd, hx⟩

theorem Threads.Served.step {w' : Threads κ} {a : ThreadAction κ} (h : w.Served)
    (hg : waitGuard w a) (hs : w.step a = some w') : w'.Served := by
  cases a with
  | start e =>
    cases hs
    exact h.enter hg
  | next i x =>
    obtain ⟨c, s, c', hc, hrun, rfl⟩ := advance_cases hs
    exact h.run hc (hg c hc) hrun

theorem Point.rests_quiet {c : Point} (h : c.rests = true) :
    c.answers = false ∧ c.closes = false := by
  unfold rests at h
  split at h
  · exact ⟨rfl, rfl⟩
  · exact ⟨rfl, rfl⟩
  · exact ⟨rfl, rfl⟩
  · cases h

theorem Point.rests_holds {c : Point} (h : c.rests = true) :
    c.holds = 0 ∨ ∃ idx, c = .inUse idx := by
  unfold rests at h
  split at h
  · exact .inl rfl
  · exact .inl rfl
  · exact .inr ⟨_, rfl⟩
  · cases h

theorem Threads.Served.nobodyStranded (h : w.Served) : w.NobodyStranded := by
  refine ⟨h.registered, fun hidle hwait => ?_, fun hret => (h.closed hret).2⟩
  obtain ⟨hnone, hcalls⟩ := hidle
  have hquiet : ∀ c ∈ w.calls, c.answers = false ∧ c.closes = false := fun c hc =>
    Point.rests_quiet (hcalls c hc)
  have hst : w.shared.closeStored = false := by
    by_contra hstored
    rw [Bool.not_eq_false] at hstored
    cases hret : w.shared.closeReturned with
    | true => exact hwait (h.closed hret).2
    | false =>
      obtain ⟨c, hc, hcl⟩ := h.closing hstored hret
      rw [(hquiet c hc).2] at hcl
      cases hcl
  have ho := h.opened hst
  refine ⟨ho.checkRunState, ?_⟩
  have hbusy : 1 ≤ w.shared.pool.busyConnCount := by
    rcases (ho.waiting hwait).2 with hbusy | hsched | ⟨c, hc, ha⟩
    · exact hbusy
    · exact absurd hnone hsched
    · rw [(hquiet c hc).1] at ha
      cases ha
  -- the calls that count as busy use their connection
  by_contra hno
  have hzero : (w.calls.map Point.holds).sum = 0 := by
    refine List.sum_eq_zero_iff_forall_eq_nat.mpr fun n hn => ?_
    obtain ⟨c, hc, rfl⟩ := List.mem_map.mp hn
    rcases Point.rests_holds (hcalls c hc) with hholds | ⟨idx, rfl⟩
    · exact hholds
    · exact absurd ⟨idx, hc⟩ hno
  rw [ho.busy, hzero] at hbusy
  omega

theorem Threads.init_served {p : Pool κ} (hready : p.state = .ready) (hbusy : p.busyConnCount = 0)
    (hbound : p.connectorCount ≤ p.maxConnector) : (Threads.init p).Served where
  lock := rfl
  bound := hbound
  calls := by intro c hc; cases hc
  registered := by intro i hi; cases hi
  opened := by
    intro _
    refine ⟨.inl hready, hbusy, fun hfull => ?_, fun hwait => absurd rfl hwait⟩
    cases hready.symm.trans hfull
  closer := by intro c hc; cases hc
  closing := by intro hst; cases hst
  closed := by intro hret; cases hret

/-- In a run of queries and closes whose steps all meet the guard nobody is stranded. -/
theorem no_query_stranded {minConn maxConn : ℤ} {make : ℕ → κ} {num : ℕ} {connect : ℤ → Bool}
    {p p₀ : Pool κ} (hnew : Pool.new minConn maxConn make = some p)
    (hinit : (p.setIncreaseNum num).mysqlInit connect = (0, p₀) ∨
      (p.setIncreaseNum num).redisInit connect = (0, p₀))
    (as : List (ThreadAction κ)) (w : Threads κ)
    (hg : Guarded Threads.step waitGuard (Threads.init p₀) as)
    (hw : exec Threads.step (Threads.init p₀) as = some w) : w.NobodyStranded := by
  have hmin : (p.setIncreaseNum num).connectMin connect = (0, p₀) := by
    rcases hinit with hinit | hinit
    · rwa [Pool.mysqlInit_new num hnew] at hinit
    · exact hinit
  obtain ⟨-, hbound, -, hp⟩ := Pool.connectMin_new hnew hmin
  have hserved : (Threads.init p₀).Served :=
    Threads.init_served (by rw [hp]) (by rw [hp]) (by rw [hp]; exact hbound)
  exact (exec_guarded (fun s a t hi hga hst => Threads.Served.step hi hga hst) hserved hg
    hw).nobodyStranded

def oneOfOne : Pool ℕ := ⟨[0], [0], 1, 0, 1, 1, .ready, 1⟩

def oneWaits : List (ThreadAction ℕ) :=
  .start .executeQuery :: steps 6 0 ++ .start .executeQuery :: steps 6 1

def handedOn : List (ThreadAction ℕ) := oneWaits ++ steps 6 0 ++ steps 7 1

theorem handed_on_strands_nobody :
    Pool.new 1 1 id = some { oneOfOne with state := .init, connectorCount := 0, freeConnInfos := [] } ∧
    ∃ w, exec Threads.step (Threads.init oneOfOne) handedOn = some w ∧
      w.calls = [.done, .inUse 0] ∧ w.NobodyStranded :=
  ⟨rfl, _, rfl, rfl, @no_query_stranded ℕ 1 1 id 1 (fun _ => true) _ oneOfOne rfl (.inl rfl)
    handedOn _ (by decide) rfl⟩

def reconnectFails : List (ThreadAction ℕ) :=
  oneWaits ++ [.next 0 { isTimeOut := true }] ++ steps 2 0

def closedBeforeRegister : List (ThreadAction ℕ) :=
  .start .executeQuery :: steps 6 0 ++ .start .executeQuery :: steps 4 1 ++
    .start .close :: steps 2 2 ++ steps 1 1

theorem waiting_query_stranded :
    (∃ w, exec Threads.step (Threads.init oneOfOne) reconnectFails = some w ∧
      ¬ w.NobodyStranded) ∧
    ∃ w, exec Threads.step (Threads.init oneOfOne) closedBeforeRegister = some w ∧
      ¬ w.NobodyStranded := by
  refine ⟨⟨_, rfl, fun h => ?_⟩, ⟨_, rfl, fun h => ?_⟩⟩
  · -- nobody has a connection and the second query is still registered
    obtain ⟨-, idx, hmem⟩ := h.served ⟨rfl, by decide⟩ (by decide)
    change Point.inUse idx ∈ [.done, .parked] at hmem
    simp only [List.mem_cons, reduceCtorEq, List.not_mem_nil, or_self] at hmem
  · have hreg := h.registered 1 rfl
    rcases hreg with hreg | hreg <;> cases hreg

end MSylar.DBPool
