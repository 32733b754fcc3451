import MSylar.DBPool.Reconnect

/-!
# Queries that time out (mysql.cc:188-233, 285-379)

`MySQLPoolManager::executeQuery` borrows a connection, sends the query, fetches its result, sends
`ROLLBACK;`, fetches that result and gives the connection back. Every wait ends with an `IOState`.
The client library, the waits and the server are the inputs of a step; the operations of the pool
are atomic, and a query that waits for a connection is resumed at some time.
-/

namespace MSylar.DBPool.Query
open MSylar.Calls MSylar.Execution
variable {κ : Type*}

inductive IOState where
  | success
  | timeOut
  | failed
  | unknown
  | init
  deriving DecidableEq

/-- What a step reads: `status` and `err` of the last library call, what the awaiter returned,
whether there is a result and whether it has columns, and the connections that are made. -/
structure Input (κ : Type*) where
  status : ℤ := 0
  err : Bool := false
  woken : IOState := .success
  respBody : Bool := false
  fieldCount : Bool := false
  connect : ℤ → Bool := fun _ => true
  fresh : Option κ := none

inductive Command where
  | query
  | rollback

/-- Before `mysql_real_query_start`, in its loop, at the start of `co_fetchAll` on a response in
the state `st`, and in the loop there. -/
inductive Phase where
  | send
  | waiting
  | fetch (st : IOState)
  | fetching
  deriving DecidableEq

/-- The state of the response after its result has been stored (mysql.cc:210-232). -/
def Input.stored (x : Input κ) : IOState :=
  if !x.respBody then if x.fieldCount then .failed else .success
  else if !x.fieldCount then .failed else .success

/-- `MySQLConn::executeQuery`, and then `co_fetchAll` on the response: the next phase, or the state
that the response is left in. -/
def Phase.run (x : Input κ) : Phase → Phase ⊕ IOState
  | .send =>
    if x.status = 0 then .inl (.fetch .success)
    else if x.err then .inl (.fetch .failed)
    else .inl .waiting
  | .waiting =>
    if x.woken = .timeOut then .inl (.fetch .timeOut)
    else if x.err then .inl (.fetch .failed)
    else if x.status = 0 then .inl (.fetch .success)
    else .inl .waiting
  | .fetch st =>
    if st ≠ .success then .inr st
    else if x.status = 0 then .inr x.stored
    else .inl .fetching
  | .fetching =>
    -- `co_fetchAll` returns `TIMEOUT` here, and leaves `FAILED` in the response
    if x.woken = .timeOut then .inr .failed
    else if x.status = 0 then .inr x.stored
    else .inl .fetching

def Phase.awaits : Phase → Bool
  | .waiting | .fetching => true
  | _ => false

/-- `resp` is the state of the response to the query, which the call returns. -/
inductive Point (κ : Type*) where
  | call
  | borrow
  | room
  | expand
  | await
  | busy (w : Pool.Wrapper κ) (cmd : Command) (resp : IOState) (ph : Phase)
  | reset (w : Pool.Wrapper κ) (resp : IOState)
  | done (resp : IOState)

/-- `timedOut` are the slots whose connection has timed out since it was made; `reused` is set when
such a connection is lent or sent a command. -/
structure Shared (κ : Type*) where
  pool : Pool κ
  timedOut : List ℤ := []
  reused : Bool := false

def Shared.lent (s : Shared κ) (p : Pool κ) (idx : ℤ) : Shared κ :=
  { s with pool := p, reused := s.reused || idx ∈ s.timedOut }

def Shared.noted (s : Shared κ) (idx : ℤ) (ph : Phase) (x : Input κ) : Shared κ :=
  { s with reused := s.reused || ph = .send && idx ∈ s.timedOut
           timedOut := if ph.awaits && x.woken = .timeOut then idx :: s.timedOut else s.timedOut }

/-- `connect_wrapper.reset()`. -/
def Shared.released (s : Shared κ) (w : Pool.Wrapper κ) (fresh : Option κ) : Shared κ :=
  { s with pool := s.pool.destroyWrapper w fresh
           timedOut := if w.timeout && fresh.isSome then s.timedOut.filter (fun i => i ≠ w.connIdx)
             else s.timedOut }

/-- The point after a phase: after the result of the query comes `ROLLBACK;`. -/
def Command.next (w : Pool.Wrapper κ) (resp : IOState) : Command → Phase ⊕ IOState → Point κ
  | cmd, .inl ph => .busy w cmd resp ph
  | .query, .inr st => .busy w .rollback st .send
  | .rollback, .inr _ => .reset w resp

/-- `MySQLPoolManager::executeQuery`; a failed assertion ends the run. -/
def Point.run (x : Input κ) (s : Shared κ) : Point κ → Option (Shared κ × Point κ)
  | .call => some (s, if s.pool.checkRunState then .borrow else .done .failed)
  | .borrow => s.pool.borrowOneConn.map fun r =>
    if 0 ≤ r.1.connIdx then (s.lent r.2 r.1.connIdx, .busy r.1 .query .init .send)
    else ({ s with pool := r.2 }, .room)
  | .room => some (s, if s.pool.connectorCount < s.pool.maxConnector then .expand else .await)
  | .expand => (s.pool.expand x.connect).map fun r => ({ s with pool := r.2 }, .borrow)
  | .await => some (s, if s.pool.checkRunState then .borrow else .done .failed)
  | .busy w cmd resp ph => some (s.noted w.connIdx ph x, cmd.next w resp (ph.run x))
  | .reset w resp => some (s.released w x.fresh, .done resp)
  | .done _ => none

abbrev Queries (κ : Type*) := World (Shared κ) (Point κ)

inductive Action (κ : Type*) where
  | start
  | next (i : ℕ) (x : Input κ)

def step (w : Queries κ) : Action κ → Option (Queries κ)
  | .start => some (w.enter .call)
  | .next i x => w.advance (Point.run x) i

def Queries.init (p : Pool κ) : Queries κ := ⟨⟨p, [], false⟩, []⟩

def Point.awaits : Point κ → Bool
  | .busy _ _ _ ph => ph.awaits
  | _ => false

/-- No query, fetch or `ROLLBACK;` ends with `TIMEOUT`. -/
def inTime (w : Queries κ) : Action κ → Prop
  | .start => True
  | .next i x => ∀ c ∈ w.calls[i]?, c.awaits = true → x.woken ≠ .timeOut

/-- Every `expand` can connect its slots. -/
def grows (w : Queries κ) : Action κ → Prop
  | .start => True
  | .next i x => .expand ∈ w.calls[i]? → w.shared.pool.Grows x.connect

/-! ### What has timed out -/

def Point.wrapper : Point κ → Option (Pool.Wrapper κ)
  | .busy w _ _ _ | .reset w _ => some w
  | _ => none

/-- No wrapper is marked as timed out, since nothing calls `setTimeout`. -/
def Unmarked (w : Queries κ) : Prop := ∀ c ∈ w.calls, ∀ v ∈ c.wrapper, v.timeout = false

theorem borrow_unmarked {p p' : Pool κ} {w : Pool.Wrapper κ} (h : p.borrowOneConn = some (w, p')) :
    w.timeout = false := by
  unfold Pool.borrowOneConn at h
  split_ifs at h
  · cases h
    rfl
  · split at h
    · cases h
      rfl
    · split_ifs at h
      cases h
      rfl
  · cases h
    rfl

theorem wrapper_next (w : Pool.Wrapper κ) (resp : IOState) (cmd : Command) (r : Phase ⊕ IOState) :
    (cmd.next w resp r).wrapper = some w := by
  cases cmd <;> cases r <;> rfl

theorem step_unmarked {w w' : Queries κ} {a : Action κ} (h : Unmarked w) (hs : step w a = some w') :
    Unmarked w' := by
  cases a with
  | start =>
    cases hs
    exact forall_enter h fun v hv => by cases hv
  | next i x =>
    obtain ⟨c, s, c', hc, hrun, rfl⟩ := advance_cases hs
    refine forall_set h (fun _ _ hd => hd) ?_
    have hold := h c (List.mem_of_getElem? hc)
    cases c with
    | call | room | await =>
      cases hrun
      intro v hv
      split_ifs at hv <;> cases hv
    | borrow =>
      obtain ⟨⟨u, p⟩, hborrow, hr⟩ := Option.map_eq_some_iff.mp hrun
      intro v hv
      dsimp only at hr
      split_ifs at hr
      · cases hr
        cases hv
        exact borrow_unmarked hborrow
      · cases hr
        cases hv
    | expand =>
      obtain ⟨r, -, hr⟩ := Option.map_eq_some_iff.mp hrun
      cases hr
      intro v hv
      cases hv
    | busy u cmd resp ph =>
      cases hrun
      rw [wrapper_next]
      exact hold
    | reset u resp =>
      cases hrun
      intro v hv
      cases hv
    | done resp => cases hrun

/-- The slot whose connection times out in this step. -/
def Point.late (x : Input κ) : Point κ → List ℤ
  | .busy w _ _ ph => if ph.awaits && x.woken = .timeOut then [w.connIdx] else []
  | _ => []

theorem late_eq_nil_iff {x : Input κ} {c : Point κ} :
    c.late x = [] ↔ (c.awaits = true → x.woken ≠ .timeOut) := by
  cases c with
  | busy w cmd resp ph => simp [Point.late, Point.awaits]
  | _ => simp [Point.late, Point.awaits]

theorem run_timedOut {x : Input κ} {s s' : Shared κ} {c c' : Point κ}
    (hmark : ∀ v ∈ c.wrapper, v.timeout = false) (h : c.run x s = some (s', c')) :
    s'.timedOut = c.late x ++ s.timedOut := by
  cases c with
  | call | room | await =>
    cases h
    rfl
  | borrow =>
    obtain ⟨r, -, hr⟩ := Option.map_eq_some_iff.mp h
    split_ifs at hr <;> cases hr <;> rfl
  | expand =>
    obtain ⟨r, -, hr⟩ := Option.map_eq_some_iff.mp h
    cases hr
    rfl
  | busy u cmd resp ph =>
    cases h
    simp only [Shared.noted, Point.late]
    split_ifs <;> rfl
  | reset u resp =>
    cases h
    simp [Shared.released, hmark u rfl, Point.late]
  | done resp => cases h

/-- Where nothing has timed out, nothing is reused. -/
theorem run_reused {x : Input κ} {s s' : Shared κ} {c c' : Point κ} (htimed : s.timedOut = [])
    (h : c.run x s = some (s', c')) : s'.reused = s.reused := by
  cases c with
  | call | room | await =>
    cases h
    rfl
  | borrow =>
    obtain ⟨r, -, hr⟩ := Option.map_eq_some_iff.mp h
    split_ifs at hr <;> cases hr
    · simp [Shared.lent, htimed]
    · rfl
  | expand =>
    obtain ⟨r, -, hr⟩ := Option.map_eq_some_iff.mp h
    cases hr
    rfl
  | busy u cmd resp ph =>
    cases h
    simp [Shared.noted, htimed]
  | reset u resp =>
    cases h
    rfl
  | done resp => cases h

theorem step_timedOut_iff {w w' : Queries κ} {a : Action κ} (h : Unmarked w)
    (hs : step w a = some w') :
    w'.shared.timedOut ≠ [] ↔ w.shared.timedOut ≠ [] ∨ ¬ inTime w a := by
  cases a with
  | start =>
    cases hs
    simp only [inTime, not_true_eq_false, or_false]
    rfl
  | next i x =>
    obtain ⟨c, s, c', hc, hrun, rfl⟩ := advance_cases hs
    have htimed := run_timedOut (h c (List.mem_of_getElem? hc)) hrun
    simp only [inTime, hc, Option.mem_def, Option.some.injEq, forall_eq', ← late_eq_nil_iff, htimed,
      ne_eq, List.append_eq_nil_iff]
    tauto

/-- Nothing has timed out yet. -/
structure Clean (w : Queries κ) : Prop where
  unmarked : Unmarked w
  timedOut : w.shared.timedOut = []
  reused : w.shared.reused = false

theorem step_clean {w w' : Queries κ} {a : Action κ} (h : Clean w) (hg : inTime w a)
    (hs : step w a = some w') : Clean w' := by
  refine ⟨step_unmarked h.unmarked hs, ?_, ?_⟩
  · by_contra hne
    exact ((step_timedOut_iff h.unmarked hs).mp hne).elim (fun hw => hw h.timedOut) fun hw => hw hg
  · cases a with
    | start =>
      cases hs
      exact h.reused
    | next i x =>
      obtain ⟨c, s, c', -, hrun, rfl⟩ := advance_cases hs
      exact (run_reused h.timedOut hrun).trans h.reused

/-! ### The pool -/

def Point.holds (c : Point κ) : List ℤ := c.wrapper.toList.map fun v => v.connIdx

def held (w : Queries κ) : List ℤ := w.calls.flatMap Point.holds

structure Inv (w : Queries κ) : Prop where
  whole : Whole w.shared.pool (held w)
  unmarked : Unmarked w
  known : ∀ i ∈ w.shared.timedOut, i ∈ w.shared.pool.freeConnInfos ++ held w

theorem held_split {w : Queries κ} {i : ℕ} {c : Point κ} (hc : w.calls[i]? = some c) :
    ∃ l r, held w = l ++ (c.holds ++ r) ∧
      ∀ s c', held ⟨s, w.calls.set i c'⟩ = l ++ (c'.holds ++ r) := by
  obtain ⟨a, b, hab, hset⟩ := set_split hc
  refine ⟨a.flatMap Point.holds, b.flatMap Point.holds, ?_, fun s c' => ?_⟩
  · rw [held, hab, List.flatMap_append, List.flatMap_cons]
  · rw [held, hset, List.flatMap_append, List.flatMap_cons]

theorem holds_next (w : Pool.Wrapper κ) (resp : IOState) (cmd : Command) (r : Phase ⊕ IOState) :
    (cmd.next w resp r).holds = [w.connIdx] := by
  rw [Point.holds, wrapper_next]
  rfl

theorem run_pool {w : Queries κ} {i : ℕ} {x : Input κ} {s : Shared κ} {c c' : Point κ} (h : Inv w)
    (hg : grows w (.next i x)) (hc : w.calls[i]? = some c)
    (hrun : c.run x w.shared = some (s, c')) :
    Whole s.pool (held ⟨s, w.calls.set i c'⟩) ∧
      ∀ j ∈ w.shared.pool.freeConnInfos ++ held w,
        j ∈ s.pool.freeConnInfos ++ held ⟨s, w.calls.set i c'⟩ := by
  have hwhole := h.whole
  obtain ⟨l, r, hold, hnew⟩ := held_split hc
  rw [hold] at hwhole
  rw [hnew, hold]
  cases c with
  | call | room | await =>
    cases hrun
    split_ifs <;> exact ⟨hwhole, fun _ hj => hj⟩
  | borrow =>
    obtain ⟨⟨u, p⟩, hborrow, hr⟩ := Option.map_eq_some_iff.mp hrun
    obtain ⟨v, q, hvq, hlent, hperm⟩ := hwhole.borrow
    rw [hborrow] at hvq
    cases hvq
    dsimp only at hr
    split_ifs at hr with hidx
    · cases hr
      rw [Pool.Wrapper.holds, if_pos hidx] at hlent hperm
      have hmid : (l ++ ([] ++ r) ++ [u.connIdx]).Perm (l ++ ([u.connIdx] ++ r)) := by
        rw [List.nil_append, List.append_assoc]
        exact List.perm_append_comm.append_left l
      refine ⟨hlent.perm hmid, fun j hj => ?_⟩
      exact (hmid.append_left _).mem_iff.mp (hperm.mem_iff.mpr hj)
    · cases hr
      rw [Pool.Wrapper.holds, if_neg hidx, List.append_nil] at hlent hperm
      exact ⟨hlent, fun j hj => hperm.mem_iff.mpr hj⟩
  | expand =>
    obtain ⟨⟨rc, p⟩, hexpand, hr⟩ := Option.map_eq_some_iff.mp hrun
    cases hr
    by_cases hmax : w.shared.pool.maxConnector = w.shared.pool.connectorCount
    · obtain ⟨hsame, -⟩ := hwhole.expand_at_max x.connect hmax
      rw [hexpand] at hsame
      cases hsame
      exact ⟨hwhole, fun _ hj => hj⟩
    · obtain ⟨q, hq, hgrown, hfree, -, -⟩ := hwhole.grow hmax (hg hc)
      rw [hexpand] at hq
      cases hq
      refine ⟨hgrown, fun j hj => ?_⟩
      rw [hfree, List.append_assoc]
      rcases List.mem_append.mp hj with hj | hj
      · exact List.mem_append_left _ hj
      · exact List.mem_append_right _ (List.mem_append_right _ hj)
  | busy u cmd resp ph =>
    cases hrun
    rw [holds_next]
    exact ⟨hwhole, fun _ hj => hj⟩
  | reset u resp =>
    cases hrun
    have hmem : u.connIdx ∈ l ++ ((Point.reset u resp).holds ++ r) :=
      List.mem_append_right _ List.mem_cons_self
    simp only [Shared.released,
      hwhole.destroys (h.unmarked _ (List.mem_of_getElem? hc) u rfl) hmem]
    obtain ⟨hback, hperm⟩ := Whole.giveBack hwhole
    exact ⟨hback, fun j hj => hperm.mem_iff.mpr hj⟩
  | done resp => cases hrun

theorem step_inv {w w' : Queries κ} {a : Action κ} (h : Inv w) (hg : grows w a)
    (hs : step w a = some w') : Inv w' := by
  have hmark := step_unmarked h.unmarked hs
  cases a with
  | start =>
    cases hs
    have hsame : held (w.enter .call) = held w := by
      rw [held, World.enter, List.flatMap_append]
      exact List.append_nil _
    refine ⟨?_, hmark, ?_⟩
    · rw [hsame]
      exact h.whole
    · rw [hsame]
      exact h.known
  | next i x =>
    obtain ⟨c, s, c', hc, hrun, rfl⟩ := advance_cases hs
    obtain ⟨hwhole, hkeep⟩ := run_pool h hg hc hrun
    refine ⟨hwhole, hmark, fun j hj => hkeep j ?_⟩
    rw [run_timedOut (h.unmarked c (List.mem_of_getElem? hc)) hrun] at hj
    rcases List.mem_append.mp hj with hj | hj
    · obtain ⟨l, r, hold, -⟩ := held_split hc
      rw [hold]
      refine List.mem_append_right _ (List.mem_append_right _ (List.mem_append_left _ ?_))
      cases c with
      | busy u cmd resp ph =>
        simp only [Point.late] at hj
        split_ifs at hj
        · exact hj
        · cases hj
      | _ => cases hj
    · exact h.known j hj

/-! ### The same connection again -/

theorem step_next {w : Queries κ} {i : ℕ} {x : Input κ} {s : Shared κ} {c c' : Point κ}
    (hc : w.calls[i]? = some c) (hrun : c.run x w.shared = some (s, c')) :
    step w (.next i x) = some ⟨s, w.calls.set i c'⟩ ∧ (w.calls.set i c')[i]? = some c' := by
  refine ⟨advance_eq hc hrun, ?_⟩
  rw [List.getElem?_set_self (List.getElem?_eq_some_iff.mp hc).1]

/-- Moving on where nothing times out. -/
structure Calmly (w w' : Queries κ) : Prop where
  leads : Leads step inTime w w'
  inv : Inv w'
  timedOut : w'.shared.timedOut = w.shared.timedOut

theorem Calmly.trans {w v u : Queries κ} (h : Calmly w v) (h' : Calmly v u) : Calmly w u :=
  ⟨h.leads.trans h'.leads, h'.inv, h'.timedOut.trans h.timedOut⟩

theorem calm_next {w : Queries κ} {i : ℕ} {s : Shared κ} {c c' : Point κ} (h : Inv w)
    (hc : w.calls[i]? = some c) (hne : c ≠ .expand) (hrun : c.run {} w.shared = some (s, c')) :
    ∃ w', Calmly w w' ∧ w'.shared = s ∧ w'.calls[i]? = some c' := by
  obtain ⟨hstep, hthere⟩ := step_next hc hrun
  have hg : grows w (.next i {}) := by
    intro hexpand
    rw [Option.mem_def, hc] at hexpand
    cases hexpand
    exact absurd rfl hne
  have hwoken : ({} : Input κ).woken ≠ .timeOut := nofun
  have htime : inTime w (.next i {}) := fun _ _ _ => hwoken
  refine ⟨_, ⟨.head htime hstep (.refl ..), step_inv h hg hstep, ?_⟩, rfl, hthere⟩
  rw [run_timedOut (h.unmarked c (List.mem_of_getElem? hc)) hrun, late_eq_nil_iff.mpr fun _ => hwoken,
    List.nil_append]

theorem busy_next {w : Queries κ} {i : ℕ} {u : Pool.Wrapper κ} {cmd : Command} {resp : IOState}
    {ph : Phase} (h : Inv w) (hc : w.calls[i]? = some (.busy u cmd resp ph)) :
    ∃ w', Calmly w w' ∧ w'.calls[i]? = some (cmd.next u resp (ph.run ({} : Input κ))) := by
  obtain ⟨w', hcalm, -, hthere⟩ := calm_next h hc nofun rfl
  exact ⟨w', hcalm, hthere⟩

theorem fetch_ends {w : Queries κ} {i : ℕ} {u : Pool.Wrapper κ} {cmd : Command} {resp st : IOState}
    (h : Inv w) (hc : w.calls[i]? = some (.busy u cmd resp (.fetch st))) :
    ∃ w' st', Calmly w w' ∧ w'.calls[i]? = some (cmd.next u resp (.inr st')) := by
  obtain ⟨w', hcalm, hthere⟩ := busy_next h hc
  have hrun : ∃ st', Phase.run ({} : Input κ) (.fetch st) = .inr st' := by
    cases st <;> exact ⟨_, rfl⟩
  obtain ⟨st', hend⟩ := hrun
  rw [hend] at hthere
  exact ⟨w', st', hcalm, hthere⟩

/-- A command whose library calls all succeed at once. -/
theorem command_ends {w : Queries κ} {i : ℕ} {u : Pool.Wrapper κ} {cmd : Command}
    {resp : IOState} {ph : Phase} (h : Inv w) (hc : w.calls[i]? = some (.busy u cmd resp ph)) :
    ∃ w' st, Calmly w w' ∧ w'.calls[i]? = some (cmd.next u resp (.inr st)) := by
  obtain ⟨v, hcalm, hthere⟩ := busy_next h hc
  cases ph with
  | send | waiting =>
    obtain ⟨w', st, hcalm', hend⟩ := fetch_ends hcalm.inv hthere
    exact ⟨w', st, hcalm.trans hcalm', hend⟩
  | fetch st => exact fetch_ends h hc
  | fetching => exact ⟨v, _, hcalm, hthere⟩

/-- A call that has a connection comes to its `reset`. -/
theorem holder_resets {w : Queries κ} {i : ℕ} {u : Pool.Wrapper κ} {cmd : Command} {resp : IOState}
    {ph : Phase} (h : Inv w) (hc : w.calls[i]? = some (.busy u cmd resp ph)) :
    ∃ w' resp', Calmly w w' ∧ w'.calls[i]? = some (.reset u resp') := by
  obtain ⟨v, st, hcalm, hend⟩ := command_ends h hc
  cases cmd with
  | query =>
    obtain ⟨w', _, hcalm', hend'⟩ := command_ends hcalm.inv hend
    exact ⟨w', _, hcalm.trans hcalm', hend'⟩
  | rollback => exact ⟨v, _, hcalm, hend⟩

theorem reset_frees {w : Queries κ} {i : ℕ} {u : Pool.Wrapper κ} {resp : IOState} (h : Inv w)
    (hc : w.calls[i]? = some (.reset u resp)) :
    ∃ w', Calmly w w' ∧ u.connIdx ∈ w'.shared.pool.freeConnInfos := by
  obtain ⟨w', hcalm, hshared, -⟩ := calm_next h hc nofun rfl
  refine ⟨w', hcalm, ?_⟩
  obtain ⟨l, r, hold, -⟩ := held_split hc
  have hmem : u.connIdx ∈ held w := by
    rw [hold]
    exact List.mem_append_right _ List.mem_cons_self
  rw [hshared, Shared.released, h.whole.destroys (h.unmarked _ (List.mem_of_getElem? hc) u rfl) hmem]
  exact List.mem_append_right _ (List.mem_singleton.mpr rfl)

theorem holder_returns {w : Queries κ} {idx : ℤ} (h : Inv w) (hmem : idx ∈ held w) :
    ∃ w', Calmly w w' ∧ idx ∈ w'.shared.pool.freeConnInfos := by
  obtain ⟨c, hcmem, hidx⟩ := List.mem_flatMap.mp hmem
  obtain ⟨i, hi⟩ := List.getElem?_of_mem hcmem
  cases c with
  | busy u cmd resp ph =>
    cases List.mem_singleton.mp hidx
    obtain ⟨v, resp', hcalm, hreset⟩ := holder_resets h hi
    obtain ⟨w', hcalm', hfree⟩ := reset_frees hcalm.inv hreset
    exact ⟨w', hcalm.trans hcalm', hfree⟩
  | reset u resp =>
    cases List.mem_singleton.mp hidx
    exact reset_frees h hi
  | _ => cases hidx

/-- A new call is lent the connection at the head of the free list. -/
theorem head_lent {w : Queries κ} {idx : ℤ} {rest : List ℤ} (h : Inv w)
    (hfree : w.shared.pool.freeConnInfos = idx :: rest) :
    ∃ w', Calmly w w' ∧ w'.shared.pool.freeConnInfos = rest ∧
      (idx ∈ w.shared.timedOut → w'.shared.reused = true) := by
  have hstart : Calmly w (w.enter .call) := by
    have hstep : step w .start = some (w.enter .call) := rfl
    have htime : inTime w .start := trivial
    have hg : grows w .start := trivial
    exact ⟨.head htime hstep (.refl ..), step_inv h hg hstep, rfl⟩
  have hcall : (w.enter .call).calls[w.calls.length]? = some .call := List.getElem?_concat_length
  obtain ⟨v, hcalm, hshared, hborrow⟩ := calm_next hstart.inv hcall nofun rfl
  rw [World.enter, h.whole.running, if_pos rfl] at hborrow
  have hsame : v.shared = w.shared := hshared
  have hwhole := hcalm.inv.whole
  rw [hsame] at hwhole
  obtain ⟨hnonneg, hlend⟩ := hwhole.lends hfree
  have hrun : Point.run {} v.shared .borrow = some (v.shared.lent (w.shared.pool.lend rest) idx,
      .busy ⟨idx, w.shared.pool.connectors[idx.toNat]?, false⟩ .query .init .send) := by
    rw [Point.run, hsame, hlend, Option.map_some, if_pos hnonneg]
  obtain ⟨w', hcalm', hlent, -⟩ := calm_next hcalm.inv hborrow nofun hrun
  refine ⟨w', (hstart.trans hcalm).trans hcalm', ?_, fun hmem => ?_⟩
  · rw [hlent]
    rfl
  · rw [hlent, Shared.lent, hsame]
    simp only [hmem, decide_true, Bool.or_true]

/-- A connection that has timed out and is free is lent to one of the next callers. -/
theorem free_lent {w : Queries κ} {idx : ℤ} {before after : List ℤ} (h : Inv w)
    (hfree : w.shared.pool.freeConnInfos = before ++ idx :: after)
    (hmem : idx ∈ w.shared.timedOut) :
    ∃ w', Leads step inTime w w' ∧ w'.shared.reused = true := by
  induction before generalizing w with
  | nil =>
    obtain ⟨w', hcalm, -, hreused⟩ := head_lent h hfree
    exact ⟨w', hcalm.leads, hreused hmem⟩
  | cons head before ih =>
    obtain ⟨v, hcalm, hrest, -⟩ := head_lent h hfree
    obtain ⟨w', hleads, hreused⟩ := ih hcalm.inv hrest (by rwa [hcalm.timedOut])
    exact ⟨w', hcalm.leads.trans hleads, hreused⟩

theorem timedOut_reused {w : Queries κ} (h : Inv w) (hne : w.shared.timedOut ≠ []) :
    ∃ w', Leads step inTime w w' ∧ w'.shared.reused = true := by
  obtain ⟨idx, hmem⟩ := List.exists_mem_of_ne_nil _ hne
  have hfree : ∃ v, Calmly w v ∧ idx ∈ v.shared.pool.freeConnInfos := by
    rcases List.mem_append.mp (h.known idx hmem) with hfree | hheld
    · exact ⟨w, ⟨.refl .., h, rfl⟩, hfree⟩
    · exact holder_returns h hheld
  obtain ⟨v, hcalm, hfree⟩ := hfree
  obtain ⟨before, after, hsplit⟩ := List.append_of_mem hfree
  obtain ⟨w', hleads, hreused⟩ := free_lent hcalm.inv hsplit (by rwa [hcalm.timedOut])
  exact ⟨w', hcalm.leads.trans hleads, hreused⟩

/-- A run in which nothing times out reuses no such connection. If something has timed out, then
there is a way to go on, with nothing timing out any more, that does. -/
theorem timed_out_not_reused_iff {minConn maxConn : ℤ} {make : ℕ → κ} {num : ℕ}
    {connect : ℤ → Bool} {p p₀ : Pool κ} {as : List (Action κ)} {w : Queries κ}
    (hnew : Pool.new minConn maxConn make = some p)
    (hinit : (p.setIncreaseNum num).mysqlInit connect = (0, p₀))
    (hrun : exec step (.init p₀) as = some w) :
    (Guarded step inTime (.init p₀) as → w.shared.reused = false) ∧
    (Guarded step grows (.init p₀) as →
      ((∀ w', Leads step inTime w w' → w'.shared.reused = false) ↔
        Guarded step inTime (.init p₀) as)) := by
  have hunmarked : Unmarked (.init p₀ : Queries κ) := fun c hc => absurd hc List.not_mem_nil
  have hclean : Clean (.init p₀ : Queries κ) := ⟨hunmarked, rfl, rfl⟩
  have hquiet : Guarded step inTime (.init p₀) as → Clean w := fun hg =>
    exec_guarded (fun _ _ _ hi hga hs => step_clean hi hga hs) hclean hg hrun
  refine ⟨fun hg => (hquiet hg).reused, fun hgrows => ⟨fun hall => ?_, fun hg w' hleads => ?_⟩⟩
  · by_contra hlate
    have htimed : w.shared.timedOut ≠ [] := by
      have hiff : w.shared.timedOut ≠ [] ↔ (Queries.init p₀ : Queries κ).shared.timedOut ≠ [] ∨
          ¬ Guarded step inTime (.init p₀) as :=
        @exec_bad_iff _ _ step inTime Unmarked (fun w => w.shared.timedOut ≠ [])
          (fun _ _ _ hi hs => step_unmarked hi hs) (fun _ _ _ hi hs => step_timedOut_iff hi hs)
          _ _ _ hunmarked hrun
      exact hiff.mpr (.inr hlate)
    rw [Pool.mysqlInit_new num hnew] at hinit
    have hstart : Inv (.init p₀ : Queries κ) :=
      ⟨Pool.connectMin_whole hnew hinit, hunmarked, fun i hi => absurd hi List.not_mem_nil⟩
    have hinv : Inv w := exec_guarded (fun _ _ _ hi hga hs => step_inv hi hga hs) hstart hgrows hrun
    obtain ⟨w', hleads, hreused⟩ := timedOut_reused hinv htimed
    rw [hall w' hleads] at hreused
    cases hreused
  · obtain ⟨bs, hbs, hw'⟩ := hleads
    exact (exec_guarded (fun _ _ _ hi hga hs => step_clean hi hga hs) (hquiet hg) hbs hw').reused

/-- A query that waits for its answer and for the rows, and a `ROLLBACK;` that waits as well. -/
def queryInputs : List (Input ℕ) :=
  [{}, {}, { status := 1 }, { status := 1 }, {}, { status := 1 },
    { respBody := true, fieldCount := true }, { status := 1 }, {}, {}, {}]

def queryInTime : List (Action ℕ) := .start :: queryInputs.map (.next 0)

theorem query_in_time_clean :
    ∃ w, exec step (.init pairReady) queryInTime = some w ∧ w.calls = [.done .success] ∧
      w.shared.reused = false ∧ ∀ w', Leads step inTime w w' → w'.shared.reused = false := by
  have htime : Guarded step inTime (.init pairReady) queryInTime := by
    refine guarded_of_forall (fun a ha s => ?_) _
    rcases List.mem_cons.mp ha with rfl | ha
    · trivial
    · obtain ⟨x, hx, rfl⟩ := List.mem_map.mp ha
      have hwoken : ∀ x ∈ queryInputs, x.woken ≠ .timeOut := by decide
      exact fun _ _ _ => hwoken x hx
  have hgrows : Guarded step grows (.init pairReady) queryInTime := by
    refine ⟨trivial, fun _ h => ?_⟩
    cases h
    iterate 11
      refine ⟨nofun, fun _ h => ?_⟩
      cases h
    trivial
  obtain ⟨hclean, hiff⟩ := @timed_out_not_reused_iff ℕ 2 2 id 1 (fun _ => true) pairNew pairReady
    queryInTime ⟨⟨⟨[1, 0], [0, 1], 2, 0, 2, 2, .ready, 1⟩, [], false⟩, [.done .success]⟩ rfl rfl rfl
  exact ⟨_, rfl, rfl, hclean htime, (hiff hgrows).mpr htime⟩

/-- The query times out. -/
def lateQuery : List (Action ℕ) :=
  [.start, .next 0 {}, .next 0 {}, .next 0 { status := 1 }, .next 0 { woken := .timeOut }]

/-- `ROLLBACK;` times out. -/
def lateRollback : List (Action ℕ) :=
  [.start, .next 0 {}, .next 0 {}, .next 0 {}, .next 0 {}, .next 0 { status := 1 },
    .next 0 { woken := .timeOut }]

/-- After the first, `ROLLBACK;` is sent on the same connection; after the second, the connection is
given back as it is, and the second of the next two calls is lent it. -/
theorem timed_out_connection_reused :
    (pairNew.setIncreaseNum 1).mysqlInit (fun _ => true) = (0, pairReady) ∧
    (∃ w, exec step (.init pairReady) lateQuery = some w ∧ w.shared.timedOut = [0] ∧
      ∃ w', exec step w [.next 0 {}, .next 0 {}] = some w' ∧ w'.shared.reused = true) ∧
    ∃ w, exec step (.init pairReady) lateRollback = some w ∧ w.shared.timedOut = [0] ∧
      ∃ w', exec step w [.next 0 {}, .next 0 {}, .start, .start, .next 1 {}, .next 1 {},
          .next 2 {}, .next 2 {}] = some w' ∧
        held w' = [1, 0] ∧ w'.shared.pool.connectors = [0, 1] ∧ w'.shared.reused = true :=
  ⟨rfl, ⟨_, rfl, rfl, _, rfl, rfl⟩, _, rfl, rfl, _, rfl, rfl, rfl, rfl⟩

end MSylar.DBPool.Query
