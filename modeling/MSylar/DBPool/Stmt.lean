import MSylar.DBPool.Query

/-!
# MySQLStmt (mysql.tpp:46-247, mysql.hpp:436-480)

`m_state` guards the calls of a prepared statement, but the end of `co_close` does not set it. Every
call of the client library has a status, 0 when the operation is complete, and leaves its result in
`ret`. What the library answers and how the waits end are the inputs. The events of a call are the
calls of the library with the statement they are given, and the uses of the connection wrapper.
-/

namespace MSylar.DBPool.MySQLStmt
open MSylar.Execution
open MSylar.DBPool.Query (IOState)
variable {ρ : Type*}

inductive State where
  | init
  | prepare
  | bind
  | execute
  | store
  | fetch
  | closed
  deriving DecidableEq

/-- The functions of the client library that take an `MYSQL_STMT`. -/
inductive Fn where
  | prepareStart
  | prepareCont
  | bindParam
  | bindResult
  | executeStart
  | executeCont
  | storeStart
  | storeCont
  | fetchStart
  | fetchCont
  | closeStart
  | closeCont
  | error
  deriving DecidableEq

structure Answer where
  status : ℤ
  ret : ℤ
  deriving DecidableEq

/-- `stmt` is the pointer that a function is called with; `deref` is a use of `m_conn_wrapper`, with
whether it holds a connection. -/
inductive Event where
  | call (f : Fn) (stmt : Option ℕ) (answer : Answer)
  | deref (connWrapper : Bool)
  deriving DecidableEq

def mysqlNoData : ℤ := 100

structure Stmt (ρ : Type*) where
  connWrapper : Bool
  stmt : Option ℕ
  state : State
  rows : List ρ

/-- The first answer of an operation, and for each round the end of the wait and the next answer. -/
structure Input where
  first : Answer
  rounds : List (IOState × Answer)

namespace Stmt

def errorCall (s : Stmt ρ) : Event := .call .error s.stmt ⟨0, 0⟩

/-- The loop that five of the calls have. It ends with `ret`, or with the state of a wait that has
failed; `none` is a call that still waits. -/
def await (s : Stmt ρ) (cont : Fn) :
    Answer → List (IOState × Answer) → List Event × Option (IOState ⊕ ℤ)
  | a, [] => if a.status = 0 then ([], some (.inr a.ret)) else ([.deref s.connWrapper], none)
  | a, (woken, b) :: rounds =>
    if a.status = 0 then ([], some (.inr a.ret))
    else if woken ≠ .success then ([.deref s.connWrapper, s.errorCall], some (.inl woken))
    else
      let r := s.await cont b rounds
      (.deref s.connWrapper :: .call cont s.stmt b :: r.1, r.2)

def operate (s : Stmt ρ) (start cont : Fn) (x : Input) : List Event × Option (IOState ⊕ ℤ) :=
  let r := s.await cont x.first x.rounds
  (.call start s.stmt x.first :: r.1, r.2)

/-- The operation and the check of its result; `waitFailed` is what the call returns for a wait that
has failed. -/
def complete (s : Stmt ρ) (start cont : Fn) (waitFailed : IOState → IOState) (x : Input) :
    List Event × Option IOState :=
  match s.operate start cont x with
  | (events, none) => (events, none)
  | (events, some (.inl woken)) => (events, some (waitFailed woken))
  | (events, some (.inr ret)) =>
    if ret ≠ 0 then (events ++ [s.errorCall], some .failed) else (events, some .success)

/-- An operation that has succeeded sets `m_state`. -/
def settle (s : Stmt ρ) (next : State) (result : Option IOState) : Stmt ρ :=
  if result = some .success then { s with state := next } else s

def coPrepare (s : Stmt ρ) (x : Input) : List Event × Stmt ρ × Option IOState :=
  if s.state ≠ .init then ([], s, some .failed)
  else
    let r := s.complete .prepareStart .prepareCont id x
    (r.1, s.settle .prepare r.2, r.2)

structure ExecuteInput where
  prepare : Input
  bindParam : ℤ
  bindResult : ℤ
  execute : Input

/-- `co_execute` once the statement is prepared. `cols` is whether there are result columns. -/
def bindAndExecute (s : Stmt ρ) (cols : Bool) (x : ExecuteInput) :
    List Event × Stmt ρ × Option IOState :=
  if s.state ≠ .prepare then ([], s, some .failed)
  else
    let param := Event.call .bindParam s.stmt ⟨0, x.bindParam⟩
    if x.bindParam ≠ 0 then ([param, s.errorCall], s, some .failed)
    else
      let bound := if cols then [param, .call .bindResult s.stmt ⟨0, x.bindResult⟩] else [param]
      if cols ∧ x.bindResult ≠ 0 then (bound ++ [s.errorCall], s, some .failed)
      else
        let r := s.complete .executeStart .executeCont id x.execute
        (bound ++ r.1, s.settle .execute r.2, r.2)

def coExecute (s : Stmt ρ) (cols : Bool) (x : ExecuteInput) :
    List Event × Stmt ρ × Option IOState :=
  match s.coPrepare x.prepare with
  | (events, s', none) => (events, s', none)
  | (events, s', some st) =>
    if st ≠ .success then (events ++ [s'.errorCall], s', some .failed)
    else
      let r := s'.bindAndExecute cols x
      (events ++ r.1, r.2)

def coStoreAll (s : Stmt ρ) (x : Input) : List Event × Stmt ρ × Option IOState :=
  if s.state ≠ .execute then ([], s, some .failed)
  else
    let r := s.complete .storeStart .storeCont (fun _ => .failed) x
    (r.1, s.settle .store r.2, r.2)

/-- `row` is what the bound buffers hold when a row has been fetched. -/
structure Fetch (ρ : Type*) where
  input : Input
  row : ρ

/-- The result is an optional row. -/
def coFetchNext (s : Stmt ρ) (x : Fetch ρ) : List Event × Stmt ρ × Option (Option ρ) :=
  if s.state ≠ .execute ∧ s.state ≠ .store then ([], s, some none)
  else
    match s.operate .fetchStart .fetchCont x.input with
    | (events, none) => (events, s, none)
    | (events, some (.inl _)) => (events, s, some none)
    | (events, some (.inr ret)) =>
      if ret = mysqlNoData then (events, { s with state := .fetch }, some none)
      else if ret ≠ 0 then (events ++ [s.errorCall], s, some none)
      else (events, s, some (some x.row))

def fetched (s : Stmt ρ) : IOState := if s.state = .fetch then .success else .failed

/-- After the last of the fetches that are given, the call still waits for the next one. -/
def coFetchAll (s : Stmt ρ) (x : Fetch ρ) : List (Fetch ρ) → List Event × Stmt ρ × Option IOState
  | [] =>
    match s.coFetchNext x with
    | (events, s', none) => (events, s', none)
    | (events, s', some none) => (events, s', some s'.fetched)
    | (events, s', some (some row)) => (events, { s' with rows := s'.rows ++ [row] }, none)
  | y :: ys =>
    match s.coFetchNext x with
    | (events, s', none) => (events, s', none)
    | (events, s', some none) => (events, s', some s'.fetched)
    | (events, s', some (some row)) =>
      let r := coFetchAll { s' with rows := s'.rows ++ [row] } y ys
      (events ++ r.1, r.2)

def coClose (s : Stmt ρ) (x : Input) : List Event × Stmt ρ × Option IOState :=
  let r := s.complete .closeStart .closeCont (fun _ => .failed) x
  (r.1, if r.2 = some .success then { s with stmt := none, connWrapper := false } else s, r.2)

end Stmt

/-! ### Calls one after the other -/

inductive Op (ρ : Type*) where
  | execute (x : Stmt.ExecuteInput)
  | storeAll (x : Input)
  | fetchNext (x : Stmt.Fetch ρ)
  | fetchAll (x : Stmt.Fetch ρ) (xs : List (Stmt.Fetch ρ))
  | close (x : Input)

inductive Result (ρ : Type*) where
  | io (st : IOState)
  | row (r : Option ρ)

def returning {α : Type*} (f : α → Result ρ) (r : List Event × Stmt ρ × Option α) :
    List Event × Stmt ρ × Option (Result ρ) := (r.1, r.2.1, r.2.2.map f)

def Op.run (cols : Bool) (s : Stmt ρ) : Op ρ → List Event × Stmt ρ × Option (Result ρ)
  | .execute x => returning .io (s.coExecute cols x)
  | .storeAll x => returning .io (s.coStoreAll x)
  | .fetchNext x => returning .row (s.coFetchNext x)
  | .fetchAll x xs => returning .io (s.coFetchAll x xs)
  | .close x => returning .io (s.coClose x)

/-- A function is called with a statement, and the wrapper that is used holds a connection. -/
def Event.valid : Event → Bool
  | .call _ stmt _ => stmt.isSome
  | .deref connWrapper => connWrapper

/-- A fetch is complete, and there was no other row. -/
def Event.noData : Event → Bool
  | .call .fetchStart _ a => a = ⟨0, mysqlNoData⟩
  | .call .fetchCont _ a => a = ⟨0, mysqlNoData⟩
  | _ => false

/-- What a call has done. `closed`: there was a successful `co_close` before it. `noData`: a fetch
has come to the end of the rows in it or before it. -/
structure Call (ρ : Type*) where
  op : Op ρ
  closed : Bool
  events : List Event
  result : Option (Result ρ)
  before : List ρ
  after : List ρ
  noData : Bool

/-- `made`: the events of the constructor. `ended`: the last call has not returned, or the process
has gone down with a pointer that is null. -/
structure Usage (ρ : Type*) where
  stmt : Stmt ρ
  made : List Event
  calls : List (Call ρ)
  closed : Bool
  noData : Bool
  ended : Bool

/-- The constructor. `stmt` is what `mysql_stmt_init` returns. -/
def Usage.init (connWrapper : Bool) (stmt : Option ℕ) : Usage ρ :=
  ⟨⟨connWrapper, stmt, .init, []⟩, [.deref connWrapper], [], false, false, !connWrapper⟩

def closes : Op ρ → Option (Result ρ) → Bool
  | .close _, some (.io .success) => true
  | _, _ => false

def Usage.record (cols : Bool) (s : Usage ρ) (op : Op ρ) : Call ρ :=
  let r := op.run cols s.stmt
  { op := op, closed := s.closed, events := r.1, result := r.2.2, before := s.stmt.rows
    after := r.2.1.rows, noData := s.noData || r.1.any Event.noData }

def Usage.step (cols : Bool) (s : Usage ρ) (op : Op ρ) : Option (Usage ρ) :=
  if s.ended then none
  else
    let c := s.record cols op
    some { stmt := (op.run cols s.stmt).2.1, made := s.made, calls := s.calls ++ [c]
           closed := s.closed || closes op c.result, noData := c.noData
           ended := c.result.isNone || c.events.any fun e => !e.valid }

def Op.isFetchAll : Op ρ → Bool
  | .fetchAll _ _ => true
  | _ => false

/-- `FAILED` or `nullopt`. -/
def Result.failing : Result ρ → Prop
  | .io st => st = .failed
  | .row r => r = none

structure Call.Sound (c : Call ρ) : Prop where
  valid : ∀ e ∈ c.events, e.valid = true
  refused : c.closed = true →
    c.events = [] ∧ c.after = c.before ∧ ∃ r, c.result = some r ∧ r.failing
  all : c.closed = false → c.op.isFetchAll = true → ∀ st, c.result = some (.io st) →
    (st = .success ↔ c.noData = true)

def Usage.Sound (s : Usage ρ) : Prop :=
  (∀ e ∈ s.made, e.valid = true) ∧ ∀ c ∈ s.calls, c.Sound

/-- The call finds a state in which it does not come to the client library. -/
def refuses (s : Stmt ρ) : Op ρ → Prop
  | .storeAll _ => s.state ≠ .execute
  | .fetchNext _ => s.state ≠ .execute ∧ s.state ≠ .store
  | .fetchAll _ _ => s.state ≠ .execute ∧ s.state ≠ .store ∧ s.state ≠ .fetch
  | _ => False

instance (s : Stmt ρ) (op : Op ρ) : Decidable (refuses s op) :=
  match op with
  | .storeAll _ => inferInstanceAs (Decidable (_ ≠ _))
  | .fetchNext _ => inferInstanceAs (Decidable (_ ∧ _))
  | .fetchAll _ _ => inferInstanceAs (Decidable (_ ∧ _))
  | .execute _ | .close _ => inferInstanceAs (Decidable False)

/-- There is a statement, or the call is refused. -/
def usable (s : Usage ρ) (op : Op ρ) : Prop := s.stmt.stmt.isSome ∨ refuses s.stmt op

instance (s : Usage ρ) (op : Op ρ) : Decidable (usable s op) := inferInstanceAs (Decidable (_ ∨ _))

/-! ### One call -/

/-- The event is about the pointers of the statement, and a call is to one of `fs`. -/
def Event.Of (s : Stmt ρ) (fs : List Fn) : Event → Prop
  | .call f stmt _ => stmt = s.stmt ∧ f ∈ fs
  | .deref connWrapper => connWrapper = s.connWrapper

theorem Event.Of.mono {s : Stmt ρ} {fs gs : List Fn} {e : Event} (h : e.Of s fs)
    (hsub : ∀ f ∈ fs, f ∈ gs) : e.Of s gs := by
  cases e with
  | call f stmt a => exact ⟨h.1, hsub f h.2⟩
  | deref connWrapper => exact h

theorem Event.Of.noData {s : Stmt ρ} {fs : List Fn} {e : Event} (h : e.Of s fs)
    (hstart : .fetchStart ∉ fs) (hcont : .fetchCont ∉ fs) : e.noData = false := by
  cases e with
  | deref connWrapper => rfl
  | call f stmt a =>
    cases f with
    | fetchStart => exact absurd h.2 hstart
    | fetchCont => exact absurd h.2 hcont
    | _ => rfl

theorem Event.Of.valid {s : Stmt ρ} {fs : List Fn} {e : Event} (h : e.Of s fs)
    (hstmt : s.stmt.isSome) (hwrapper : s.connWrapper = true) : e.valid = true := by
  cases e with
  | call f stmt a =>
    change stmt.isSome = true
    rw [h.1]
    exact hstmt
  | deref connWrapper => exact h.trans hwrapper

namespace Stmt

theorem await_of (s : Stmt ρ) (cont : Fn) (a : Answer) (rounds : List (IOState × Answer)) :
    ∀ e ∈ (s.await cont a rounds).1, e.Of s [cont, .error] := by
  induction rounds generalizing a with
  | nil =>
    rw [await]
    split_ifs
    · exact nofun
    · intro e he
      rw [List.mem_singleton.mp he]
      rfl
  | cons r rounds ih =>
    obtain ⟨woken, b⟩ := r
    rw [await]
    split_ifs
    · exact nofun
    · intro e he
      rcases List.mem_pair.mp he with rfl | rfl
      · rfl
      · exact ⟨rfl, by simp⟩
    · intro e he
      rcases List.mem_cons.mp he with rfl | he
      · rfl
      · rcases List.mem_cons.mp he with rfl | he
        · exact ⟨rfl, by simp⟩
        · exact ih b e he

theorem operate_of (s : Stmt ρ) (start cont : Fn) (x : Input) :
    ∀ e ∈ (s.operate start cont x).1, e.Of s [start, cont, .error] := by
  intro e he
  rcases List.mem_cons.mp he with rfl | he
  · exact ⟨rfl, List.mem_cons_self⟩
  · exact (s.await_of cont _ _ e he).mono fun f hf => List.mem_cons_of_mem _ hf

/-- After the operation there is at most a call for the text of its error. -/
theorem complete_events (s : Stmt ρ) (start cont : Fn) (waitFailed : IOState → IOState) (x : Input) :
    ∃ tail, (s.complete start cont waitFailed x).1 = (s.operate start cont x).1 ++ tail ∧
      ∀ e ∈ tail, e = s.errorCall := by
  have hnothing : ∀ events : List Event,
      ∃ tail, events = events ++ tail ∧ ∀ e ∈ tail, e = s.errorCall :=
    fun events => ⟨[], (List.append_nil _).symm, fun e he => absurd he List.not_mem_nil⟩
  rw [complete]
  rcases s.operate start cont x with ⟨events, _ | woken | ret⟩
  · exact hnothing events
  · exact hnothing events
  · dsimp only
    split_ifs
    · exact ⟨[s.errorCall], rfl, fun e he => List.mem_singleton.mp he⟩
    · exact hnothing events

theorem complete_of (s : Stmt ρ) (start cont : Fn) (waitFailed : IOState → IOState) (x : Input) :
    ∀ e ∈ (s.complete start cont waitFailed x).1, e.Of s [start, cont, .error] := by
  obtain ⟨tail, heq, htail⟩ := s.complete_events start cont waitFailed x
  rw [heq]
  intro e he
  rcases List.mem_append.mp he with he | he
  · exact s.operate_of start cont x e he
  · rw [htail e he]
    exact ⟨rfl, by simp⟩

/-- The operation starts with a call that is given the statement. -/
theorem complete_start (s : Stmt ρ) (start cont : Fn) (waitFailed : IOState → IOState) (x : Input) :
    .call start s.stmt x.first ∈ (s.complete start cont waitFailed x).1 := by
  obtain ⟨tail, heq, -⟩ := s.complete_events start cont waitFailed x
  rw [heq]
  exact List.mem_append_left tail List.mem_cons_self

/-- The rows have come to their end exactly if the fetch ends with `MYSQL_NO_DATA`. -/
theorem await_noData (s : Stmt ρ) (a : Answer) (rounds : List (IOState × Answer)) :
    (a = ⟨0, mysqlNoData⟩ ∨ ∃ e ∈ (s.await .fetchCont a rounds).1, e.noData = true) ↔
      (s.await .fetchCont a rounds).2 = some (.inr mysqlNoData) := by
  have hdone : ∀ b : Answer, b.status = 0 → (b = ⟨0, mysqlNoData⟩ ↔ b.ret = mysqlNoData) := by
    rintro ⟨status, ret⟩ rfl
    simp
  have hpending : ∀ b : Answer, b.status ≠ 0 → b ≠ ⟨0, mysqlNoData⟩ := by
    rintro b hb rfl
    exact hb rfl
  induction rounds generalizing a with
  | nil =>
    rw [await]
    split_ifs with hstatus
    · simp [hdone a hstatus]
    · simp [hpending a hstatus, Event.noData]
  | cons r rounds ih =>
    obtain ⟨woken, b⟩ := r
    rw [await]
    split_ifs with hstatus hwoken
    · simp [hdone a hstatus]
    · simp [hpending a hstatus, Event.noData, errorCall]
    · refine Iff.trans ?_ (ih b)
      simp [hpending a hstatus, Event.noData]

theorem fetch_noData (s : Stmt ρ) (x : Input) :
    (∃ e ∈ (s.operate .fetchStart .fetchCont x).1, e.noData = true) ↔
      (s.operate .fetchStart .fetchCont x).2 = some (.inr mysqlNoData) := by
  have hloop := s.await_noData x.first x.rounds
  simpa [operate, Event.noData] using hloop

end Stmt

/-- A part of a call: its events are about a statement that is there, and the state becomes `fetch`
where a fetch has come to the end. -/
structure Part (s : Stmt ρ) (events : List Event) (s' : Stmt ρ) : Prop where
  valid : s.stmt.isSome → s.connWrapper = true → ∀ e ∈ events, e.valid = true
  fetched : s'.state = .fetch ↔ s.state = .fetch ∨ ∃ e ∈ events, e.noData = true

structure Keeps (s s' : Stmt ρ) : Prop where
  stmt : s'.stmt = s.stmt
  connWrapper : s'.connWrapper = s.connWrapper

theorem Part.quiet {s s' : Stmt ρ} {events : List Event} {fs : List Fn}
    (hof : ∀ e ∈ events, e.Of s fs) (hstart : .fetchStart ∉ fs) (hcont : .fetchCont ∉ fs)
    (hstate : s'.state = .fetch ↔ s.state = .fetch) : Part s events s' := by
  refine ⟨fun hstmt hwrapper e he => (hof e he).valid hstmt hwrapper, ?_⟩
  have hnone : ¬ ∃ e ∈ events, e.noData = true := by
    rintro ⟨e, he, hdata⟩
    rw [(hof e he).noData hstart hcont] at hdata
    cases hdata
  rw [hstate, or_iff_left hnone]

theorem Part.nil (s : Stmt ρ) : Part s [] s := ⟨fun _ _ => nofun, by simp⟩

theorem Part.errorCall (s : Stmt ρ) : Part s [s.errorCall] s := by
  refine @Part.quiet ρ s s _ [.error] (fun e he => ?_) (by decide) (by decide) Iff.rfl
  rw [List.mem_singleton.mp he]
  exact ⟨rfl, List.mem_cons_self⟩

theorem Part.append {s s₁ s₂ : Stmt ρ} {events events' : List Event} (h : Part s events s₁)
    (hk : Keeps s s₁) (h' : Part s₁ events' s₂) : Part s (events ++ events') s₂ := by
  refine ⟨fun hstmt hwrapper e he => ?_, ?_⟩
  · rcases List.mem_append.mp he with he | he
    · exact h.valid hstmt hwrapper e he
    · exact h'.valid (hk.stmt ▸ hstmt) (hk.connWrapper.trans hwrapper) e he
  · rw [h'.fetched, h.fetched, or_assoc]
    simp only [List.mem_append, or_and_right, exists_or]

namespace Stmt

/-- An operation of `s` that leaves the state `next` when it succeeds. -/
theorem complete_part {s : Stmt ρ} {next : State} (start cont : Fn) (waitFailed : IOState → IOState)
    (x : Input) (hfs : .fetchStart ∉ [start, cont, .error] ∧ .fetchCont ∉ [start, cont, .error])
    (hnext : next = .fetch ↔ s.state = .fetch) :
    Part s (s.complete start cont waitFailed x).1
        (s.settle next (s.complete start cont waitFailed x).2) ∧
      Keeps s (s.settle next (s.complete start cont waitFailed x).2) := by
  refine ⟨.quiet (s.complete_of start cont waitFailed x) hfs.1 hfs.2 ?_, ?_⟩
  · rw [settle]
    split_ifs
    · exact hnext
    · exact Iff.rfl
  · rw [settle]
    split_ifs <;> exact ⟨rfl, rfl⟩

theorem coPrepare_part (s : Stmt ρ) (x : Input) :
    Part s (s.coPrepare x).1 (s.coPrepare x).2.1 ∧ Keeps s (s.coPrepare x).2.1 := by
  rw [coPrepare]
  split_ifs with hstate
  · exact ⟨.nil s, rfl, rfl⟩
  · rw [not_not] at hstate
    exact complete_part .prepareStart .prepareCont id x (by decide) (by simp [hstate])

theorem bindAndExecute_part (s : Stmt ρ) (cols : Bool) (x : ExecuteInput) :
    Part s (s.bindAndExecute cols x).1 (s.bindAndExecute cols x).2.1 ∧
      Keeps s (s.bindAndExecute cols x).2.1 := by
  have hbind : ∀ events : List Event, (∀ e ∈ events, e.Of s [.bindParam, .bindResult, .error]) →
      Part s events s := fun events hof => .quiet hof (by decide) (by decide) Iff.rfl
  have hkeeps : Keeps s s := ⟨rfl, rfl⟩
  have hparam : Event.Of s [.bindParam, .bindResult, .error]
      (.call .bindParam s.stmt ⟨0, x.bindParam⟩) := ⟨rfl, by simp⟩
  have herror : Event.Of s [.bindParam, .bindResult, .error] s.errorCall := ⟨rfl, by simp⟩
  have hbound : ∀ e ∈ (if cols then [Event.call .bindParam s.stmt ⟨0, x.bindParam⟩,
      .call .bindResult s.stmt ⟨0, x.bindResult⟩] else [.call .bindParam s.stmt ⟨0, x.bindParam⟩]),
      e.Of s [.bindParam, .bindResult, .error] := by
    intro e he
    split_ifs at he
    · rcases List.mem_pair.mp he with rfl | rfl
      · exact hparam
      · exact ⟨rfl, by simp⟩
    · rw [List.mem_singleton.mp he]
      exact hparam
  unfold bindAndExecute
  dsimp only
  generalize (if cols then [Event.call .bindParam s.stmt ⟨0, x.bindParam⟩,
    .call .bindResult s.stmt ⟨0, x.bindResult⟩] else [.call .bindParam s.stmt ⟨0, x.bindParam⟩]) =
    bound at hbound ⊢
  split_ifs with hstate hpar hres
  · exact ⟨.nil s, hkeeps⟩
  · refine ⟨hbind _ fun e he => ?_, hkeeps⟩
    rcases List.mem_pair.mp he with rfl | rfl
    · exact hparam
    · exact herror
  · refine ⟨hbind _ fun e he => ?_, hkeeps⟩
    rcases List.mem_append.mp he with he | he
    · exact hbound e he
    · rw [List.mem_singleton.mp he]
      exact herror
  · rw [not_not] at hstate
    obtain ⟨hpart, hkept⟩ := @complete_part ρ s .execute .executeStart .executeCont id x.execute
      (by decide) (by simp [hstate])
    exact ⟨(hbind bound hbound).append hkeeps hpart, hkept⟩

theorem coExecute_part (s : Stmt ρ) (cols : Bool) (x : ExecuteInput) :
    Part s (s.coExecute cols x).1 (s.coExecute cols x).2.1 ∧ Keeps s (s.coExecute cols x).2.1 := by
  obtain ⟨hpart, hkeeps⟩ := s.coPrepare_part x.prepare
  unfold coExecute
  split
  · rename_i events s' heq
    rw [heq] at hpart hkeeps
    exact ⟨hpart, hkeeps⟩
  · rename_i events s' st heq
    rw [heq] at hpart hkeeps
    split_ifs
    · exact ⟨hpart.append hkeeps (.errorCall s'), hkeeps⟩
    · obtain ⟨hrest, hkept⟩ := s'.bindAndExecute_part cols x
      exact ⟨hpart.append hkeeps hrest, hkept.stmt.trans hkeeps.stmt,
        hkept.connWrapper.trans hkeeps.connWrapper⟩

theorem coStoreAll_part (s : Stmt ρ) (x : Input) :
    Part s (s.coStoreAll x).1 (s.coStoreAll x).2.1 ∧ Keeps s (s.coStoreAll x).2.1 := by
  rw [coStoreAll]
  split_ifs with hstate
  · exact ⟨.nil s, rfl, rfl⟩
  · rw [not_not] at hstate
    exact complete_part .storeStart .storeCont _ x (by decide) (by simp [hstate])

theorem coFetchNext_part (s : Stmt ρ) (x : Fetch ρ) :
    Part s (s.coFetchNext x).1 (s.coFetchNext x).2.1 ∧ Keeps s (s.coFetchNext x).2.1 := by
  have hof := s.operate_of .fetchStart .fetchCont x.input
  have hdata := s.fetch_noData x.input
  have hkeeps : Keeps s s := ⟨rfl, rfl⟩
  have hvalid : s.stmt.isSome → s.connWrapper = true →
      ∀ e ∈ (s.operate .fetchStart .fetchCont x.input).1, e.valid = true :=
    fun hstmt hwrapper e he => (hof e he).valid hstmt hwrapper
  unfold coFetchNext
  split_ifs with hstate
  · exact ⟨.nil s, hkeeps⟩
  · split
    · rename_i events heq
      simp only [heq, reduceCtorEq, iff_false] at hdata hvalid
      exact ⟨⟨hvalid, (or_iff_left hdata).symm⟩, hkeeps⟩
    · rename_i events woken heq
      simp only [heq, Option.some.injEq, reduceCtorEq, iff_false] at hdata hvalid
      exact ⟨⟨hvalid, (or_iff_left hdata).symm⟩, hkeeps⟩
    · rename_i events ret heq
      simp only [heq, Option.some.injEq, Sum.inr.injEq] at hdata hvalid
      split_ifs with hlast herror
      · exact ⟨⟨hvalid, iff_of_true rfl (.inr (hdata.mpr hlast))⟩, rfl, rfl⟩
      · have hnone : ¬ ∃ e ∈ events, e.noData = true := fun hn => hlast (hdata.mp hn)
        have hfetch : Part s events s := ⟨hvalid, (or_iff_left hnone).symm⟩
        exact ⟨hfetch.append hkeeps (.errorCall s), hkeeps⟩
      · have hnone : ¬ ∃ e ∈ events, e.noData = true := fun hn => hlast (hdata.mp hn)
        exact ⟨⟨hvalid, (or_iff_left hnone).symm⟩, hkeeps⟩

theorem fetched_iff (s : Stmt ρ) : s.fetched = .success ↔ s.state = .fetch := by
  rw [fetched]
  split_ifs with hstate
  · exact iff_of_true rfl hstate
  · exact iff_of_false nofun hstate

theorem ended_success (s : Stmt ρ) {r : Option (Option ρ)} {st : IOState}
    (h : r.map (fun _ => s.fetched) = some st) : st = .success ↔ s.state = .fetch := by
  obtain ⟨-, -, rfl⟩ := Option.map_eq_some_iff.mp h
  exact s.fetched_iff

/-- A fetch without a row is the last one. -/
theorem coFetchAll_ended {s s' : Stmt ρ} {x : Fetch ρ} {events : List Event}
    {r : Option (Option ρ)} (h : s.coFetchNext x = (events, s', r))
    (hr : ∀ row, r ≠ some (some row)) (xs : List (Fetch ρ)) : s.coFetchAll x xs = (events, s', r.map fun _ => s'.fetched) := by
  have hcases : r = none ∨ r = some none := by
    rcases r with _ | _ | row
    · exact .inl rfl
    · exact .inr rfl
    · exact absurd rfl (hr row)
  cases xs with
  | nil => rcases hcases with rfl | rfl <;> simp only [coFetchAll, h, Option.map]
  | cons y ys => rcases hcases with rfl | rfl <;> simp only [coFetchAll, h, Option.map]

theorem coFetchAll_part (s : Stmt ρ) (x : Fetch ρ) (xs : List (Fetch ρ)) :
    Part s (s.coFetchAll x xs).1 (s.coFetchAll x xs).2.1 ∧ Keeps s (s.coFetchAll x xs).2.1 ∧
      ∀ st, (s.coFetchAll x xs).2.2 = some st →
        (st = .success ↔ (s.coFetchAll x xs).2.1.state = .fetch) := by
  induction xs generalizing s x with
  | nil =>
    obtain ⟨hpart, hkeeps⟩ := s.coFetchNext_part x
    rcases hnext : s.coFetchNext x with ⟨events, s', r⟩
    rw [hnext] at hpart hkeeps
    by_cases hrow : ∃ row, r = some (some row)
    · obtain ⟨row, rfl⟩ := hrow
      simp only [coFetchAll, hnext]
      exact ⟨⟨hpart.valid, hpart.fetched⟩, ⟨hkeeps.stmt, hkeeps.connWrapper⟩, nofun⟩
    · rw [coFetchAll_ended hnext (not_exists.mp hrow)]
      exact ⟨hpart, hkeeps, fun st hst => s'.ended_success hst⟩
  | cons y ys ih =>
    obtain ⟨hpart, hkeeps⟩ := s.coFetchNext_part x
    rcases hnext : s.coFetchNext x with ⟨events, s', r⟩
    rw [hnext] at hpart hkeeps
    by_cases hrow : ∃ row, r = some (some row)
    · obtain ⟨row, rfl⟩ := hrow
      obtain ⟨hrest, hkept, hresult⟩ := ih { s' with rows := s'.rows ++ [row] } y
      have hmore : Part s events { s' with rows := s'.rows ++ [row] } :=
        ⟨hpart.valid, hpart.fetched⟩
      simp only [coFetchAll, hnext]
      exact ⟨hmore.append ⟨hkeeps.stmt, hkeeps.connWrapper⟩ hrest,
        ⟨hkept.stmt.trans hkeeps.stmt, hkept.connWrapper.trans hkeeps.connWrapper⟩, hresult⟩
    · rw [coFetchAll_ended hnext (not_exists.mp hrow)]
      exact ⟨hpart, hkeeps, fun st hst => s'.ended_success hst⟩

theorem coClose_part (s : Stmt ρ) (x : Input) : Part s (s.coClose x).1 (s.coClose x).2.1 := by
  refine .quiet (s.complete_of .closeStart .closeCont (fun _ => .failed) x) (by decide)
    (by decide) ?_
  rw [coClose]
  dsimp only
  split_ifs <;> exact Iff.rfl

theorem coFetchNext_refused {s : Stmt ρ} (h : s.state ≠ .execute ∧ s.state ≠ .store) (x : Fetch ρ) :
    s.coFetchNext x = ([], s, some none) := if_pos h

theorem coFetchAll_refused {s : Stmt ρ} (h : s.state ≠ .execute ∧ s.state ≠ .store) (x : Fetch ρ)
    (xs : List (Fetch ρ)) : s.coFetchAll x xs = ([], s, some s.fetched) :=
  coFetchAll_ended (coFetchNext_refused h x) (by simp) xs

theorem coFetchNext_start {s : Stmt ρ} (h : ¬ (s.state ≠ .execute ∧ s.state ≠ .store)) (x : Fetch ρ) :
    .call .fetchStart s.stmt x.input.first ∈ (s.coFetchNext x).1 := by
  have hstart : .call .fetchStart s.stmt x.input.first ∈
      (s.operate .fetchStart .fetchCont x.input).1 := List.mem_cons_self
  rw [coFetchNext, if_neg h]
  split
  · rename_i events heq
    rwa [heq] at hstart
  · rename_i events woken heq
    rwa [heq] at hstart
  · rename_i events ret heq
    rw [heq] at hstart
    split_ifs
    · exact hstart
    · exact List.mem_append_left _ hstart
    · exact hstart

theorem coFetchAll_start {s : Stmt ρ} (h : ¬ (s.state ≠ .execute ∧ s.state ≠ .store)) (x : Fetch ρ)
    (xs : List (Fetch ρ)) : .call .fetchStart s.stmt x.input.first ∈ (s.coFetchAll x xs).1 := by
  have hstart := coFetchNext_start h x
  cases xs with
  | nil =>
    unfold coFetchAll
    split <;> rename_i heq <;> rwa [heq] at hstart
  | cons y ys =>
    unfold coFetchAll
    split <;> rename_i heq <;> rw [heq] at hstart
    · exact hstart
    · exact hstart
    · exact List.mem_append_left _ hstart

/-- `co_execute` always calls the library, if only for the text of an error. -/
theorem coExecute_calls (s : Stmt ρ) (cols : Bool) (x : ExecuteInput) :
    ∃ f a, .call f s.stmt a ∈ (s.coExecute cols x).1 := by
  by_cases hstate : s.state ≠ .init
  · have hprepare : s.coPrepare x.prepare = ([], s, some .failed) := if_pos hstate
    refine ⟨.error, ⟨0, 0⟩, ?_⟩
    simp [coExecute, hprepare, errorCall]
  · refine ⟨.prepareStart, x.prepare.first, ?_⟩
    have hstart : .call .prepareStart s.stmt x.prepare.first ∈ (s.coPrepare x.prepare).1 := by
      rw [coPrepare, if_neg hstate]
      exact s.complete_start .prepareStart .prepareCont id x.prepare
    unfold coExecute
    split <;> rename_i heq <;> rw [heq] at hstart
    · exact hstart
    · split_ifs
      · exact List.mem_append_left _ hstart
      · exact List.mem_append_left _ hstart

end Stmt

/-! ### A call of a run -/

theorem run_part (cols : Bool) (s : Stmt ρ) (op : Op ρ) :
    Part s (op.run cols s).1 (op.run cols s).2.1 := by
  cases op with
  | execute x => exact (s.coExecute_part cols x).1
  | storeAll x => exact (s.coStoreAll_part x).1
  | fetchNext x => exact (s.coFetchNext_part x).1
  | fetchAll x xs => exact (s.coFetchAll_part x xs).1
  | close x => exact s.coClose_part x

/-- Only a successful `co_close` gives the statement away. -/
theorem run_pointers (cols : Bool) (s : Stmt ρ) (op : Op ρ) :
    closes op (op.run cols s).2.2 = false ∧ Keeps s (op.run cols s).2.1 ∨
      closes op (op.run cols s).2.2 = true ∧ (op.run cols s).2.1.stmt = none := by
  cases op with
  | execute x => exact .inl ⟨rfl, (s.coExecute_part cols x).2⟩
  | storeAll x => exact .inl ⟨rfl, (s.coStoreAll_part x).2⟩
  | fetchNext x => exact .inl ⟨rfl, (s.coFetchNext_part x).2⟩
  | fetchAll x xs => exact .inl ⟨rfl, (s.coFetchAll_part x xs).2.1⟩
  | close x =>
    simp only [Op.run, returning, Stmt.coClose]
    generalize (s.complete .closeStart .closeCont (fun _ => .failed) x).2 = result
    by_cases hok : result = some .success
    · rw [if_pos hok, hok]
      exact .inr ⟨rfl, rfl⟩
    · rw [if_neg hok]
      refine .inl ⟨?_, rfl, rfl⟩
      cases result with
      | none => rfl
      | some st =>
        cases st with
        | success => exact absurd rfl hok
        | _ => rfl

theorem run_refused {cols : Bool} {s : Stmt ρ} {op : Op ρ} (h : refuses s op) :
    closes op (op.run cols s).2.2 = false ∧
      ∃ r, op.run cols s = ([], s, some r) ∧ r.failing := by
  cases op with
  | execute x => exact h.elim
  | close x => exact h.elim
  | storeAll x =>
    have hstore : s.coStoreAll x = ([], s, some .failed) := if_pos h
    exact ⟨rfl, .io .failed, by rw [Op.run, hstore]; rfl, rfl⟩
  | fetchNext x =>
    exact ⟨rfl, .row none, by rw [Op.run, Stmt.coFetchNext_refused h]; rfl, rfl⟩
  | fetchAll x xs =>
    have hlast : s.fetched = .failed := if_neg h.2.2
    refine ⟨rfl, .io .failed, ?_, rfl⟩
    rw [Op.run, Stmt.coFetchAll_refused ⟨h.1, h.2.1⟩, hlast]
    rfl

/-- Without a statement a call that is not refused uses a null pointer, or is a `co_fetchAll` after
the last row, which succeeds. -/
theorem run_spoiled {cols : Bool} {s : Stmt ρ} {op : Op ρ} (hstmt : s.stmt = none)
    (h : ¬ refuses s op) :
    (∃ e ∈ (op.run cols s).1, e.valid = false) ∨
      s.state = .fetch ∧ op.run cols s = ([], s, some (.io .success)) := by
  have hnull : ∀ f a, (Event.call f s.stmt a).valid = false := fun f a => by
    rw [hstmt]
    rfl
  cases op with
  | execute x =>
    obtain ⟨f, a, hcall⟩ := s.coExecute_calls cols x
    exact .inl ⟨_, hcall, hnull f a⟩
  | storeAll x =>
    have hstore : .call .storeStart s.stmt x.first ∈ (s.coStoreAll x).1 := by
      have hstate : ¬ s.state ≠ .execute := h
      rw [Stmt.coStoreAll, if_neg hstate]
      exact s.complete_start .storeStart .storeCont _ x
    exact .inl ⟨_, hstore, hnull _ _⟩
  | fetchNext x => exact .inl ⟨_, Stmt.coFetchNext_start h x, hnull _ _⟩
  | fetchAll x xs =>
    by_cases hstate : s.state ≠ .execute ∧ s.state ≠ .store
    · have hfetch : s.state = .fetch := by
        by_contra hne
        exact h ⟨hstate.1, hstate.2, hne⟩
      refine .inr ⟨hfetch, ?_⟩
      rw [Op.run, Stmt.coFetchAll_refused hstate, s.fetched_iff.mpr hfetch]
      rfl
    · exact .inl ⟨_, Stmt.coFetchAll_start hstate x xs, hnull _ _⟩
  | close x => exact .inl ⟨_, s.complete_start .closeStart .closeCont _ x, hnull _ _⟩

/-! ### Runs -/

/-- While calls can be made. -/
structure Live (s : Usage ρ) : Prop where
  wrapper : s.stmt.stmt.isSome → s.stmt.connWrapper = true ∧ s.closed = false
  lost : s.stmt.stmt = none → s.closed = true ∨ s.stmt.state = .init
  fetched : s.stmt.state = .fetch ↔ s.noData = true

theorem record_noData (cols : Bool) {s : Usage ρ} (h : Live s) (op : Op ρ) :
    (op.run cols s.stmt).2.1.state = .fetch ↔ (s.record cols op).noData = true := by
  have hpart := run_part cols s.stmt op
  rw [hpart.fetched, h.fetched]
  simp only [Usage.record, Bool.or_eq_true, List.any_eq_true]

theorem step_live {cols : Bool} {s s' : Usage ρ} {op : Op ρ} (h : Live s)
    (hs : s.step cols op = some s') (halive : s'.ended = false) : Live s' := by
  have hpointers := run_pointers cols s.stmt op
  have hnoData := record_noData cols h op
  unfold Usage.step at hs
  split_ifs at hs
  cases hs
  obtain ⟨-, hvalid⟩ := Bool.or_eq_false_iff.mp halive
  rcases hpointers with ⟨hopen, hkeeps⟩ | ⟨hclose, hnone⟩
  · refine ⟨fun hsome => ?_, fun hnone => ?_, hnoData⟩
    · obtain ⟨hwrapper, hclosed⟩ := h.wrapper (hkeeps.stmt ▸ hsome)
      exact ⟨hkeeps.connWrapper.trans hwrapper, Bool.or_eq_false_iff.mpr ⟨hclosed, hopen⟩⟩
    · have hlost := hkeeps.stmt.symm.trans hnone
      rcases h.lost hlost with hclosed | hinit
      · exact .inl (Bool.or_eq_true_iff.mpr (.inl hclosed))
      · -- no pointer was used, so the call has been refused
        have hrefused : refuses s.stmt op := by
          by_contra hnot
          rcases @run_spoiled _ cols _ _ hlost hnot with ⟨e, he, hbad⟩ | ⟨hfetch, -⟩
          · have hgood := List.any_eq_false.mp hvalid e he
            rw [hbad] at hgood
            exact hgood rfl
          · rw [hinit] at hfetch
            cases hfetch
        obtain ⟨-, r, hrun, -⟩ := @run_refused _ cols _ _ hrefused
        exact .inr (by rw [hrun]; exact hinit)
  · refine ⟨fun hsome => ?_, fun _ => .inl (Bool.or_eq_true_iff.mpr (.inr hclose)), hnoData⟩
    rw [hnone] at hsome
    cases hsome

theorem record_sound_iff (cols : Bool) {s : Usage ρ} (h : Live s) (op : Op ρ) :
    (s.record cols op).Sound ↔ usable s op := by
  have hnoData := record_noData cols h op
  by_cases hsome : s.stmt.stmt.isSome
  · obtain ⟨hwrapper, hopen⟩ := h.wrapper hsome
    refine iff_of_true ⟨(run_part cols s.stmt op).valid hsome hwrapper, fun hclosed => ?_,
      fun _ hall st hresult => ?_⟩ (.inl hsome)
    · exact absurd hclosed (by rw [Usage.record, hopen]; exact Bool.false_ne_true)
    · rw [← hnoData]
      cases op with
      | fetchAll x xs =>
        obtain ⟨st', hst, heq⟩ := Option.map_eq_some_iff.mp hresult
        cases heq
        exact (s.stmt.coFetchAll_part x xs).2.2 st hst
      | _ => cases hall
  · have hlost : s.stmt.stmt = none := by simpa using hsome
    by_cases hrefuses : refuses s.stmt op
    · obtain ⟨-, r, hrun, hfailing⟩ := @run_refused _ cols _ _ hrefuses
      refine iff_of_true ?_ (.inr hrefuses)
      simp only [Usage.record, hrun, List.any_nil, Bool.or_false] at hnoData ⊢
      refine ⟨nofun, fun _ => ⟨rfl, rfl, r, rfl, hfailing⟩, fun _ hall st hresult => ?_⟩
      cases op with
      | fetchAll x xs =>
        cases hresult
        rw [← hnoData]
        refine iff_of_false (fun hok => ?_) hrefuses.2.2
        rw [hok] at hfailing
        cases hfailing
      | _ => cases hall
    · refine iff_of_false (fun hsound => ?_) (not_or.mpr ⟨hsome, hrefuses⟩)
      rcases @run_spoiled _ cols _ _ hlost hrefuses with ⟨e, he, hbad⟩ | ⟨hfetch, hrun⟩
      · have hgood := hsound.valid e he
        rw [hbad] at hgood
        cases hgood
      · -- only a statement that is closed has no pointer after the last row
        have hclosed : s.closed = true := by
          refine (h.lost hlost).resolve_right fun hinit => ?_
          rw [hinit] at hfetch
          cases hfetch
        obtain ⟨-, -, r, hresult, hfailing⟩ := hsound.refused hclosed
        simp only [Usage.record, hrun] at hresult
        cases hresult
        cases hfailing

theorem step_sound_iff {cols : Bool} {s s' : Usage ρ} {op : Op ρ} (h : Live s)
    (hs : s.step cols op = some s') : s'.Sound ↔ s.Sound ∧ usable s op := by
  rw [← record_sound_iff cols h op]
  unfold Usage.step at hs
  split_ifs at hs
  cases hs
  simp only [Usage.Sound, List.mem_append, List.mem_singleton, or_imp, forall_and, forall_eq,
    and_assoc]

/-- No null pointer is used, a statement that is closed refuses every call, and `co_fetchAll` tells
whether the rows have come to their end, exactly if every call finds a statement or is refused. -/
theorem statement_guarded_iff (cols connWrapper : Bool) (stmt : Option ℕ) {ops : List (Op ρ)}
    {s : Usage ρ} (h : exec (Usage.step cols) (.init connWrapper stmt) ops = some s) :
    s.Sound ↔ connWrapper = true ∧
      Guarded (Usage.step cols) usable (.init connWrapper stmt) ops := by
  have hinit : (Usage.init connWrapper stmt : Usage ρ).ended = false →
      Live (Usage.init connWrapper stmt : Usage ρ) := by
    intro halive
    have hwrapper : connWrapper = true := by simpa [Usage.init] using halive
    exact ⟨fun _ => ⟨hwrapper, rfl⟩, fun _ => .inr rfl, iff_of_false nofun nofun⟩
  have hmade : (Usage.init connWrapper stmt : Usage ρ).Sound ↔ connWrapper = true := by
    simp [Usage.Sound, Usage.init, Event.valid]
  have halive : ∀ (r r' : Usage ρ) (op : Op ρ), r.step cols op = some r' → r.ended = false := by
    intro r r' op hs
    unfold Usage.step at hs
    split_ifs at hs with hended
    exact Bool.eq_false_iff.mpr hended
  have hbad : ∀ (r : Usage ρ) (op : Op ρ) (r' : Usage ρ), (r.ended = false → Live r) →
      r.step cols op = some r' → (¬ r'.Sound ↔ ¬ r.Sound ∨ ¬ usable r op) := by
    intro r op r' hr hs
    rw [step_sound_iff (hr (halive r r' op hs)) hs, not_and_or]
  rw [← hmade, ← not_iff_not, not_and_or]
  exact exec_bad_iff (fun r op r' hr hs => step_live (hr (halive r r' op hs)) hs) hbad hinit h

def done : Input := ⟨⟨0, 0⟩, []⟩

def last : Input := ⟨⟨0, mysqlNoData⟩, []⟩

/-- A query with one row, whose statement is then closed. -/
def query : List (Op ℕ) :=
  [.execute ⟨done, 0, 0, done⟩, .storeAll done, .fetchAll ⟨done, 7⟩ [⟨last, 0⟩], .close done]

theorem query_sound : ∃ s, exec (Usage.step true) (.init true (some 1)) query = some s ∧
    s.stmt.rows = [7] ∧ s.Sound :=
  ⟨_, rfl, rfl, (@statement_guarded_iff ℕ true true (some 1) query _ rfl).mpr
    ⟨rfl, by decide⟩⟩

/-- A second `co_close` gives the library a null pointer, and a `co_fetchAll` after it succeeds. -/
theorem closed_statement_answers :
    (∃ s, exec (Usage.step true) (.init true (some 1)) (query ++ [.close done]) = some s ∧
      ¬ s.Sound) ∧
    ∃ s, exec (Usage.step true) (.init true (some 1)) (query ++ [.fetchAll ⟨last, 0⟩ []]) = some s ∧
      ¬ s.Sound := by
  constructor
  · refine ⟨_, rfl, fun hs => ?_⟩
    have hcall := hs.2 _ (List.mem_of_getElem? (i := 4) rfl)
    exact Bool.false_ne_true (hcall.valid (.call .closeStart none ⟨0, 0⟩) List.mem_cons_self)
  · refine ⟨_, rfl, fun hs => ?_⟩
    have hcall := hs.2 _ (List.mem_of_getElem? (i := 4) rfl)
    obtain ⟨-, -, r, hresult, hfailing⟩ := hcall.refused rfl
    cases hresult
    cases hfailing

end MSylar.DBPool.MySQLStmt
