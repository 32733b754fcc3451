import MSylar.DBPool.Query

/-!
# MySQLConn::executeQuery (mysql.cc:50-56, 285-318)

`mysql_real_query_start` and `mysql_real_query_cont` return a status, 0 when the query is complete,
and leave its result in `err`. The start tests the status first and the loop tests `err` first. What
the library answers and how the waits end are the inputs; a response has what happened until it was
made and its state.
-/

namespace MSylar.DBPool.MySQLConn
open MSylar.DBPool.Query
variable {μ κ : Type*}

structure Answer where
  status : ℤ
  err : ℤ
  deriving DecidableEq

inductive Event where
  | answered (a : Answer)
  | woken (st : IOState)
  deriving DecidableEq

/-- `MySQLResp::MySQLResp`: a response without a handle has failed. -/
def respState (mysql : Option μ) (st : IOState) : IOState :=
  if mysql.isNone then .failed else st

/-- The loop (mysql.cc:302-315). Each round has the end of its wait and what the library would answer
then; a wait that has timed out is not followed by a call. -/
def awaitQuery (mysql : μ) : List (IOState × Answer) → Option (List Event × IOState)
  | [] => none
  | (st, a) :: rounds =>
    if st = .timeOut then some ([.woken st], respState (some mysql) .timeOut)
    else if a.err ≠ 0 then some ([.woken st, .answered a], respState (some mysql) .failed)
    else if a.status = 0 then some ([.woken st, .answered a], respState (some mysql) .success)
    else (awaitQuery mysql rounds).map fun r => (.woken st :: .answered a :: r.1, r.2)

/-- `none` is a call that still waits. The handle is there: the constructor of `MySQLConn` throws
without one. -/
def executeQuery (mysql : μ) (start : Answer) (rounds : List (IOState × Answer)) :
    Option (List Event × IOState) :=
  if start.status = 0 then some ([.answered start], respState (some mysql) .success)
  else if start.err ≠ 0 then some ([.answered start], respState (some mysql) .failed)
  else (awaitQuery mysql rounds).map fun r => (.answered start :: r.1, r.2)

/-! ### The phases of `Query` -/

/-- The state of the response to which the phases up to `co_fetchAll` lead. -/
def respAfter : Phase → List (Input κ) → Option IOState
  | _, [] => none
  | ph, x :: xs =>
    match ph.run x with
    | .inl (.fetch st) => some st
    | .inl next => respAfter next xs
    | .inr st => some st

def Answer.input (a : Answer) (st : IOState) : Input κ :=
  { status := a.status, err := decide (a.err ≠ 0), woken := st }

theorem awaitQuery_phases (mysql : μ) (rounds : List (IOState × Answer)) :
    (awaitQuery mysql rounds).map Prod.snd =
      respAfter .waiting (rounds.map fun r => (r.2.input r.1 : Input κ)) := by
  induction rounds with
  | nil => rfl
  | cons r rounds ih =>
    obtain ⟨st, a⟩ := r
    rw [awaitQuery, List.map_cons, respAfter]
    by_cases hlate : st = .timeOut
    · simp [Phase.run, Answer.input, hlate, respState]
    · by_cases herr : a.err = 0
      · by_cases hdone : a.status = 0
        · simp [Phase.run, Answer.input, hlate, herr, hdone, respState]
        · simpa [Phase.run, Answer.input, hlate, herr, hdone, Function.comp_def] using ih
      · simp [Phase.run, Answer.input, hlate, herr, respState]

/-- The response has the state in which the phases of `Query` come to `co_fetchAll`. -/
theorem executeQuery_phases (mysql : μ) (start : Answer) (rounds : List (IOState × Answer)) :
    (executeQuery mysql start rounds).map Prod.snd =
      respAfter .send ((start.input .success : Input κ) :: rounds.map fun r => r.2.input r.1) := by
  rw [executeQuery, respAfter]
  by_cases hdone : start.status = 0
  · simp [Phase.run, Answer.input, hdone, respState]
  · by_cases herr : start.err = 0
    · have hloop := @awaitQuery_phases _ κ mysql rounds
      simpa [Phase.run, Answer.input, hdone, herr, Function.comp_def] using hloop
    · simp [Phase.run, Answer.input, hdone, herr, respState]

/-! ### What a response reports -/

/-- A call has completed without an error, and no wait had timed out before it. -/
def Completed (log : List Event) : Prop :=
  ∃ before after, log = before ++ .answered ⟨0, 0⟩ :: after ∧ .woken .timeOut ∉ before

structure Reports (log : List Event) (st : IOState) : Prop where
  success : st = .success ↔ Completed log
  timeOut : st = .timeOut ↔ .woken .timeOut ∈ log
  failed : st = .failed ↔ ¬ Completed log ∧ .woken .timeOut ∉ log

/-- The call has to wait, or to go on waiting. -/
def Answer.Pending (a : Answer) : Prop := a.status ≠ 0 ∧ a.err = 0

theorem not_completed_nil : ¬ Completed [] := by
  rintro ⟨before, after, h, -⟩
  cases before <;> cases h

theorem completed_cons (e : Event) (log : List Event) :
    Completed (e :: log) ↔ e = .answered ⟨0, 0⟩ ∨ e ≠ .woken .timeOut ∧ Completed log := by
  constructor
  · rintro ⟨before, after, h, htime⟩
    cases before with
    | nil =>
      cases h
      exact .inl rfl
    | cons d before =>
      cases h
      exact .inr ⟨fun hd => htime (hd ▸ List.mem_cons_self), before, after, rfl,
        fun hmem => htime (List.mem_cons_of_mem _ hmem)⟩
  · rintro (rfl | ⟨hne, before, after, rfl, htime⟩)
    · exact ⟨[], log, rfl, List.not_mem_nil⟩
    · refine ⟨e :: before, after, rfl, fun hmem => ?_⟩
      rcases List.mem_cons.mp hmem with heq | hmem
      · exact hne heq.symm
      · exact htime hmem

theorem Reports.cons {e : Event} {log : List Event} {st : IOState} (h : Reports log st)
    (hdone : e ≠ .answered ⟨0, 0⟩) (htime : e ≠ .woken .timeOut) : Reports (e :: log) st := by
  have hcompleted : Completed (e :: log) ↔ Completed log := by
    simp only [completed_cons, hdone, false_or, ne_eq, htime, not_false_eq_true, true_and]
  have hlate : .woken .timeOut ∈ e :: log ↔ .woken .timeOut ∈ log := by
    simp only [List.mem_cons, htime.symm, false_or]
  refine ⟨h.success.trans hcompleted.symm, h.timeOut.trans hlate.symm, ?_⟩
  rw [hcompleted, hlate]
  exact h.failed

theorem Answer.Pending.ne {a : Answer} (h : a.Pending) : Event.answered a ≠ .answered ⟨0, 0⟩ := by
  intro heq
  cases heq
  exact h.1 rfl

theorem reports_timeOut : Reports [.woken .timeOut] .timeOut := by
  refine ⟨?_, ?_, ?_⟩ <;> simp [completed_cons, not_completed_nil]

theorem reports_success : Reports [.answered ⟨0, 0⟩] .success := by
  refine ⟨?_, ?_, ?_⟩ <;> simp [completed_cons]

theorem reports_failed {a : Answer} (h : a ≠ ⟨0, 0⟩) : Reports [.answered a] .failed := by
  refine ⟨?_, ?_, ?_⟩ <;> simp [completed_cons, not_completed_nil, h]

theorem awaitQuery_reports {mysql : μ} {rounds : List (IOState × Answer)} {log : List Event}
    {st : IOState} (h : awaitQuery mysql rounds = some (log, st)) : Reports log st := by
  induction rounds generalizing log with
  | nil => cases h
  | cons r rounds ih =>
    obtain ⟨woken, ⟨status, err⟩⟩ := r
    have hwait : ∀ {tail}, woken ≠ .timeOut → Reports tail st → Reports (.woken woken :: tail) st :=
      fun hin htail => htail.cons (by simp) (by simpa using hin)
    rw [awaitQuery] at h
    split_ifs at h with hlate herr hdone
    · cases h
      subst hlate
      exact reports_timeOut
    · cases h
      exact hwait hlate (reports_failed fun ha => herr (congrArg Answer.err ha))
    · cases h
      have ha : (⟨status, err⟩ : Answer) = ⟨0, 0⟩ := congrArg₂ Answer.mk hdone (not_not.mp herr)
      rw [ha]
      exact hwait hlate reports_success
    · obtain ⟨⟨rest, last⟩, hrest, heq⟩ := Option.map_eq_some_iff.mp h
      cases heq
      have hpending : Answer.Pending ⟨status, err⟩ := ⟨hdone, not_not.mp herr⟩
      exact hwait hlate ((ih hrest).cons hpending.ne (by simp))

theorem awaitQuery_eq_none_iff (mysql : μ) (rounds : List (IOState × Answer)) :
    awaitQuery mysql rounds = none ↔ ∀ r ∈ rounds, r.1 ≠ .timeOut ∧ r.2.Pending := by
  induction rounds with
  | nil => simp [awaitQuery]
  | cons r rounds ih =>
    obtain ⟨woken, a⟩ := r
    rw [awaitQuery, List.forall_mem_cons, ← ih]
    split_ifs with hlate herr hdone
    · simp [hlate]
    · simp [Answer.Pending, herr]
    · simp [Answer.Pending, hdone]
    · simp [Answer.Pending, hlate, hdone, not_not.mp herr]

/-- A call returns unless every answer and every wait lets it go on. Its response reports what
happened, but for a query that fails at once: then the status is 0, and `err` is not looked at. -/
theorem executeQuery_reports_iff (mysql : μ) (start : Answer) (rounds : List (IOState × Answer)) :
    (executeQuery mysql start rounds = none ↔
      start.Pending ∧ ∀ r ∈ rounds, r.1 ≠ .timeOut ∧ r.2.Pending) ∧
    ∀ log st, executeQuery mysql start rounds = some (log, st) →
      (Reports log st ↔ ¬ (start.status = 0 ∧ start.err ≠ 0)) := by
  unfold executeQuery
  split_ifs with hdone herr
  · refine ⟨by simp [Answer.Pending, hdone], fun log st h => ?_⟩
    cases h
    constructor
    · rintro hrep ⟨-, hne⟩
      have hcompleted := hrep.success.mp rfl
      simp only [completed_cons, not_completed_nil, and_false, or_false, Event.answered.injEq]
        at hcompleted
      exact hne (congrArg Answer.err hcompleted)
    · intro hok
      have herr : start.err = 0 := by simpa [hdone] using hok
      have hstart : start = ⟨0, 0⟩ := congrArg₂ Answer.mk hdone herr
      rw [hstart]
      exact reports_success
  · refine ⟨by simp [Answer.Pending, herr], fun log st h => ?_⟩
    cases h
    have hrep := reports_failed fun ha : start = ⟨0, 0⟩ => hdone (congrArg Answer.status ha)
    exact iff_of_true hrep fun hstart => hdone hstart.1
  · have hpending : start.Pending := ⟨hdone, not_not.mp herr⟩
    rw [Option.map_eq_none_iff, awaitQuery_eq_none_iff]
    refine ⟨by simp [hpending], fun log st h => ?_⟩
    obtain ⟨⟨rest, last⟩, hrest, heq⟩ := Option.map_eq_some_iff.mp h
    cases heq
    have hrep := (awaitQuery_reports hrest).cons hpending.ne (by simp)
    exact iff_of_true hrep fun hstart => hdone hstart.1

/-- The library waits for the server, and then for it again. -/
theorem suspended_query_reports :
    executeQuery () ⟨1, 0⟩ [(.success, ⟨2, 0⟩), (.success, ⟨0, 7⟩)] =
      some ([.answered ⟨1, 0⟩, .woken .success, .answered ⟨2, 0⟩, .woken .success,
        .answered ⟨0, 7⟩], .failed) ∧
    Reports [.answered ⟨1, 0⟩, .woken .success, .answered ⟨2, 0⟩, .woken .success,
      .answered ⟨0, 7⟩] .failed := by
  refine ⟨rfl, ?_⟩
  exact ((executeQuery_reports_iff () ⟨1, 0⟩ [(.success, ⟨2, 0⟩), (.success, ⟨0, 7⟩)]).2 _ _ rfl).mpr
    (by decide)

/-- A query that fails at once is answered with `SUCCESS`. -/
theorem immediate_error_is_success :
    executeQuery () ⟨0, 1⟩ [] = some ([.answered ⟨0, 1⟩], .success) ∧
      ¬ Reports [.answered ⟨0, 1⟩] .success := by
  refine ⟨rfl, fun hrep => ?_⟩
  have hcompleted := hrep.success.mp rfl
  simp [completed_cons, not_completed_nil] at hcompleted

end MSylar.DBPool.MySQLConn
