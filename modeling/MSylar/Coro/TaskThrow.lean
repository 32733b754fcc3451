import MSylar.Coro.TaskQueue

/-!
# A task that throws (fdContext.cc:160-196)

`solveSingleTask` logs the exception of a task and throws it again. It leaves `solveTasks` before
the store of `m_state`, and the list of the tasks that were to follow goes with the call. Only the
owner runs tasks, so below it on the stack there are no other calls of user code.
-/

namespace MSylar.Coro
open MSylar.Calls MSylar.Execution
variable {κ : Type*}

/-- The task at the top of the stack throws: before it has changed the context, `k` handlers of a
trigger started, or after. -/
def Thread.throws (k : ℕ) (m : FdContextManager κ) (t : Thread κ) :
    Option (FdContextManager κ × Thread κ) :=
  match t.frames with
  | .started _ _ task _ :: _ =>
    some ({ m with woken := m.woken ++ (task.run m.fdcontex).2.take k }, ⟨[], some none⟩)
  | .applied _ _ _ :: _ => some (m, ⟨[], some none⟩)
  | _ => none

inductive Throwing (κ : Type*) where
  | act (a : Action κ)
  | throws (i k : ℕ)

def Threads.throwStep (w : Threads κ) : Throwing κ → Option (Threads κ)
  | .act a => w.step a
  | .throws i k => w.advance (Thread.throws k) i

/-! ### What is to hold -/

/-- A call of `addTask` from here on comes to rest with all others, and then its task has run. -/
def Threads.RunsLater (w : Threads κ) : Prop :=
  ∀ i task v, w.step (.call i (some task)) = some v →
    (∃ v', Reachable Threads.step v v' ∧ v'.Idle) ∧
    ∀ v', Reachable Threads.step v v' → v'.Idle →
      task ∈ v'.shared.ran.drop w.shared.ran.length

/-- BUSY, and nobody there to change it. -/
def Dead (m : FdContextManager κ) (fs : List (Frame κ)) : Prop :=
  m.state = .busy ∧ fs.filter Frame.owner = []

/-! ### After a throw -/

theorem Threads.throws_frames {w w' : Threads κ} {i k : ℕ}
    (h : w.throwStep (.throws i k) = some w') :
    ∃ (f : Frame κ) (a fs b : List (Frame κ)), f.owner = true ∧ w.frames = a ++ f :: (fs ++ b) ∧
      w'.frames = a ++ b ∧ w'.shared.state = w.shared.state := by
  obtain ⟨t, m, t', hget, hrun, rfl⟩ := advance_cases h
  obtain ⟨l, r, hl, hset⟩ := set_split hget
  unfold Thread.throws at hrun
  split at hrun
  · rename_i second rt task rest fs hfs
    cases hrun
    refine ⟨.started second rt task rest, l.flatMap Thread.frames, fs, r.flatMap Thread.frames, rfl,
      ?_, ?_, rfl⟩
    · simp only [Threads.frames, hl, List.flatMap_append, List.flatMap_cons, hfs, List.cons_append]
    · simp only [Threads.frames, hset, List.flatMap_append, List.flatMap_cons, List.nil_append]
  · rename_i second rt rest fs hfs
    cases hrun
    refine ⟨.applied second rt rest, l.flatMap Thread.frames, fs, r.flatMap Thread.frames, rfl,
      ?_, ?_, rfl⟩
    · simp only [Threads.frames, hl, List.flatMap_append, List.flatMap_cons, hfs, List.cons_append]
    · simp only [Threads.frames, hset, List.flatMap_append, List.flatMap_cons, List.nil_append]
  · cases hrun

theorem Consistent.dead {m m' : FdContextManager κ} {a fs b : List (Frame κ)} {f : Frame κ}
    (h : Consistent m (a ++ f :: (fs ++ b))) (hf : f.owner = true) (hs : m'.state = m.state) :
    Dead m' (a ++ b) := by
  obtain ⟨hbusy, ha, hfsb, -⟩ := h.owned_of hf
  rw [List.filter_append, List.append_eq_nil_iff] at hfsb
  exact ⟨hs.trans hbusy, by rw [List.filter_append, ha, hfsb.2, List.append_nil]⟩

theorem Consistent.not_dead {m : FdContextManager κ} {fs : List (Frame κ)} (h : Consistent m fs) :
    ¬ Dead m fs := by
  rintro ⟨hbusy, hnone⟩
  cases h with
  | owned f _ ho _ => rw [hnone] at ho; cases ho
  | free hs _ _ _ =>
    rw [hs] at hbusy
    rcases m.fdcontex.restState_cases with ⟨hr, -⟩ | ⟨hr, -⟩ <;> rw [hr] at hbusy <;> cases hbusy

/-- Where the state is BUSY, a call that is not the owner's neither changes it nor becomes one. -/
theorem Frame.run_busy {m : FdContextManager κ} {f : Frame κ} (hs : m.state = .busy)
    (hf : f.owner = false) (fs : List (Frame κ)) (hfs : fs.filter Frame.owner = []) :
    (f.run m).1.state = .busy ∧ ((f.run m).2.frames fs).filter Frame.owner = [] := by
  cases f with
  | entered task =>
    simp only [Frame.run]
    split
    · exact ⟨hs, hfs⟩
    · exact ⟨hs, hfs⟩
  | tryReady =>
    simp only [Frame.run, hs, reduceCtorEq, if_false]
    exact ⟨trivial, hfs⟩
  | tryInit =>
    simp only [Frame.run, hs, reduceCtorEq, if_false]
    exact ⟨trivial, hfs⟩
  | checkError =>
    simp only [Frame.run, hs, reduceCtorEq, if_false]
    exact ⟨trivial, hfs⟩
  | leaving => exact ⟨hs, hfs⟩
  | splicing _ | looping _ _ _ | started _ _ _ _ | applied _ _ _ | storing => cases hf

theorem Dead.step {w w' : Threads κ} {a : Throwing κ} (h : Dead w.shared w.frames)
    (hs : w.throwStep a = some w') : Dead w'.shared w'.frames := by
  obtain ⟨hbusy, hnone⟩ := h
  cases a with
  | act a =>
    cases a with
    | spawn =>
      cases hs
      refine ⟨hbusy, ?_⟩
      simpa [World.enter, Threads.frames] using hnone
    | call i task =>
      obtain ⟨l, r, hw, hsh, hw'⟩ := Threads.call_frames hs
      rw [hw] at hnone
      rw [hsh, hw']
      refine ⟨hbusy, ?_⟩
      simpa [List.filter_append, Frame.owner] using hnone
    | next i =>
      obtain ⟨l, f, fs, r, hw, hsh, hw'⟩ := Threads.next_frames hs
      rw [hw, List.filter_append, List.filter_cons, List.append_eq_nil_iff] at hnone
      obtain ⟨hl, hrest⟩ := hnone
      split at hrest
      · cases hrest
      · rename_i hf
        rw [List.filter_append, List.append_eq_nil_iff] at hrest
        obtain ⟨hstate, hframes⟩ :=
          Frame.run_busy hbusy (Bool.eq_false_iff.mpr hf) fs hrest.1
        rw [hsh, hw']
        refine ⟨hstate, ?_⟩
        rw [List.filter_append, List.filter_append, hl, hframes, hrest.2]
        rfl
  | throws i k =>
    obtain ⟨f, l, fs, r, hf, hw, -, -⟩ := Threads.throws_frames hs
    rw [hw, List.filter_append, List.filter_cons, if_pos hf, List.append_eq_nil_iff] at hnone
    cases hnone.2

/-! ### Without a throw -/

/-- From any state the calls in progress can be brought to an end. -/
theorem Threads.rests (w : Threads κ) : ∃ v, Reachable Threads.step w v ∧ v.Idle := by
  induction w using Threads.moves_wellFounded.induction with
  | _ w ih =>
    by_cases hidle : w.Idle
    · exact ⟨w, ⟨[], rfl⟩, hidle⟩
    · obtain ⟨v, i, hi⟩ := Threads.moves_of_not_idle hidle
      obtain ⟨u, hu, hidle'⟩ := ih v ⟨i, hi⟩
      exact ⟨u, Reachable.head hi hu, hidle'⟩

/-- A call whose task has not been pushed yet, or a task that was pushed after the first `n`. -/
def Threads.Arrives (n : ℕ) (task : RegistedTask κ) (w : Threads κ) : Prop :=
  n ≤ w.shared.pushed.length ∧
    (.entered (some task) ∈ w.frames ∨ task ∈ w.shared.pushed.drop n)

theorem Frame.run_pushed (m : FdContextManager κ) (f : Frame κ) :
    ∃ new, (f.run m).1.pushed = m.pushed ++ new ∧
      ∀ task, f = .entered (some task) → task ∈ new := by
  cases f with
  | entered task =>
    refine ⟨task.toList, rfl, ?_⟩
    rintro t ht
    cases ht
    exact List.mem_singleton_self t
  | tryReady =>
    refine ⟨[], ?_, by simp⟩
    simp only [Frame.run, List.append_nil]
    split <;> rfl
  | tryInit =>
    refine ⟨[], ?_, by simp⟩
    simp only [Frame.run, List.append_nil]
    split <;> rfl
  | checkError =>
    refine ⟨[], ?_, by simp⟩
    simp only [Frame.run, List.append_nil]
    split <;> rfl
  | looping second rt rest =>
    refine ⟨[], ?_, by simp⟩
    cases rest <;> exact (List.append_nil _).symm
  | splicing _ | started _ _ _ _ | applied _ _ _ | storing | leaving =>
    exact ⟨[], (List.append_nil _).symm, by simp⟩

/-- The calls below the top of a stack stay, unless the state is ERROR. -/
theorem Frame.run_below {m : FdContextManager κ} (hs : m.state ≠ .error) (f : Frame κ)
    (fs : List (Frame κ)) : ∀ g ∈ fs, g ∈ (f.run m).2.frames fs := by
  intro g hg
  cases f with
  | entered task =>
    simp only [Frame.run]
    split
    · exact hg
    · exact List.mem_cons_of_mem _ hg
  | tryReady =>
    simp only [Frame.run]
    split <;> exact List.mem_cons_of_mem _ hg
  | tryInit =>
    simp only [Frame.run]
    split <;> exact List.mem_cons_of_mem _ hg
  | checkError =>
    simp only [Frame.run, if_neg hs]
    exact hg
  | looping second rt rest => cases rest <;> exact List.mem_cons_of_mem _ hg
  | storing => exact List.mem_cons_of_mem _ (List.mem_cons_of_mem _ hg)
  | leaving => exact hg
  | splicing _ | started _ _ _ _ | applied _ _ _ => exact List.mem_cons_of_mem _ hg

theorem Threads.Arrives.step {n : ℕ} {task : RegistedTask κ} {w w' : Threads κ} {a : Action κ}
    (h : w.Inv ∧ w.Arrives n task) (hs : w.step a = some w') : w'.Inv ∧ w'.Arrives n task := by
  obtain ⟨hinv, hn, harrives⟩ := h
  refine ⟨Threads.step_inv hinv hs, ?_⟩
  cases a with
  | spawn =>
    cases hs
    refine ⟨hn, harrives.imp_left fun hmem => ?_⟩
    simpa [World.enter, Threads.frames] using hmem
  | call i other =>
    obtain ⟨l, r, hw, hsh, hw'⟩ := Threads.call_frames hs
    unfold Threads.Arrives
    rw [hsh, hw']
    rw [hw] at harrives
    refine ⟨hn, harrives.imp_left fun hmem => ?_⟩
    rcases List.mem_append.mp hmem with hmem | hmem
    · exact List.mem_append_left _ hmem
    · exact List.mem_append_right _ (List.mem_cons_of_mem _ hmem)
  | next i =>
    obtain ⟨l, f, fs, r, hw, hsh, hw'⟩ := Threads.next_frames hs
    obtain ⟨new, hpushed, htask⟩ := f.run_pushed w.shared
    have hbelow := Frame.run_below (Consistent.state_ne_error hinv) f fs
    unfold Threads.Arrives
    rw [hsh, hw', hpushed]
    rw [hw] at harrives
    refine ⟨by rw [List.length_append]; omega, ?_⟩
    rw [List.drop_append_of_le_length hn]
    rcases harrives with hmem | hmem
    · rcases List.mem_append.mp hmem with hmem | hmem
      · exact .inl (List.mem_append_left _ hmem)
      · rcases List.mem_cons.mp hmem with heq | hmem
        · exact .inr (List.mem_append_right _ (htask task heq.symm))
        · refine .inl (List.mem_append_right _ ?_)
          rcases List.mem_append.mp hmem with hmem | hmem
          · exact List.mem_append_left _ (hbelow _ hmem)
          · exact List.mem_append_right _ hmem
    · exact .inr (List.mem_append_left _ hmem)

theorem Threads.Inv.runsLater {w : Threads κ} (h : w.Inv) (hidle : w.Idle) : w.RunsLater := by
  intro i task v hv
  have hran := (h.idle hidle).2.2
  have hstart : v.Inv ∧ v.Arrives w.shared.ran.length task := by
    refine ⟨Threads.step_inv h hv, ?_⟩
    obtain ⟨l, r, -, hsh, hw'⟩ := Threads.call_frames hv
    unfold Threads.Arrives
    rw [hsh, hw', hran]
    exact ⟨le_rfl, .inl (List.mem_append_right _ List.mem_cons_self)⟩
  refine ⟨Threads.rests v, fun v' hv' hidle' => ?_⟩
  obtain ⟨hinv', -, harrives⟩ :=
    @reachable_invariant _ _ Threads.step (fun u => u.Inv ∧ u.Arrives w.shared.ran.length task)
      v v' hstart (fun _ _ _ hi hs => Threads.Arrives.step hi hs) hv'
  rw [← (hinv'.idle hidle').2.2]
  refine harrives.resolve_left fun hmem => ?_
  rw [hidle'] at hmem
  cases hmem

/-! ### Runs -/

def Throwing.quiet : Throwing κ → Prop
  | .act _ => True
  | .throws _ _ => False

theorem Threads.throwStep_inv {w w' : Threads κ} {a : Throwing κ}
    (h : w.Inv ∨ Dead w.shared w.frames) (hs : w.throwStep a = some w') :
    (w'.Inv ∨ Dead w'.shared w'.frames) ∧
      (Dead w'.shared w'.frames ↔ Dead w.shared w.frames ∨ ¬ a.quiet) := by
  rcases h with hinv | hdead
  · cases a with
    | act a =>
      have hinv' : w'.Inv := Threads.step_inv hinv hs
      refine ⟨.inl hinv', fun hd => absurd hd (Consistent.not_dead hinv'), fun hd => ?_⟩
      exact absurd (hd.resolve_right (not_not.mpr trivial)) (Consistent.not_dead hinv)
    | throws i k =>
      obtain ⟨f, l, fs, r, hf, hw, hw', hstate⟩ := Threads.throws_frames hs
      have hdead : Dead w'.shared w'.frames := by
        unfold Threads.Inv at hinv
        rw [hw] at hinv
        rw [hw']
        exact hinv.dead hf hstate
      exact ⟨.inr hdead, fun _ => .inr id, fun _ => hdead⟩
  · have hdead' := hdead.step hs
    exact ⟨.inr hdead', fun _ => .inl hdead, fun _ => hdead'⟩

/-- When all calls have returned or have been left by an exception, the descriptor still works iff
no task has thrown. -/
theorem throwing_callback_iff (fd : ℤ) (as : List (Throwing κ)) (w : Threads κ)
    (h : exec Threads.throwStep (Threads.init fd) as = some w) (hidle : w.Idle) :
    (w.shared.state ≠ .busy ∧ w.shared.pushed = w.shared.ran ++ w.shared.tasks ∧ w.RunsLater) ↔
      ∀ i k, .throws i k ∉ as := by
  have hinit : (Threads.init fd : Threads κ).Inv := .free rfl rfl rfl fun hne => absurd rfl hne
  have hinv : w.Inv ∨ Dead w.shared w.frames :=
    exec_invariant (fun _ _ _ hi hs => (Threads.throwStep_inv hi hs).1) (.inl hinit) h
  have hdead : Dead w.shared w.frames ↔ ¬ ∀ a ∈ as, a.quiet := by
    have hbad : Dead w.shared w.frames ↔
        Dead (Threads.init fd : Threads κ).shared (Threads.init fd : Threads κ).frames ∨
          ¬ Guarded Threads.throwStep (fun _ a => a.quiet) (Threads.init fd) as :=
      exec_bad_iff (fun _ _ _ hi hs => (Threads.throwStep_inv hi hs).1)
        (fun _ _ _ hi hs => (Threads.throwStep_inv hi hs).2) (.inl hinit) h
    rw [hbad, guarded_forall h]
    exact or_iff_right (Consistent.not_dead hinit)
  have hquiet : (∀ a ∈ as, a.quiet) ↔ ∀ i k, .throws i k ∉ as := by
    constructor
    · exact fun hall i k hmem => hall _ hmem
    · intro hnone a ha
      cases a with
      | act a => trivial
      | throws i k => exact hnone i k ha
  rw [← hquiet]
  constructor
  · rintro ⟨hbusy, -, -⟩
    by_contra hthrown
    exact hbusy (hdead.mpr hthrown).1
  · intro hall
    have hw : w.Inv := hinv.resolve_right fun hd => hdead.mp hd hall
    obtain ⟨hstate, htasks, hran⟩ := hw.idle hidle
    have hbusy : w.shared.state ≠ .busy := by
      rw [hstate]
      rcases w.shared.fdcontex.restState_cases with ⟨hr, -⟩ | ⟨hr, -⟩ <;> rw [hr] <;> decide
    exact ⟨hbusy, by rw [htasks, List.append_nil, hran], hw.runsLater hidle⟩

def quietTask : List (Throwing ℕ) :=
  [.act .spawn, .act (.call 0 (some (.add Event.read (some 7))))] ++
    List.replicate 15 (.act (.next 0))

theorem quiet_task_runs_later :
    ∃ w, exec Threads.throwStep (Threads.init 3) quietTask = some w ∧ w.Idle ∧
      w.shared.state ≠ .busy ∧ w.shared.pushed = w.shared.ran ++ w.shared.tasks ∧ w.RunsLater := by
  refine ⟨_, rfl, rfl, (throwing_callback_iff 3 quietTask _ rfl ?_).mpr ?_⟩
  · rfl
  · intro i k
    simp [quietTask]

/-- The owner finds three tasks on the queue, of which the second throws; then another task is
added. -/
def throwingTrigger : List (Throwing ℕ) :=
  [.act .spawn, .act .spawn, .act (.call 0 (some (.add Event.read (some 7))))] ++
    List.replicate 3 (.act (.next 0)) ++
    .act (.call 1 (some (.trigger Event.read))) :: List.replicate 4 (.act (.next 1)) ++
    .act (.call 1 (some (.trigger Event.write))) :: List.replicate 4 (.act (.next 1)) ++
    List.replicate 5 (.act (.next 0)) ++ [.throws 0 0] ++
    .act (.call 1 (some (.del Event.read))) :: List.replicate 4 (.act (.next 1))

theorem throwing_trigger_disables_fd :
    ∃ w, exec Threads.throwStep (Threads.init 3) throwingTrigger = some w ∧ w.Idle ∧
      w.shared.state = .busy ∧ w.shared.tasks = [.del Event.read] ∧
      w.shared.ran = [.add Event.read (some 7), .trigger Event.read] ∧
      w.shared.pushed = [.add Event.read (some 7), .trigger Event.read, .trigger Event.write,
        .del Event.read] ∧
      ¬ (w.shared.state ≠ .busy ∧ w.shared.pushed = w.shared.ran ++ w.shared.tasks ∧
        w.RunsLater) := by
  refine ⟨_, rfl, rfl, rfl, rfl, rfl, rfl, ?_⟩
  rintro ⟨hbusy, -, -⟩
  exact hbusy rfl

end MSylar.Coro
