import Mathlib.Data.Prod.Lex
import MSylar.Coro.FdContext
import MSylar.Lib.Calls
import MSylar.Lib.Execution

/-!
# The task queue of an fd context (fdContext.cc:95-196)

`FdContextManager::addTask` puts a task on `m_tasks` and tries to become the one
thread that runs what is there: the owner is between a successful exchange of
`m_state` to BUSY and its store back. A thread is a stack of `addTask` calls, the
innermost first: `solveTasks` calls `addTask(nullptr)` when it leaves, and a task
may call `addTask` while it runs. A step of a thread is one region under
`m_task_mutex`, one access to `m_state`, or one stage of a task.
-/

namespace MSylar.Coro
open MSylar.Calls MSylar.Execution
variable {κ : Type*}

inductive State where
  | init
  | ready
  | busy
  | error
  deriving DecidableEq

/-- Program points of a call of `addTask`, `solveTasks` and `solveSingleTask` included.
`second` tells the two loops of `solveTasks` apart, `rt` is the result of
`solveSingleTask`, `rest` what is left of its local list. -/
inductive Frame (κ : Type*) where
  | entered (task : Option (RegistedTask κ))
  | tryReady
  | tryInit
  | checkError
  | splicing (second : Bool)
  | looping (second rt : Bool) (rest : List (RegistedTask κ))
  | started (second rt : Bool) (task : RegistedTask κ) (rest : List (RegistedTask κ))
  | applied (second rt : Bool) (rest : List (RegistedTask κ))
  | storing
  | leaving
  deriving DecidableEq

/-- `pushed` and `ran` record the tasks put on `m_tasks` and the tasks begun, both in
order; `woken` the handlers that triggers have started. -/
structure FdContextManager (κ : Type*) where
  fdcontex : FdContext κ
  state : State
  tasks : List (RegistedTask κ)
  pushed : List (RegistedTask κ)
  ran : List (RegistedTask κ)
  woken : List κ

def FdContextManager.new (fd : ℤ) : FdContextManager κ := ⟨.new fd, .init, [], [], [], []⟩

inductive Next (κ : Type*) where
  | goto (f : Frame κ)
  | call (f callee : Frame κ)
  | ret (value : Bool)
  | throw

/-- `solveSingleTask` returned `rt`: the loop goes on, or the next one starts, or the
owner leaves. -/
def afterSolve (second rt : Bool) : Frame κ :=
  if rt then .splicing second else if second then .storing else .splicing true

def Frame.run (m : FdContextManager κ) : Frame κ → FdContextManager κ × Next κ
  | .entered task =>
    let tasks := m.tasks ++ task.toList
    ({ m with tasks := tasks, pushed := m.pushed ++ task.toList },
      if tasks = [] then .ret true else .goto .tryReady)
  | .tryReady =>
    if m.state = .ready then ({ m with state := .busy }, .goto (.splicing false))
    else (m, .goto .tryInit)
  | .tryInit =>
    if m.state = .init then ({ m with state := .busy }, .goto (.splicing false))
    else (m, .goto .checkError)
  | .checkError => if m.state = .error then (m, .throw) else (m, .ret false)
  | .splicing second =>
    ({ m with tasks := [] }, .goto (.looping second (!m.tasks.isEmpty) m.tasks))
  | .looping second rt (task :: rest) =>
    ({ m with ran := m.ran ++ [task] }, .goto (.started second rt task rest))
  | .looping second rt [] => (m, .goto (afterSolve second rt))
  | .started second rt task rest =>
    let r := task.run m.fdcontex
    ({ m with fdcontex := r.1, woken := m.woken ++ r.2 }, .goto (.applied second rt rest))
  | .applied second rt rest => (m, .goto (.looping second rt rest))
  | .storing =>
    ({ m with state := if m.fdcontex.hasEvent then .ready else .init },
      .call .leaving (.entered none))
  | .leaving => (m, .ret true)

/-- A thread's calls in progress and what its last call gave; an exception unwinds them all. -/
structure Thread (κ : Type*) where
  frames : List (Frame κ)
  result : Option (Option Bool)

def Next.resume (t : Thread κ) (fs : List (Frame κ)) : Next κ → Thread κ
  | .goto f => { t with frames := f :: fs }
  | .call f callee => { t with frames := callee :: f :: fs }
  | .ret value => ⟨fs, some (some value)⟩
  | .throw => ⟨[], some none⟩

def Thread.run (m : FdContextManager κ) (t : Thread κ) : Option (FdContextManager κ × Thread κ) :=
  match t.frames with
  | [] => none
  | f :: fs => some ((f.run m).1, (f.run m).2.resume t fs)

/-- A thread can call `addTask` when it is in no call, or from inside a task it runs. -/
def Thread.canCall (t : Thread κ) : Bool :=
  match t.frames with
  | [] => true
  | .started _ _ _ _ :: _ => true
  | .applied _ _ _ :: _ => true
  | _ => false

abbrev Threads (κ : Type*) := World (FdContextManager κ) (Thread κ)

inductive Action (κ : Type*) where
  | spawn
  | call (i : ℕ) (task : Option (RegistedTask κ))
  | next (i : ℕ)

def Threads.init (fd : ℤ) : Threads κ := ⟨.new fd, []⟩

def Threads.step (w : Threads κ) : Action κ → Option (Threads κ)
  | .spawn => some (w.enter ⟨[], none⟩)
  | .call i task => w.advance (fun m t =>
      if t.canCall then some (m, { t with frames := .entered task :: t.frames }) else none) i
  | .next i => w.advance Thread.run i

def Threads.frames (w : Threads κ) : List (Frame κ) := w.calls.flatMap Thread.frames

/-! ### The invariant -/

def Frame.owner : Frame κ → Bool
  | .splicing _ | .looping _ _ _ | .started _ _ _ _ | .applied _ _ _ | .storing => true
  | _ => false

/-- The tasks an owner has taken from `m_tasks` and not yet begun. -/
def Frame.held : Frame κ → List (RegistedTask κ)
  | .looping _ _ rest => rest
  | .started _ _ _ rest => rest
  | .applied _ _ rest => rest
  | _ => []

/-- A call that will still make the exchange that succeeds in state `s`, or find `m_tasks`
empty. A call past its first exchange answers for INIT only: if the state is READY by
then, the owner that stored it has its own recheck ahead. -/
def Frame.answers (s : State) : Frame κ → Prop
  | .entered _ => True
  | .tryReady => True
  | .tryInit => s = .init
  | _ => False

def FdContext.restState (c : FdContext κ) : State := if c.hasEvent then .ready else .init

/-- Either one owner holds what it has not begun of its list, or nobody owns the queue and
every task on it has a call that answers for it. -/
inductive Consistent (m : FdContextManager κ) (fs : List (Frame κ)) : Prop where
  | owned (f : Frame κ) (state : m.state = .busy) (owner : fs.filter Frame.owner = [f])
      (order : m.pushed = m.ran ++ f.held ++ m.tasks)
  | free (state : m.state = m.fdcontex.restState) (owner : fs.filter Frame.owner = [])
      (order : m.pushed = m.ran ++ m.tasks)
      (answered : m.tasks ≠ [] → ∃ f ∈ fs, f.answers m.state)

theorem FdContext.restState_cases (c : FdContext κ) :
    c.restState = .ready ∧ c.hasEvent = true ∨ c.restState = .init ∧ c.hasEvent = false := by
  cases h : c.hasEvent
  · exact .inr ⟨by simp [restState, h], rfl⟩
  · exact .inl ⟨by simp [restState, h], rfl⟩

theorem Consistent.not_busy {m : FdContextManager κ} {fs : List (Frame κ)}
    (h : Consistent m fs) (hbusy : m.state ≠ .busy) : m.state = .ready ∨ m.state = .init := by
  cases h with
  | owned f hs _ _ => exact absurd hs hbusy
  | free hs _ _ _ =>
    rcases m.fdcontex.restState_cases with ⟨hr, -⟩ | ⟨hr, -⟩
    · exact .inl (hs.trans hr)
    · exact .inr (hs.trans hr)

theorem Consistent.state_ne_error {m : FdContextManager κ} {fs : List (Frame κ)}
    (h : Consistent m fs) : m.state ≠ .error := by
  intro he
  rcases h.not_busy (by rw [he]; decide) with hs | hs <;> rw [hs] at he <;> cases he

theorem Consistent.replace_list {m : FdContextManager κ} {a b : List (Frame κ)} {f : Frame κ}
    (h : Consistent m (a ++ f :: b)) (new : List (Frame κ)) (hf : f.owner = false)
    (hnew : new.filter Frame.owner = [])
    (hans : m.state ≠ .busy → m.tasks ≠ [] → f.answers m.state → ∃ g ∈ new, g.answers m.state) :
    Consistent m (a ++ (new ++ b)) := by
  have hfilter : (a ++ (new ++ b)).filter Frame.owner = (a ++ f :: b).filter Frame.owner := by
    simp only [List.filter_append, List.filter_cons, hf, hnew, List.nil_append, Bool.false_eq_true,
      if_false]
  cases h with
  | owned g hs ho hp => exact .owned g hs (hfilter.trans ho) hp
  | free hs ho hp ha =>
    refine .free hs (hfilter.trans ho) hp fun hne => ?_
    have hbusy : m.state ≠ .busy := by
      rw [hs]
      rcases m.fdcontex.restState_cases with ⟨hr, -⟩ | ⟨hr, -⟩ <;> rw [hr] <;> decide
    obtain ⟨g, hg, hga⟩ := ha hne
    simp only [List.mem_append, List.mem_cons] at hg
    rcases hg with hg | rfl | hg
    · exact ⟨g, by simp [hg], hga⟩
    · obtain ⟨g', hg', hga'⟩ := hans hbusy hne hga
      exact ⟨g', by simp [hg'], hga'⟩
    · exact ⟨g, by simp [hg], hga⟩

/-- A call that is not an owner moves on: if it answers for the queue, so does its successor. -/
theorem Consistent.replace {m : FdContextManager κ} {a b : List (Frame κ)} {f g : Frame κ}
    (h : Consistent m (a ++ f :: b)) (hf : f.owner = false) (hg : g.owner = false)
    (hans : m.state ≠ .busy → m.tasks ≠ [] → f.answers m.state → g.answers m.state) :
    Consistent m (a ++ g :: b) :=
  h.replace_list [g] hf (by simp [hg]) fun hb hne ha => ⟨g, by simp, hans hb hne ha⟩

theorem Consistent.drop {m : FdContextManager κ} {a b : List (Frame κ)} {f : Frame κ}
    (h : Consistent m (a ++ f :: b)) (hf : f.owner = false)
    (hans : m.state ≠ .busy → m.tasks ≠ [] → ¬ f.answers m.state) : Consistent m (a ++ b) :=
  h.replace_list [] hf rfl fun hb hne ha => absurd ha (hans hb hne)

theorem Consistent.acquire {m : FdContextManager κ} {a b : List (Frame κ)} {f : Frame κ}
    (h : Consistent m (a ++ f :: b)) (hbusy : m.state ≠ .busy) :
    Consistent { m with state := .busy } (a ++ .splicing false :: b) := by
  cases h with
  | owned g hs ho hp => exact absurd hs hbusy
  | free hs ho hp ha =>
    simp only [List.filter_append, List.append_eq_nil_iff] at ho
    obtain ⟨hoa, hob⟩ := ho
    have hob' : b.filter Frame.owner = [] := by
      rw [List.filter_cons] at hob
      split at hob
      · cases hob
      · exact hob
    refine .owned (.splicing false) rfl ?_ ?_
    · simp [List.filter_append, List.filter_cons, hoa, hob', Frame.owner]
    · simpa [Frame.held] using hp

theorem Consistent.owned_of {m : FdContextManager κ} {a b : List (Frame κ)} {f : Frame κ}
    (h : Consistent m (a ++ f :: b)) (hf : f.owner = true) :
    m.state = .busy ∧ a.filter Frame.owner = [] ∧ b.filter Frame.owner = [] ∧
      m.pushed = m.ran ++ f.held ++ m.tasks := by
  cases h with
  | owned g hs ho hp =>
    simp only [List.filter_append, List.filter_cons, hf, if_true] at ho
    obtain ⟨hoa, hob⟩ | ⟨-, hob⟩ := List.append_eq_singleton_iff.mp ho
    · obtain ⟨rfl, hnil⟩ := List.cons.inj hob
      exact ⟨hs, hoa, hnil, hp⟩
    · cases hob
  | free hs ho hp ha =>
    simp [List.filter_append, hf] at ho

/-- The owner goes on: the order is kept if what it holds and the queue match. -/
theorem Consistent.own {m m' : FdContextManager κ} {a b : List (Frame κ)} {f f' : Frame κ}
    (h : Consistent m (a ++ f :: b)) (hf : f.owner = true) (hf' : f'.owner = true)
    (hs : m'.state = m.state)
    (hp : m.pushed = m.ran ++ f.held ++ m.tasks → m'.pushed = m'.ran ++ f'.held ++ m'.tasks) :
    Consistent m' (a ++ f' :: b) := by
  obtain ⟨hbusy, hoa, hob, horder⟩ := h.owned_of hf
  refine .owned f' (hs.trans hbusy) ?_ (hp horder)
  simp only [List.filter_append, List.filter_cons, hoa, hob, hf', if_true, List.nil_append]

/-- The entry region: the task goes on the queue, and the caller tries its luck unless
the queue is empty. -/
theorem Consistent.push {m : FdContextManager κ} {a b : List (Frame κ)}
    {task : Option (RegistedTask κ)} (h : Consistent m (a ++ .entered task :: b)) :
    Consistent { m with tasks := m.tasks ++ task.toList, pushed := m.pushed ++ task.toList }
      (a ++ .tryReady :: b) := by
  cases h with
  | owned g hs ho hp =>
    refine .owned g hs ?_ ?_
    · simpa [List.filter_append, List.filter_cons, Frame.owner] using ho
    · simp only [hp, List.append_assoc]
  | free hs ho hp ha =>
    refine .free hs ?_ ?_ fun _ => ⟨.tryReady, by simp, trivial⟩
    · simpa [List.filter_append, List.filter_cons, Frame.owner] using ho
    · simp only [hp, List.append_assoc]

theorem Consistent.release {m : FdContextManager κ} {a b : List (Frame κ)}
    (h : Consistent m (a ++ .storing :: b)) :
    Consistent { m with state := m.fdcontex.restState }
      (a ++ .entered none :: .leaving :: b) := by
  obtain ⟨-, hoa, hob, horder⟩ := h.owned_of rfl
  refine .free rfl ?_ ?_ fun _ => ⟨.entered none, by simp, trivial⟩
  · simp [List.filter_append, Frame.owner, hoa, hob]
  · simpa [Frame.held] using horder

def Next.frames (fs : List (Frame κ)) : Next κ → List (Frame κ)
  | .goto f => f :: fs
  | .call f callee => callee :: f :: fs
  | .ret _ => fs
  | .throw => []

theorem afterSolve_owner (second rt : Bool) :
    (afterSolve second rt : Frame κ).owner = true ∧ (afterSolve second rt : Frame κ).held = [] := by
  cases second <;> cases rt <;> exact ⟨rfl, rfl⟩

theorem Consistent.run {m : FdContextManager κ} {a b fs : List (Frame κ)} {f : Frame κ}
    (h : Consistent m (a ++ f :: (fs ++ b))) :
    Consistent (f.run m).1 (a ++ ((f.run m).2.frames fs ++ b)) := by
  cases f with
  | entered task =>
    simp only [Frame.run]
    split
    · rename_i hnil
      obtain ⟨htasks, htask⟩ := List.append_eq_nil_iff.mp hnil
      have hsame : ({ m with tasks := [], pushed := m.pushed } : FdContextManager κ) = m := by
        rw [← htasks]
      rw [hnil, htask, List.append_nil, hsame]
      exact h.drop rfl fun _ hne => absurd htasks hne
    · exact h.push
  | tryReady =>
    simp only [Frame.run]
    split
    · rename_i hs
      exact h.acquire (by rw [hs]; decide)
    · rename_i hs
      exact h.replace rfl rfl fun hbusy _ _ => (h.not_busy hbusy).resolve_left hs
  | tryInit =>
    simp only [Frame.run]
    split
    · rename_i hs
      exact h.acquire (by rw [hs]; decide)
    · rename_i hs
      exact h.replace rfl rfl fun _ _ ha => absurd ha hs
  | checkError =>
    simp only [Frame.run, if_neg h.state_ne_error]
    exact h.drop rfl fun _ _ ha => ha
  | splicing second =>
    show Consistent _ (a ++ .looping second _ m.tasks :: (fs ++ b))
    refine h.own rfl rfl rfl fun hp => ?_
    simpa [Frame.run, Frame.held] using hp
  | looping second rt rest =>
    cases rest with
    | nil =>
      show Consistent _ (a ++ afterSolve second rt :: (fs ++ b))
      refine h.own rfl (afterSolve_owner second rt).1 rfl fun hp => ?_
      rw [(afterSolve_owner second rt).2]
      exact hp
    | cons task rest =>
      show Consistent _ (a ++ .started second rt task rest :: (fs ++ b))
      refine h.own rfl rfl rfl fun hp => ?_
      simpa [Frame.run, Frame.held] using hp
  | started second rt task rest =>
    show Consistent _ (a ++ .applied second rt rest :: (fs ++ b))
    exact h.own rfl rfl rfl id
  | applied second rt rest =>
    show Consistent _ (a ++ .looping second rt rest :: (fs ++ b))
    exact h.own rfl rfl rfl id
  | storing => exact h.release
  | leaving => exact h.drop rfl fun _ _ ha => ha

/-! ### Runs -/

theorem Next.resume_frames (t : Thread κ) (fs : List (Frame κ)) (n : Next κ) :
    (n.resume t fs).frames = n.frames fs := by
  cases n <;> rfl

theorem Threads.next_frames {w w' : Threads κ} {i : ℕ} (h : w.step (.next i) = some w') :
    ∃ a, ∃ f : Frame κ, ∃ fs b, w.frames = a ++ f :: (fs ++ b) ∧ w'.shared = (f.run w.shared).1 ∧
      w'.frames = a ++ ((f.run w.shared).2.frames fs ++ b) := by
  obtain ⟨t, m, t', hget, hrun, rfl⟩ := advance_cases h
  obtain ⟨l, r, hl, hset⟩ := set_split hget
  unfold Thread.run at hrun
  split at hrun
  · cases hrun
  · rename_i f fs hfs
    simp only [Option.some.injEq, Prod.mk.injEq] at hrun
    obtain ⟨rfl, rfl⟩ := hrun
    refine ⟨l.flatMap Thread.frames, f, fs, r.flatMap Thread.frames, ?_, rfl, ?_⟩
    · simp only [Threads.frames, hl, List.flatMap_append, List.flatMap_cons, hfs, List.cons_append]
    · simp only [Threads.frames, hset, List.flatMap_append, List.flatMap_cons, Next.resume_frames]

theorem Threads.call_frames {w w' : Threads κ} {i : ℕ} {task : Option (RegistedTask κ)}
    (h : w.step (.call i task) = some w') :
    ∃ a b, w.frames = a ++ b ∧ w'.shared = w.shared ∧ w'.frames = a ++ .entered task :: b := by
  unfold Threads.step at h
  obtain ⟨t, m, t', hget, hrun, rfl⟩ := advance_cases h
  obtain ⟨l, r, hl, hset⟩ := set_split hget
  split at hrun
  · simp only [Option.some.injEq, Prod.mk.injEq] at hrun
    obtain ⟨rfl, rfl⟩ := hrun
    refine ⟨l.flatMap Thread.frames, t.frames ++ r.flatMap Thread.frames, ?_, rfl, ?_⟩
    · simp only [Threads.frames, hl, List.flatMap_append, List.flatMap_cons]
    · simp only [Threads.frames, hset, List.flatMap_append, List.flatMap_cons, List.cons_append]
  · cases hrun

theorem Consistent.enter {m : FdContextManager κ} {a b : List (Frame κ)}
    (h : Consistent m (a ++ b)) (task : Option (RegistedTask κ)) :
    Consistent m (a ++ .entered task :: b) := by
  have hfilter : (a ++ .entered task :: b).filter Frame.owner = (a ++ b).filter Frame.owner := by
    simp [List.filter_append, Frame.owner]
  cases h with
  | owned g hs ho hp => exact .owned g hs (hfilter.trans ho) hp
  | free hs ho hp ha =>
    exact .free hs (hfilter.trans ho) hp fun _ => ⟨.entered task, by simp, trivial⟩

def Threads.Inv (w : Threads κ) : Prop := Consistent w.shared w.frames

theorem Threads.step_inv {w w' : Threads κ} {act : Action κ} (h : w.Inv)
    (hs : w.step act = some w') : w'.Inv := by
  unfold Threads.Inv at h ⊢
  cases act with
  | spawn =>
    cases hs
    simpa [World.enter, Threads.frames] using h
  | call i task =>
    obtain ⟨a, b, hw, hsh, hw'⟩ := Threads.call_frames hs
    rw [hsh, hw']
    exact (hw ▸ h).enter task
  | next i =>
    obtain ⟨a, f, fs, b, hw, hsh, hw'⟩ := Threads.next_frames hs
    rw [hsh, hw']
    exact (hw ▸ h).run

theorem Threads.reachable_inv {fd : ℤ} {w : Threads κ}
    (h : Reachable Threads.step (Threads.init fd) w) : w.Inv := by
  have hinit : (Threads.init fd : Threads κ).Inv := .free rfl rfl rfl fun hne => absurd rfl hne
  exact reachable_invariant hinit (fun _ _ _ hi hs => Threads.step_inv hi hs) h

/-! ### Every call returns

Without new calls the threads come to rest. A thread goes round in `solveTasks` again
only when it finds a task on the queue after its own splice, so a task pushed since:
the rank counts the tasks still to be pushed, then whether the queue is empty, then
the steps left to each call up to its next splice. -/

def Frame.toPush : Frame κ → ℕ
  | .entered (some _) => 1
  | _ => 0

/-- A bound on the steps of a call before it returns (`queued = false`) or reaches the
next splice (`queued = true`). -/
def Frame.stepsLeft (queued : Bool) : Frame κ → ℕ
  | .entered _ => if queued then 4 else 1
  | .tryReady => if queued then 3 else 9
  | .tryInit => if queued then 2 else 8
  | .checkError => 1
  | .splicing second => if queued then 0 else if second then 5 else 7
  | .looping second rt rest => solve second rt + 3 * rest.length
  | .started second rt _ rest => solve second rt + 3 * rest.length + 2
  | .applied second rt rest => solve second rt + 3 * rest.length + 1
  | .storing => if queued then 6 else 3
  | .leaving => 1
where
  solve (second rt : Bool) : ℕ := if queued || rt then 8 else if second then 4 else 6

def queued (m : FdContextManager κ) : Bool := !m.tasks.isEmpty

def rank (m : FdContextManager κ) (fs : List (Frame κ)) : ℕ ×ₗ ℕ ×ₗ ℕ :=
  toLex ((fs.map Frame.toPush).sum,
    toLex ((queued m).toNat, (fs.map (Frame.stepsLeft (queued m))).sum))

theorem rank_lt_of_push {m m' : FdContextManager κ} (a b : List (Frame κ)) {old new : List (Frame κ)}
    (hp : (new.map Frame.toPush).sum < (old.map Frame.toPush).sum) :
    rank m' (a ++ (new ++ b)) < rank m (a ++ (old ++ b)) := by
  simp only [rank, Prod.Lex.toLex_lt_toLex, List.map_append, List.sum_append]
  omega

theorem rank_lt_of_splice {m m' : FdContextManager κ} (a b : List (Frame κ))
    {old new : List (Frame κ)} (ht : m.tasks ≠ []) (ht' : m'.tasks = [])
    (hp : (new.map Frame.toPush).sum ≤ (old.map Frame.toPush).sum) :
    rank m' (a ++ (new ++ b)) < rank m (a ++ (old ++ b)) := by
  have hq : (queued m').toNat < (queued m).toNat := by
    have hm : queued m = true := by simp [queued, ht]
    have hm' : queued m' = false := by simp [queued, ht']
    rw [hm, hm']
    decide
  simp only [rank, Prod.Lex.toLex_lt_toLex, List.map_append, List.sum_append]
  omega

theorem rank_lt_of_steps {m m' : FdContextManager κ} (a b : List (Frame κ))
    {old new : List (Frame κ)} (ht : m'.tasks = m.tasks)
    (hp : (new.map Frame.toPush).sum ≤ (old.map Frame.toPush).sum)
    (hs : (new.map (Frame.stepsLeft (queued m))).sum < (old.map (Frame.stepsLeft (queued m))).sum) :
    rank m' (a ++ (new ++ b)) < rank m (a ++ (old ++ b)) := by
  have hq : queued m' = queued m := by simp [queued, ht]
  simp only [rank, Prod.Lex.toLex_lt_toLex, List.map_append, List.sum_append, hq, lt_irrefl,
    false_or, true_and]
  omega

theorem rank_run (m : FdContextManager κ) (a fs b : List (Frame κ)) (f : Frame κ) :
    rank (f.run m).1 (a ++ ((f.run m).2.frames fs ++ b)) < rank m (a ++ (f :: fs ++ b)) := by
  cases f with
  | entered task =>
    cases task with
    | some t =>
      refine rank_lt_of_push a b ?_
      simp [Frame.run, Next.frames, Frame.toPush]
    | none =>
      have ht : ((Frame.entered none).run m).1.tasks = m.tasks := by simp [Frame.run]
      by_cases hnil : m.tasks = []
      · refine rank_lt_of_steps a b ht ?_ ?_ <;>
          simp [Frame.run, Next.frames, Frame.toPush, Frame.stepsLeft, hnil, queued]
      · refine rank_lt_of_steps a b ht ?_ ?_ <;>
          simp [Frame.run, Next.frames, Frame.toPush, Frame.stepsLeft, hnil, queued]
  | tryReady =>
    simp only [Frame.run]
    split
    · refine rank_lt_of_steps a b rfl le_rfl ?_
      cases queued m <;> simp [Next.frames, Frame.stepsLeft]
    · refine rank_lt_of_steps a b rfl le_rfl ?_
      cases queued m <;> simp [Next.frames, Frame.stepsLeft]
  | tryInit =>
    simp only [Frame.run]
    split
    · refine rank_lt_of_steps a b rfl le_rfl ?_
      cases queued m <;> simp [Next.frames, Frame.stepsLeft]
    · refine rank_lt_of_steps a b rfl le_rfl ?_
      cases queued m <;> simp [Next.frames, Frame.stepsLeft]
  | checkError =>
    simp only [Frame.run]
    split
    · refine rank_lt_of_steps a b rfl ?_ ?_
      · simp only [Next.frames, List.map_nil, List.sum_nil, Nat.zero_le]
      · simp only [Next.frames, Frame.stepsLeft, List.map_nil, List.sum_nil, List.map_cons, List.sum_cons]
        omega
    · refine rank_lt_of_steps a b rfl ?_ ?_ <;> simp [Next.frames, Frame.stepsLeft]
  | splicing second =>
    by_cases hnil : m.tasks = []
    · refine rank_lt_of_steps a b hnil.symm le_rfl ?_
      cases second <;> simp [Frame.run, Next.frames, Frame.stepsLeft, Frame.stepsLeft.solve, hnil, queued]
    · exact rank_lt_of_splice a b hnil rfl le_rfl
  | looping second rt rest =>
    cases rest with
    | nil =>
      refine rank_lt_of_steps a b rfl ?_ ?_
      · cases second <;> cases rt <;> exact le_rfl
      · cases queued m <;> cases second <;> cases rt <;>
          simp [Frame.run, afterSolve, Next.frames, Frame.stepsLeft, Frame.stepsLeft.solve]
    | cons task rest =>
      refine rank_lt_of_steps a b rfl le_rfl ?_
      simp [Frame.run, Next.frames, Frame.stepsLeft]
      omega
  | started second rt task rest =>
    refine rank_lt_of_steps a b rfl le_rfl ?_
    simp [Frame.run, Next.frames, Frame.stepsLeft]
  | applied second rt rest =>
    refine rank_lt_of_steps a b rfl le_rfl ?_
    simp [Frame.run, Next.frames, Frame.stepsLeft]
  | storing =>
    refine rank_lt_of_steps a b rfl ?_ ?_
    · simp [Frame.run, Next.frames, Frame.toPush]
    · cases queued m <;> simp [Frame.run, Next.frames, Frame.stepsLeft] <;> omega
  | leaving => refine rank_lt_of_steps a b rfl ?_ ?_ <;> simp [Frame.run, Next.frames, Frame.stepsLeft]

/-- `v` is `u` after a step of some thread that starts no new call of `addTask`. -/
def Threads.Moves (v u : Threads κ) : Prop := ∃ i, u.step (.next i) = some v

theorem Threads.moves_wellFounded : WellFounded (@Threads.Moves κ) := by
  refine Subrelation.wf (fun h => ?_) (InvImage.wf (fun w => rank w.shared w.frames) wellFounded_lt)
  obtain ⟨i, hi⟩ := h
  obtain ⟨a, f, fs, b, hw, hsh, hw'⟩ := Threads.next_frames hi
  simpa only [InvImage, hsh, hw', hw, List.cons_append] using rank_run _ a fs b f

def Threads.Idle (w : Threads κ) : Prop := w.frames = []

theorem Threads.moves_of_not_idle {w : Threads κ} (h : ¬ w.Idle) : ∃ v, Threads.Moves v w := by
  obtain ⟨f, hf⟩ := List.exists_mem_of_ne_nil _ h
  obtain ⟨t, ht, hft⟩ := List.mem_flatMap.mp hf
  obtain ⟨i, hi⟩ := List.mem_iff_getElem?.mp ht
  cases hfs : t.frames with
  | nil => rw [hfs] at hft; cases hft
  | cons g gs =>
    refine ⟨⟨(g.run w.shared).1, w.calls.set i ((g.run w.shared).2.resume t gs)⟩, i, ?_⟩
    simp only [Threads.step, World.advance, hi, Option.bind_some, Thread.run, hfs, Option.map_some]

/-- With no call in progress the queue is empty and everything pushed has been run. -/
theorem Threads.Inv.idle {w : Threads κ} (h : w.Inv) (hidle : w.Idle) :
    w.shared.state = w.shared.fdcontex.restState ∧ w.shared.tasks = [] ∧
      w.shared.pushed = w.shared.ran := by
  unfold Threads.Inv at h
  rw [hidle] at h
  cases h with
  | owned f _ ho _ => cases ho
  | free hs _ hp ha =>
    have htasks : w.shared.tasks = [] := by
      by_contra hne
      obtain ⟨f, hf, -⟩ := ha hne
      cases hf
    rw [htasks, List.append_nil] at hp
    exact ⟨hs, htasks, hp⟩

/-- In every state of every run at most one thread owns the queue and what has run is a
prefix of what was pushed. The calls in progress come to an end however they are
interleaved, and then everything pushed has run, and `m_state` tells whether the context
has an event. -/
theorem task_queue_combines (fd : ℤ) (w : Threads κ)
    (h : Reachable Threads.step (Threads.init fd) w) :
    (w.frames.filter Frame.owner).length ≤ 1 ∧ w.shared.ran <+: w.shared.pushed ∧
      (w.Idle → w.shared.tasks = [] ∧ w.shared.ran = w.shared.pushed ∧
        (w.shared.state = .init ↔ w.shared.fdcontex.hasEvent = false) ∧
        (w.shared.state = .ready ↔ w.shared.fdcontex.hasEvent = true)) ∧
      Acc Threads.Moves w ∧ (¬ w.Idle → ∃ v, Threads.Moves v w) := by
  have hinv : Consistent w.shared w.frames := Threads.reachable_inv h
  refine ⟨?_, ?_, ?_, Threads.moves_wellFounded.apply w, Threads.moves_of_not_idle⟩
  · cases hinv with
    | owned f _ ho _ => rw [ho]; exact le_rfl
    | free _ ho _ _ => rw [ho]; exact Nat.zero_le 1
  · cases hinv with
    | owned f _ _ hp => exact ⟨_, by rw [hp, List.append_assoc]⟩
    | free _ _ hp _ => exact ⟨_, hp.symm⟩
  · intro hidle
    obtain ⟨hs, htasks, hran⟩ := Threads.Inv.idle hinv hidle
    refine ⟨htasks, hran.symm, ?_⟩
    rcases w.shared.fdcontex.restState_cases with ⟨hr, he⟩ | ⟨hr, he⟩ <;> simp [hs, hr, he]

/-- Thread 1 leaves its trigger to thread 0, which is running the registration; thread 0
then starts the handler. -/
def leftToOwner : List (Action ℕ) :=
  [Action.spawn, .spawn, .call 0 (some (.add Event.read (some 7)))] ++
    List.replicate 5 (Action.next 0) ++
    Action.call 1 (some (.trigger Event.read)) :: List.replicate 4 (Action.next 1) ++
    List.replicate 15 (Action.next 0)

theorem left_to_owner_runs_in_order :
    ∃ w, exec Threads.step (Threads.init 3) leftToOwner = some w ∧
      w.shared.ran = [.add Event.read (some 7), .trigger Event.read] ∧ w.shared.woken = [7] ∧
      w.shared.ran = w.shared.pushed ∧ w.shared.tasks = [] :=
  ⟨_, rfl, rfl, rfl, ((task_queue_combines 3 _ ⟨leftToOwner, rfl⟩).2.2.1 rfl).2.1, rfl⟩

end MSylar.Coro
