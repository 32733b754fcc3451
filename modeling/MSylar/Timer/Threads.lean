import MSylar.Lib.Calls
import MSylar.Lib.Execution
import MSylar.Timer.Store

/-!
# Threads on the timer store

Any number of `insertTimeTask` and `onTimerTriggered` calls in progress at once.
A step of a call is one locked region, one load or store of `m_nextTimerTime` or
one reading of the clock. The pointer to a block is taken in one region
(`lookup`, `creating`) and used in a later one (`placing`), while a trigger may
erase the block in between.
-/

namespace MSylar.Timer
open MSylar.Word MSylar.Execution MSylar.Calls

inductive Cont where
  | count
  | fire (expired : List TimeTask)
  deriving DecidableEq

/-- Program points of `insertTimeTask` (up to `returned`) and of `onTimerTriggered`. -/
inductive Call where
  | entered (task : TimeTask)
  | checking (task : TimeTask)
  | lookup (task : TimeTask)
  | creating (task : TimeTask) (start : ℕ)
  | placing (task : TimeTask) (p : ℕ)
  | comparing (task : TimeTask)
  | counting
  | returned (rc : ℤ)
  | triggered
  | collecting (now : ℕ)
  | draining (now : ℕ) (rest : List ℕ) (expired : List TimeTask)
  | scheduling (expired : List TimeTask)
  | finished
  -- `updateTimerFd`, for both: before its clock reading, before its lock, holding it
  | arming (executeTime : ℕ) (next : Cont)
  | locking (executeTime now : ℕ) (next : Cont)
  | setting (executeTime now : ℕ) (next : Cont)
  deriving DecidableEq

/-- Shared data. `inserted` and `fired` record the tasks whose `TimerBlock::insert` is
done and the expired tasks passed to `m_iom->schedule`. -/
structure Shared where
  store : TimeManager
  clock : ℕ
  fdLocked : Bool
  inserted : List TimeTask
  fired : List TimeTask

abbrev Threads := World Shared Call

def Threads.init (blockSizeMs baseTime : ℕ) : Threads :=
  ⟨⟨.init blockSizeMs baseTime, baseTime, false, [], []⟩, []⟩

def Cont.resume : Cont → Call
  | .count => .counting
  | .fire expired => .scheduling expired

/-- A failed `updateTimerFd` makes `insertTimeTask` return -1; the trigger goes on. -/
def Cont.failed : Cont → Call
  | .count => .returned (-1)
  | .fire expired => .scheduling expired

/-- The next atomic step of a call; `ok` is the result of `timerfd_settime`. -/
def Call.run (ok : Bool) (s : Shared) : Call → Option (Shared × Call)
  | .entered t =>
    if t.executeMs ≤ s.clock then some ({ s with store := s.store.schedule t }, .returned 0)
    else some (s, .checking t)
  | .checking t =>
    if t.executeMs < s.clock then some (s, .returned (-1)) else some (s, .lookup t)
  | .lookup t =>
    if s.store.blockSizeMs = 0 then none
    else
      let start := s.store.blockBegin t.executeMs
      match s.store.timeBlocks.find start with
      | some p => some (s, .placing t p)
      | none => if s.store.blockRangeOk t.executeMs start then some (s, .creating t start) else none
  | .creating t start =>
    let r := s.store.createBlock start
    some ({ s with store := r.2 }, .placing t r.1)
  | .placing t p =>
    if s.store.inRange p t.executeMs then
      some ({ s with store := s.store.insertInBlock p t, inserted := s.inserted ++ [t] },
        .comparing t)
    else some (s, .returned (-1))
  | .comparing t =>
    if t.executeMs < s.store.nextTimerTime then some (s, .arming t.executeMs .count)
    else some (s, .counting)
  | .counting => some ({ s with store := s.store.countTimer }, .returned 0)
  | .triggered => some (s, .collecting s.clock)
  | .collecting now => some (s, .draining now (s.store.collect now) [])
  | .draining now (p :: ps) expired =>
    let r := s.store.drainBlock p now
    some ({ s with store := r.2 }, .draining now ps (expired ++ r.1))
  | .draining now [] expired =>
    let r := s.store.eraseAndReset now
    some ({ s with store := r.2 },
      match r.1 with
      | some t => .arming t (.fire expired)
      | none => .scheduling expired)
  | .scheduling (t :: ts) =>
    some ({ s with store := s.store.fire t, fired := s.fired ++ [t] }, .scheduling ts)
  | .scheduling [] => some (s, .finished)
  | .arming e k => some (s, .locking e s.clock k)
  | .locking e now k =>
    if s.fdLocked then none
    else if s.store.nextTimerTime ≤ e then some (s, k.resume)
    else some ({ s with fdLocked := true }, .setting e now k)
  | .setting e now k =>
    if ok then
      some ({ s with fdLocked := false
                     store := { s.store with nextTimerTime := e
                                             timerFd := some (TimeManager.timerSpec e now) } },
        k.resume)
    else some ({ s with fdLocked := false }, k.failed)
  | .returned _ => none
  | .finished => none

/-- The branches of `Call.run`. -/
inductive Call.Next (ok : Bool) (s : Shared) : Call → Shared → Call → Prop where
  | due (t : TimeTask) :
    Next ok s (.entered t) { s with store := s.store.schedule t } (.returned 0)
  | ahead (t : TimeTask) (hgt : ¬ t.executeMs ≤ s.clock) : Next ok s (.entered t) s (.checking t)
  | past (t : TimeTask) : Next ok s (.checking t) s (.returned (-1))
  | future (t : TimeTask) : Next ok s (.checking t) s (.lookup t)
  | found (t : TimeTask) (p : ℕ)
      (hfind : s.store.timeBlocks.find (s.store.blockBegin t.executeMs) = some p) :
    Next ok s (.lookup t) s (.placing t p)
  | missing (t : TimeTask)
      (hrange : s.store.blockRangeOk t.executeMs (s.store.blockBegin t.executeMs) = true) :
    Next ok s (.lookup t) s (.creating t (s.store.blockBegin t.executeMs))
  | create (t : TimeTask) (start : ℕ) :
    Next ok s (.creating t start) { s with store := (s.store.createBlock start).2 }
      (.placing t (s.store.createBlock start).1)
  | place (t : TimeTask) (p : ℕ) (hrange : s.store.inRange p t.executeMs = true) :
    Next ok s (.placing t p)
      { s with store := s.store.insertInBlock p t, inserted := s.inserted ++ [t] } (.comparing t)
  | refuse (t : TimeTask) (p : ℕ) : Next ok s (.placing t p) s (.returned (-1))
  | sooner (t : TimeTask) : Next ok s (.comparing t) s (.arming t.executeMs .count)
  | later (t : TimeTask) (hge : ¬ t.executeMs < s.store.nextTimerTime) :
    Next ok s (.comparing t) s .counting
  | count : Next ok s .counting { s with store := s.store.countTimer } (.returned 0)
  | trigger : Next ok s .triggered s (.collecting s.clock)
  | collect (now : ℕ) : Next ok s (.collecting now) s (.draining now (s.store.collect now) [])
  | drain (now p : ℕ) (ps : List ℕ) (expired : List TimeTask) :
    Next ok s (.draining now (p :: ps) expired) { s with store := (s.store.drainBlock p now).2 }
      (.draining now ps (expired ++ (s.store.drainBlock p now).1))
  | erase (now : ℕ) (expired : List TimeTask) (c' : Call)
      (hc' : c' = .scheduling expired ∨ ∃ e, c' = .arming e (.fire expired)) :
    Next ok s (.draining now [] expired) { s with store := (s.store.eraseAndReset now).2 } c'
  | fire (t : TimeTask) (ts : List TimeTask) :
    Next ok s (.scheduling (t :: ts)) { s with store := s.store.fire t, fired := s.fired ++ [t] }
      (.scheduling ts)
  | finish : Next ok s (.scheduling []) s .finished
  | arm (e : ℕ) (k : Cont) : Next ok s (.arming e k) s (.locking e s.clock k)
  | armed (e now : ℕ) (k : Cont) (hle : s.store.nextTimerTime ≤ e) :
    Next ok s (.locking e now k) s k.resume
  | lock (e now : ℕ) (k : Cont) (hunlocked : s.fdLocked = false) (hgt : ¬ s.store.nextTimerTime ≤ e) :
    Next ok s (.locking e now k) { s with fdLocked := true } (.setting e now k)
  | set (e now : ℕ) (k : Cont) (hok : ok = true) :
    Next ok s (.setting e now k)
      { s with fdLocked := false
               store := { s.store with nextTimerTime := e
                                       timerFd := some (TimeManager.timerSpec e now) } } k.resume
  | fail (e now : ℕ) (k : Cont) (hok : ok = false) :
    Next ok s (.setting e now k) { s with fdLocked := false } k.failed

theorem Call.next_of_run {ok : Bool} {s s' : Shared} {c c' : Call}
    (h : c.run ok s = some (s', c')) : Call.Next ok s c s' c' := by
  cases c with
  | entered t =>
    simp only [Call.run] at h
    split at h
    · cases h; exact .due t
    · rename_i hgt
      cases h; exact .ahead t hgt
  | checking t =>
    simp only [Call.run] at h
    split at h
    · cases h; exact .past t
    · cases h; exact .future t
  | lookup t =>
    simp only [Call.run] at h
    split at h
    · cases h
    · split at h
      · rename_i p hfind
        cases h; exact .found t p hfind
      · split at h
        · rename_i hrange
          cases h; exact .missing t hrange
        · cases h
  | creating t start => cases h; exact .create t start
  | placing t p =>
    simp only [Call.run] at h
    split at h
    · rename_i hrange
      cases h; exact .place t p hrange
    · cases h; exact .refuse t p
  | comparing t =>
    simp only [Call.run] at h
    split at h
    · cases h; exact .sooner t
    · rename_i hge
      cases h; exact .later t hge
  | counting => cases h; exact .count
  | returned rc => cases h
  | triggered => cases h; exact .trigger
  | collecting now => cases h; exact .collect now
  | draining now rest expired =>
    cases rest with
    | nil =>
      cases h
      refine .erase now expired _ ?_
      split
      · exact .inr ⟨_, rfl⟩
      · exact .inl rfl
    | cons p ps => cases h; exact .drain now p ps expired
  | scheduling expired =>
    cases expired with
    | nil => cases h; exact .finish
    | cons t ts => cases h; exact .fire t ts
  | finished => cases h
  | arming e k => cases h; exact .arm e k
  | locking e now k =>
    simp only [Call.run] at h
    split at h
    · cases h
    · rename_i hunlocked
      split at h
      · rename_i hle
        cases h; exact .armed e now k hle
      · rename_i hgt
        cases h; exact .lock e now k (by simpa using hunlocked) hgt
  | setting e now k =>
    simp only [Call.run] at h
    split at h
    · rename_i hok
      cases h; exact .set e now k hok
    · rename_i hok
      cases h; exact .fail e now k (by simpa using hok)

inductive Action where
  | tick (ms : ℕ)
  | insert (task : TimeTask)
  | trigger
  | next (i : ℕ) (ok : Bool)

/-- `insert` covers `addTimer`, `addConditionTimer` and the re-insertion in `runTimeTask`. -/
def Threads.step (w : Threads) : Action → Option Threads
  | .tick ms => some ⟨{ w.shared with clock := w.shared.clock + ms }, w.calls⟩
  | .insert task => some (w.enter (.entered task))
  | .trigger => some (w.enter .triggered)
  | .next i ok => w.advance (Call.run ok) i

/-! ### Where an inserted task is -/

def Cont.expired : Cont → List TimeTask
  | .count => []
  | .fire expired => expired

def Call.expired : Call → List TimeTask
  | .draining _ _ expired => expired
  | .scheduling expired => expired
  | .arming _ k => k.expired
  | .locking _ _ k => k.expired
  | .setting _ _ k => k.expired
  | _ => []

def Threads.local (w : Threads) : Multiset TimeTask :=
  (w.calls.map fun c => (c.expired : Multiset TimeTask)).sum

/-- Each inserted task has been scheduled, or is in the local list of a running trigger,
or is in a block reachable from `m_time_blocks`. -/
def Threads.Accounted (w : Threads) : Prop :=
  (w.shared.inserted : Multiset TimeTask) = w.shared.fired + w.local + w.shared.store.stored

/-- No task is inside a block that is not in the map. -/
def NoOrphan (m : TimeManager) : Prop :=
  ∀ p, p ∉ m.timeBlocks.entries.map Prod.snd → (m.blocks p).tasks = []

def Threads.NothingLost (w : Threads) : Prop := w.Accounted ∧ NoOrphan w.shared.store

/-! ### The invariant

A trigger that runs its erase region with the clock value `now` has visited every
block that was over at `now`. What can go wrong is an insertion behind its back:
into a block the map no longer holds, or into a block that is over for a trigger
that will not visit it again. `InsertSafe` rules out exactly these insertions. -/

def Call.target : Call → Option ℕ
  | .placing _ p => some p
  | _ => none

/-- The clock value of a trigger past its collect region and the blocks it has yet to visit. -/
def Call.pending : Call → Option (ℕ × List ℕ)
  | .draining now rest _ => some (now, rest)
  | _ => none

/-- The insertion goes to a block of the map, and every trigger that will erase this block
as over still has to visit it. -/
def InsertSafe (w : Threads) (p : ℕ) : Prop :=
  p ∈ w.shared.store.timeBlocks.entries.map Prod.snd ∧
    ∀ c ∈ w.calls, ∀ r ∈ c.pending, (w.shared.store.blocks p).endTime ≤ r.1 → p ∈ r.2

/-- Every `TimerBlock::insert` of a run is safe in the state it starts from. -/
def insertGuard (w : Threads) : Action → Prop
  | .next i _ => ∀ p ∈ w.calls[i]?.bind Call.target, InsertSafe w p
  | _ => True

instance (w : Threads) (p : ℕ) : Decidable (InsertSafe w p) :=
  inferInstanceAs (Decidable (_ ∧ ∀ c ∈ w.calls, ∀ r ∈ c.pending, _))

instance (w : Threads) : DecidablePred (insertGuard w)
  | .next i _ => inferInstanceAs (Decidable (∀ p ∈ w.calls[i]?.bind Call.target, InsertSafe w p))
  | .tick _ | .insert _ | .trigger => isTrue trivial

/-- What a call knows about the store at its program point. -/
def CallOk (m : TimeManager) : Call → Prop
  | .creating t start => m.blockRangeOk t.executeMs start = true
  | .placing _ p => p < m.fresh
  | .draining now rest _ => ∀ e ∈ m.timeBlocks.entries, (m.blocks e.2).endTime ≤ now →
      (m.blocks e.2).tasks ≠ [] → e.2 ∈ rest
  | _ => True

structure Threads.Inv (w : Threads) : Prop where
  wf : w.shared.store.Wf
  orphan : NoOrphan w.shared.store
  calls : ∀ c ∈ w.calls, CallOk w.shared.store c
  accounted : w.Accounted

/-- A change of the store that adds no task to any block. -/
structure Calm (m n : TimeManager) : Prop where
  size : n.blockSizeMs = m.blockSizeMs
  fresh : m.fresh ≤ n.fresh
  old : ∀ e ∈ n.timeBlocks.entries, (n.blocks e.2).tasks ≠ [] → e ∈ m.timeBlocks.entries ∧
    (m.blocks e.2).tasks ≠ [] ∧ (n.blocks e.2).endTime = (m.blocks e.2).endTime

theorem Calm.callOk {m n : TimeManager} (h : Calm m n) {c : Call} (hc : CallOk m c) :
    CallOk n c := by
  cases c with
  | creating t start =>
    simpa only [CallOk, TimeManager.blockRangeOk, h.size] using hc
  | placing t p => exact lt_of_lt_of_le hc h.fresh
  | draining now rest expired =>
    intro e he hend hne
    obtain ⟨hmem, hne', heq⟩ := h.old e he hne
    exact hc e hmem (heq ▸ hend) hne'
  | _ => trivial

theorem Calm.of_same {m n : TimeManager} (hb : n.timeBlocks = m.timeBlocks)
    (hh : n.blocks = m.blocks) (hf : n.fresh = m.fresh) (hs : n.blockSizeMs = m.blockSizeMs) :
    Calm m n := by
  refine ⟨hs, hf.ge, fun e he hne => ?_⟩
  rw [hb] at he
  rw [hh] at hne ⊢
  exact ⟨he, hne, rfl⟩

theorem NoOrphan.of_same {m n : TimeManager} (h : NoOrphan m) (hb : n.timeBlocks = m.timeBlocks)
    (hh : n.blocks = m.blocks) : NoOrphan n := by
  unfold NoOrphan
  rw [hb, hh]
  exact h

/-! ### The regions of the store -/

theorem createBlock_calm {m : TimeManager} (h : m.Wf) (start : ℕ) :
    Calm m (m.createBlock start).2 := by
  cases hf : m.timeBlocks.find start with
  | some p => rw [TimeManager.createBlock_found hf]; exact Calm.of_same rfl rfl rfl rfl
  | none =>
    rw [TimeManager.createBlock_fresh hf]
    refine ⟨rfl, Nat.le_succ _, fun e he hne => ?_⟩
    rcases Multimap.mem_insert.mp he with rfl | he
    · simp only [Function.update_self] at hne
      exact absurd rfl hne
    · have hold : e.2 ≠ m.fresh := (h.below e he).ne
      simp only [Function.update_of_ne hold] at hne ⊢
      exact ⟨he, hne, trivial⟩

theorem createBlock_noOrphan {m : TimeManager} (ho : NoOrphan m) (start : ℕ) :
    NoOrphan (m.createBlock start).2 := by
  cases hf : m.timeBlocks.find start with
  | some p => rw [TimeManager.createBlock_found hf]; exact ho
  | none =>
    rw [TimeManager.createBlock_fresh hf]
    intro p hp
    have hperm := (m.timeBlocks.insert_perm start m.fresh).map Prod.snd
    simp only [hperm.mem_iff, List.map_cons, List.mem_cons, not_or] at hp
    simpa only [Function.update_of_ne hp.1] using ho p hp.2

theorem createBlock_lt {m : TimeManager} (h : m.Wf) (start : ℕ) :
    (m.createBlock start).1 < (m.createBlock start).2.fresh := by
  cases hf : m.timeBlocks.find start with
  | some p => rw [TimeManager.createBlock_found hf]; exact h.below _ (Multimap.find_mem hf)
  | none => rw [TimeManager.createBlock_fresh hf]; exact Nat.lt_succ_self _

theorem drainBlock_blocks (m : TimeManager) (p now q : ℕ) :
    ((m.drainBlock p now).2.blocks q).endTime = (m.blocks q).endTime ∧
      ((m.blocks q).tasks = [] → ((m.drainBlock p now).2.blocks q).tasks = []) := by
  by_cases hq : q = p
  · subst hq
    simp only [TimeManager.drainBlock, TimeManager.setBlock, Function.update_self]
    refine ⟨rfl, fun hnil => ?_⟩
    have happ := TimerBlock.getAndRemove_append (m.blocks q) now
    rw [hnil] at happ
    exact (List.append_eq_nil_iff.mp happ).2
  · simp only [TimeManager.drainBlock, TimeManager.setBlock, Function.update_of_ne hq, true_and,
      imp_self]

theorem drainBlock_calm (m : TimeManager) (p now : ℕ) : Calm m (m.drainBlock p now).2 := by
  refine ⟨rfl, le_rfl, fun e he hne => ⟨he, ?_, (drainBlock_blocks m p now e.2).1⟩⟩
  exact fun hnil => hne ((drainBlock_blocks m p now e.2).2 hnil)

theorem drainBlock_noOrphan {m : TimeManager} (ho : NoOrphan m) (p now : ℕ) :
    NoOrphan (m.drainBlock p now).2 :=
  fun q hq => (drainBlock_blocks m p now q).2 (ho q hq)

/-- What the trigger takes from a block it takes from what is stored, whether or not the
block is still in the map. -/
theorem drainBlock_stored {m : TimeManager} (h : m.Wf) (ho : NoOrphan m) (p now : ℕ) :
    ((m.drainBlock p now).2.stored : Multiset TimeTask) + (m.drainBlock p now).1 = m.stored := by
  have happ := TimerBlock.getAndRemove_append (m.blocks p) now
  by_cases hp : p ∈ m.timeBlocks.entries.map Prod.snd
  · obtain ⟨e, he, rfl⟩ := List.mem_map.mp hp
    have hset := TimeManager.stored_setBlock h he ((m.blocks e.2).getAndRemove now).2
    rw [← happ, ← Multiset.coe_add, ← add_assoc] at hset
    exact add_right_cancel hset
  · rw [ho p hp] at happ
    obtain ⟨hout, -⟩ := List.append_eq_nil_iff.mp happ
    have hout' : (m.drainBlock p now).1 = [] := hout
    have hst : (m.drainBlock p now).2.stored = m.stored :=
      TimeManager.stored_setBlock_unreachable hp _
    rw [hout', hst, Multiset.coe_nil, add_zero]

theorem eraseBlocks_noOrphan {m : TimeManager} (ho : NoOrphan m) {now : ℕ}
    (hover : ∀ e ∈ m.timeBlocks.entries, (m.blocks e.2).endTime ≤ now →
      (m.blocks e.2).tasks = []) : NoOrphan (m.eraseBlocks now) := by
  intro p hp
  show (m.blocks p).tasks = []
  by_cases hmem : p ∈ m.timeBlocks.entries.map Prod.snd
  · obtain ⟨e, he, rfl⟩ := List.mem_map.mp hmem
    have herase : m.erasable now e = true := by
      by_contra hn
      refine hp (List.mem_map.mpr ⟨e, Multimap.mem_filter.mpr ⟨he, ?_⟩, rfl⟩)
      simpa using hn
    simp only [TimeManager.erasable, Bool.or_eq_true, decide_eq_true_eq] at herase
    rcases herase with hend | hempty
    · exact hover e he hend
    · exact (TimerBlock.isEmpty_iff _).mp hempty
  · exact ho p hmem

theorem eraseAndReset_calm (m : TimeManager) (now : ℕ) : Calm m (m.eraseAndReset now).2 :=
  ⟨rfl, le_rfl, fun _ he hne => ⟨List.mem_of_mem_filter he, hne, rfl⟩⟩

/-! ### Steps and runs -/

theorem Threads.init_inv (blockSizeMs baseTime : ℕ) : (Threads.init blockSizeMs baseTime).Inv where
  wf := TimeManager.init_wf _ _
  orphan := fun _ _ => rfl
  calls := by intro c hc; cases hc
  accounted := rfl

/-- One call moves on: the invariant needs the new store, the others' knowledge of it, the
call's own, and the balance of what the call and the store hold. -/
theorem Threads.Inv.advance {w : Threads} (h : w.Inv) {i : ℕ} {c c' : Call} {s : Shared}
    (hc : w.calls[i]? = some c) (hwf : s.store.Wf) (ho : NoOrphan s.store)
    (hothers : ∀ d ∈ w.calls, CallOk w.shared.store d → CallOk s.store d)
    (hown : CallOk s.store c')
    (hbal : (s.inserted : Multiset TimeTask) + (w.shared.fired + c.expired + w.shared.store.stored) =
      w.shared.inserted + (s.fired + c'.expired + s.store.stored)) :
    Threads.Inv ⟨s, w.calls.set i c'⟩ := by
  refine ⟨hwf, ho, forall_set h.calls hothers hown, ?_⟩
  have hsum := sum_set (fun c => (c.expired : Multiset TimeTask)) hc c'
  have hacc := h.accounted
  unfold Accounted Threads.local at hacc ⊢
  dsimp only at hsum ⊢
  generalize ((w.calls.set i c').map fun c => (c.expired : Multiset TimeTask)).sum = x at hsum ⊢
  generalize (w.calls.map fun c => (c.expired : Multiset TimeTask)).sum = y at hsum hacc
  rw [hacc] at hbal
  -- cancel what both sides share with the sum over the other calls
  have hkey : (s.inserted : Multiset TimeTask) + (w.shared.fired + c.expired + w.shared.store.stored) =
      (s.fired + x + s.store.stored) + (w.shared.fired + c.expired + w.shared.store.stored) := by
    rw [hbal]
    calc (w.shared.fired + y + w.shared.store.stored : Multiset TimeTask) +
          (s.fired + c'.expired + s.store.stored)
        = (y + c'.expired) + (w.shared.fired + w.shared.store.stored + (s.fired + s.store.stored)) := by
          abel
      _ = (x + c.expired) + (w.shared.fired + w.shared.store.stored + (s.fired + s.store.stored)) := by
          rw [hsum]
      _ = _ := by abel
  exact add_right_cancel hkey

theorem Threads.Inv.advance_same {w : Threads} (h : w.Inv) {i : ℕ} {c c' : Call} {s : Shared}
    (hc : w.calls[i]? = some c) (hb : s.store.timeBlocks = w.shared.store.timeBlocks)
    (hh : s.store.blocks = w.shared.store.blocks) (hf : s.store.fresh = w.shared.store.fresh)
    (hs : s.store.blockSizeMs = w.shared.store.blockSizeMs) (hown : CallOk s.store c')
    (hbal : (s.inserted : Multiset TimeTask) + (w.shared.fired + c.expired) =
      w.shared.inserted + (s.fired + c'.expired)) :
    Threads.Inv ⟨s, w.calls.set i c'⟩ := by
  refine h.advance hc (h.wf.congr hb hh hf) (h.orphan.of_same hb hh)
    (fun d _ hd => (Calm.of_same hb hh hf hs).callOk hd) hown ?_
  rw [TimeManager.stored_congr hb hh, ← add_assoc, hbal, add_assoc]

theorem Threads.Inv.place {w : Threads} (h : w.Inv) {i p : ℕ} {t : TimeTask}
    (hc : w.calls[i]? = some (.placing t p)) (hr : w.shared.store.inRange p t.executeMs = true)
    (hsafe : InsertSafe w p) :
    Threads.Inv ⟨{ w.shared with store := w.shared.store.insertInBlock p t
                                 inserted := w.shared.inserted ++ [t] },
      w.calls.set i (.comparing t)⟩ := by
  have hp : p < w.shared.store.fresh := h.calls _ (List.mem_of_getElem? hc)
  obtain ⟨e, he, rfl⟩ := List.mem_map.mp hsafe.1
  have hblock : ∀ q, ((w.shared.store.insertInBlock e.2 t).blocks q).endTime =
      (w.shared.store.blocks q).endTime := by
    intro q
    by_cases hq : q = e.2
    · subst hq
      simp only [TimeManager.insertInBlock, TimeManager.setBlock, Function.update_self,
        TimerBlock.insert]
    · simp only [TimeManager.insertInBlock, TimeManager.setBlock, Function.update_of_ne hq]
  have hother : ∀ q, q ≠ e.2 → (w.shared.store.insertInBlock e.2 t).blocks q =
      w.shared.store.blocks q := by
    intro q hq
    simp only [TimeManager.insertInBlock, TimeManager.setBlock, Function.update_of_ne hq]
  refine h.advance hc (TimeManager.insertInBlock_wf h.wf hp hr) ?_ ?_ trivial ?_
  · intro q hq
    have hne : q ≠ e.2 := fun heq => hq (heq ▸ hsafe.1)
    dsimp only
    rw [hother q hne]
    exact h.orphan q hq
  · intro d hd hok
    cases d with
    | creating u start => exact hok
    | placing u q => exact hok
    | draining now rest expired =>
      intro x hx hend hne
      dsimp only at hend hne
      by_cases hxe : x.2 = e.2
      · rw [hxe, hblock] at hend
        exact hxe ▸ hsafe.2 _ hd _ rfl hend
      · rw [hother x.2 hxe] at hend hne
        exact hok x hx hend hne
    | _ => trivial
  · dsimp only
    rw [TimeManager.stored_insertInBlock h.wf he, ← Multiset.coe_add, Multiset.coe_singleton,
      ← Multiset.singleton_add]
    simp only [Call.expired]
    abel

theorem Cont.resume_expired (k : Cont) : k.resume.expired = k.expired := by
  cases k <;> rfl

theorem Cont.failed_expired (k : Cont) : k.failed.expired = k.expired := by
  cases k <;> rfl

theorem callOk_resume (m : TimeManager) (k : Cont) : CallOk m k.resume ∧ CallOk m k.failed := by
  cases k <;> exact ⟨trivial, trivial⟩

theorem Threads.Inv.run {w : Threads} (h : w.Inv) {i : ℕ} {ok : Bool} {c c' : Call} {s : Shared}
    (hc : w.calls[i]? = some c) (hsafe : ∀ t p, c = .placing t p → InsertSafe w p)
    (hrun : c.run ok w.shared = some (s, c')) : Threads.Inv ⟨s, w.calls.set i c'⟩ := by
  have hown : CallOk w.shared.store c := h.calls c (List.mem_of_getElem? hc)
  cases Call.next_of_run hrun with
  | due t | ahead t _ | past t | future t | refuse t p | sooner t | later t _ | count | trigger
  | finish | arm e k | lock e now k _ _ => exact h.advance_same hc rfl rfl rfl rfl trivial rfl
  | found t p hfind =>
    exact h.advance_same hc rfl rfl rfl rfl (h.wf.below _ (Multimap.find_mem hfind)) rfl
  | missing t hrange => exact h.advance_same hc rfl rfl rfl rfl hrange rfl
  | create t start =>
    have hr : start < add64 start w.shared.store.blockSizeMs := by
      simp only [CallOk, TimeManager.blockRangeOk, Bool.and_eq_true, decide_eq_true_eq] at hown
      exact lt_of_le_of_lt hown.1 hown.2
    refine h.advance hc (TimeManager.createBlock_wf h.wf hr) (createBlock_noOrphan h.orphan start)
      (fun d _ hd => (createBlock_calm h.wf start).callOk hd) (createBlock_lt h.wf start) ?_
    dsimp only
    rw [TimeManager.createBlock_stored h.wf]
    rfl
  | place t p hrange => exact h.place hc hrange (hsafe t p rfl)
  | collect now =>
    refine h.advance_same hc rfl rfl rfl rfl ?_ rfl
    intro e he hend _
    refine TimeManager.mem_collect.mpr ⟨e.1, ?_, he⟩
    exact ((h.wf.range e he).trans_le hend).le
  | drain now p ps expired =>
    refine h.advance hc (TimeManager.drainBlock_wf h.wf p now) (drainBlock_noOrphan h.orphan p now)
      (fun d _ hd => (drainBlock_calm _ p now).callOk hd) ?_ ?_
    · intro e he hend hne
      obtain ⟨hmem, hne', heq⟩ := (drainBlock_calm _ p now).old e he hne
      rcases List.mem_cons.mp (hown e hmem (heq ▸ hend) hne') with hp | hp
      · refine absurd ?_ hne
        rw [heq, hp] at hend
        simp only [TimeManager.drainBlock, TimeManager.setBlock, hp, Function.update_self]
        exact TimerBlock.getAndRemove_over (h.wf.filed p) hend
      · exact hp
    · have hst := drainBlock_stored h.wf h.orphan p now
      dsimp only
      rw [← hst]
      simp only [Call.expired, ← Multiset.coe_add]
      abel
  | erase now expired _ hc' =>
    have hover : ∀ e ∈ w.shared.store.timeBlocks.entries,
        (w.shared.store.blocks e.2).endTime ≤ now → (w.shared.store.blocks e.2).tasks = [] := by
      intro e he hend
      by_contra hne
      exact List.not_mem_nil (hown e he hend hne)
    refine h.advance hc ((TimeManager.eraseBlocks_wf h.wf now).congr rfl rfl rfl)
      (NoOrphan.of_same (eraseBlocks_noOrphan h.orphan hover) rfl rfl)
      (fun d _ hd => (eraseAndReset_calm _ now).callOk hd) ?_ ?_
    · rcases hc' with rfl | ⟨e, rfl⟩ <;> trivial
    · have hst : (w.shared.store.eraseAndReset now).2.stored = w.shared.store.stored :=
        (TimeManager.stored_congr rfl rfl).trans (TimeManager.eraseBlocks_stored hover)
      dsimp only
      rw [hst]
      rcases hc' with rfl | ⟨e, rfl⟩ <;> rfl
  | fire t ts =>
    refine h.advance_same hc rfl rfl rfl rfl trivial ?_
    simp only [Call.expired, ← Multiset.coe_add, ← Multiset.cons_coe, ← Multiset.singleton_add]
    abel
  | armed e now k _ =>
    refine h.advance_same hc rfl rfl rfl rfl (callOk_resume _ k).1 ?_
    rw [k.resume_expired]
    rfl
  | set e now k _ =>
    refine h.advance_same hc rfl rfl rfl rfl (callOk_resume _ k).1 ?_
    rw [k.resume_expired]
    rfl
  | fail e now k _ =>
    refine h.advance_same hc rfl rfl rfl rfl (callOk_resume _ k).2 ?_
    rw [k.failed_expired]
    rfl

theorem Threads.step_inv {w w' : Threads} {a : Action} (h : w.Inv) (hg : insertGuard w a)
    (hs : w.step a = some w') : w'.Inv := by
  have henter : ∀ c : Call, CallOk w.shared.store c → c.expired = [] →
      Threads.Inv (w.enter c) := by
    intro c hc hnil
    refine ⟨h.wf, h.orphan, forall_enter h.calls hc, ?_⟩
    have hacc := h.accounted
    unfold Accounted Threads.local at hacc ⊢
    rw [World.enter, sum_enter, hnil, Multiset.coe_nil, add_zero]
    exact hacc
  cases a with
  | tick ms => cases hs; exact ⟨h.wf, h.orphan, h.calls, h.accounted⟩
  | insert task => cases hs; exact henter (.entered task) trivial rfl
  | trigger => cases hs; exact henter .triggered trivial rfl
  | next i ok =>
    obtain ⟨c, s, c', hc, hrun, rfl⟩ := advance_cases hs
    refine h.run hc (fun t p heq => ?_) hrun
    subst heq
    exact hg p (by rw [hc]; rfl)

/-- In a run whose insertions are all safe no task is lost. -/
theorem threads_lose_nothing (blockSizeMs baseTime : ℕ) (as : List Action) (w : Threads)
    (hg : Guarded Threads.step insertGuard (Threads.init blockSizeMs baseTime) as)
    (hw : exec Threads.step (Threads.init blockSizeMs baseTime) as = some w) : w.NothingLost := by
  have hinv := exec_guarded (fun s a t hi hga hst => Threads.step_inv hi hga hst)
    (Threads.init_inv blockSizeMs baseTime) hg hw
  exact ⟨hinv.accounted, hinv.orphan⟩

def taskA : TimeTask := .create 1 0 5 false
def taskB : TimeTask := .create 2 0 15 false

def insertA : List Action := .insert taskA :: List.replicate 10 (.next 0 true)

def firedInTime : List Action :=
  insertA ++ [Action.tick 5, .trigger] ++ List.replicate 6 (Action.next 1 true)

theorem fired_in_time_loses_nothing :
    ∃ w, exec Threads.step (Threads.init 10 0) firedInTime = some w ∧
      w.shared.fired = [taskA] ∧ w.NothingLost :=
  ⟨_, rfl, rfl, threads_lose_nothing 10 0 firedInTime _ (by decide) rfl⟩

/-- The trigger for `taskA` erases the new, still empty block of `taskB` before the
insertion reaches it. -/
def lateInsert : List Action :=
  insertA ++ Action.insert taskB :: List.replicate 4 (Action.next 1 true) ++
    [Action.tick 5, .trigger] ++ List.replicate 4 (Action.next 2 true) ++ [Action.next 1 true]

theorem late_insert_strands_a_task :
    ∃ w, exec Threads.step (Threads.init 10 0) lateInsert = some w ∧ ¬ w.NothingLost := by
  refine ⟨_, rfl, ?_⟩
  intro h
  have hempty := h.2 1 (by decide)
  exact absurd hempty (by decide)

end MSylar.Timer
