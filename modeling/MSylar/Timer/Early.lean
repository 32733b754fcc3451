import Mathlib.Data.List.GetD
import Mathlib.Data.List.Induction
import MSylar.Lib.Calls
import MSylar.Timer.Failing

/-!
# Delays up to 2^64 (timer_task.hpp:19-28, timer_task.cc:29-37, timer.cc:411-527)

The execute time of a task, the start of its block and the end of that block are sums of `uint64_t`
values. A task is created, given to `insertTimeTask` once, triggered and run; `runTimeTask` then
gives a cyclic task to `insertTimeTask` again. The deadlines of a task are counted without bounds
here, and `log` has every scheduling with the clock value that `insertTimeTask` or
`onTimerTriggered` has read.
-/

namespace MSylar.Timer.Early
open MSylar.Word MSylar.Execution MSylar.Calls TimeManager

/-- `born`: when each task was created and its delay; the `ref` of a task is its place there. `idle`:
the tasks that `insertTimeTask` is to be called with. `waiting`: the tasks that are scheduled and
have not run. `crashed`: the assertion on the range of a block has failed. -/
structure Life where
  store : TimeManager
  clock : ℕ
  born : List (ℕ × ℕ)
  idle : List TimeTask
  waiting : List TimeTask
  log : List (ℕ × ℕ)
  crashed : Bool

def Life.init (blockSizeMs baseTime : ℕ) : Life :=
  ⟨.init blockSizeMs baseTime, baseTime, [], [], [], [], false⟩

/-- The clock values that the calls read; `canceled` is the flag when `runTimeTask` reads it. -/
inductive Action where
  | create (now ms : ℕ) (isCycle : Bool)
  | insert (i : ℕ) (now nowBlock nowFd : ℕ) (ok : Bool)
  | trigger (now nowFd : ℕ) (ok : Bool)
  | run (i : ℕ) (canceled : Bool)

/-- The store after a call that has read `now` first and `last` last. -/
def Life.after (s : Life) (m : TimeManager) (now last : ℕ) : Life :=
  let fired := m.scheduled.drop s.store.scheduled.length
  { s with store := m, clock := last, waiting := s.waiting ++ fired
           log := s.log ++ fired.map fun t => (t.ref, now) }

def Life.insert (s : Life) (t : TimeTask) (now nowBlock nowFd : ℕ) (ok : Bool) : Life :=
  match s.store.insertTimeTask (some t) now nowBlock nowFd ok with
  | none => { s with clock := nowFd, crashed := true }
  | some r => s.after r.2 now nowFd

/-- The clock is a `uint64_t` and does not go back. -/
def Life.step (s : Life) : Action → Option Life
  | .create now ms isCycle =>
    if !s.crashed ∧ s.clock ≤ now ∧ now < 2^64 ∧ ms < 2^64 then
      some { s with clock := now, born := s.born ++ [(now, ms)]
                    idle := s.idle ++ [.create s.born.length now ms isCycle] }
    else none
  | .insert i now nowBlock nowFd ok =>
    if !s.crashed ∧ s.clock ≤ now ∧ now ≤ nowBlock ∧ nowBlock ≤ nowFd ∧ nowFd < 2^64 then
      s.idle[i]?.map fun t =>
        { s with idle := s.idle.eraseIdx i }.insert t now nowBlock nowFd ok
    else none
  | .trigger now nowFd ok =>
    if !s.crashed ∧ s.clock ≤ now ∧ now ≤ nowFd ∧ nowFd < 2^64 then
      some (s.after (s.store.onTimerTriggered now nowFd ok) now nowFd)
    else none
  | .run i canceled =>
    if !s.crashed then
      s.waiting[i]?.map fun t =>
        { s with waiting := s.waiting.eraseIdx i
                 idle := if !canceled ∧ t.next.isCycle then s.idle ++ [t.next] else s.idle }
    else none

/-! ### Deadlines -/

/-- How often a task has been scheduled. -/
def times (log : List (ℕ × ℕ)) (ref : ℕ) : ℕ := (log.map Prod.fst).count ref

def birth (born : List (ℕ × ℕ)) (ref : ℕ) : ℕ := (born.getD ref (0, 0)).1

def delay (born : List (ℕ × ℕ)) (ref : ℕ) : ℕ := (born.getD ref (0, 0)).2

/-- The time from which on the task may be scheduled for the `k + 1`-th time. -/
def deadline (born : List (ℕ × ℕ)) (ref k : ℕ) : ℕ := birth born ref + (k + 1) * delay born ref

/-- No task has been scheduled before its deadline. -/
def OnTime (born log : List (ℕ × ℕ)) : Prop :=
  ∀ before x after, log = before ++ x :: after → deadline born x.1 (times before x.1) ≤ x.2

def Life.due (s : Life) (ref : ℕ) : ℕ := deadline s.born ref (times s.log ref)

/-- Every task was scheduled in time, and the assertion has not failed. -/
def Life.Punctual (s : Life) : Prop := OnTime s.born s.log ∧ s.crashed = false

/-- A task that is to be put in a block has a deadline for which the end of the block is a
`uint64_t`. -/
def fits (s : Life) : Action → Prop
  | .insert i now nowBlock _ _ => ∀ t ∈ s.idle[i]?,
      s.due t.ref ≤ now ∨ s.due t.ref < nowBlock ∨ s.store.FitsIn (s.due t.ref)
  | _ => True

theorem times_append (log log' : List (ℕ × ℕ)) (ref : ℕ) :
    times (log ++ log') ref = times log ref + times log' ref := by
  rw [times, List.map_append, List.count_append]
  rfl

theorem times_fired {ts : List TimeTask} {now ref : ℕ} :
    times (ts.map fun t => (t.ref, now)) ref = (ts.map TimeTask.ref).count ref := by
  rw [times, List.map_map]
  rfl

theorem deadline_succ (born : List (ℕ × ℕ)) (ref k : ℕ) :
    deadline born ref (k + 1) = deadline born ref k + delay born ref := by
  rw [deadline, deadline, Nat.succ_mul (k + 1), Nat.add_assoc]

theorem onTime_nil (born : List (ℕ × ℕ)) : OnTime born [] := by
  intro before x after h
  cases before <;> cases h

theorem onTime_concat (born log : List (ℕ × ℕ)) (x : ℕ × ℕ) :
    OnTime born (log ++ [x]) ↔ OnTime born log ∧ deadline born x.1 (times log x.1) ≤ x.2 := by
  constructor
  · intro h
    refine ⟨fun before y after heq => ?_, h log x [] rfl⟩
    exact h before y (after ++ [x]) (by rw [heq, List.append_assoc, List.cons_append])
  · rintro ⟨h, hx⟩ before y after heq
    rcases List.eq_nil_or_concat after with rfl | ⟨after, z, rfl⟩
    · obtain ⟨rfl, hy⟩ := List.append_inj' heq rfl
      cases hy
      exact hx
    · rw [List.concat_eq_append, ← List.cons_append, ← List.append_assoc] at heq
      obtain ⟨rfl, -⟩ := List.append_inj' heq rfl
      exact h before y after rfl

/-- Tasks that are scheduled together. -/
theorem onTime_fired (born log : List (ℕ × ℕ)) {ts : List TimeTask} (now : ℕ)
    (hnodup : (ts.map TimeTask.ref).Nodup) :
    OnTime born (log ++ ts.map fun t => (t.ref, now)) ↔
      OnTime born log ∧ ∀ t ∈ ts, deadline born t.ref (times log t.ref) ≤ now := by
  induction ts using List.reverseRecOn with
  | nil => simp
  | append_singleton ts t ih =>
    rw [List.map_append, List.nodup_append] at hnodup
    have hnew : times (log ++ ts.map fun t => (t.ref, now)) t.ref = times log t.ref := by
      have hnot : t.ref ∉ ts.map TimeTask.ref := fun hmem =>
        hnodup.2.2 _ hmem _ (List.mem_singleton_self _) rfl
      rw [times_append, times_fired, List.count_eq_zero.mpr hnot, Nat.add_zero]
    rw [List.map_append, List.map_singleton, ← List.append_assoc, onTime_concat, ih hnodup.1, hnew,
      and_assoc]
    simp only [List.mem_append, List.mem_singleton, or_imp, forall_and, forall_eq]

/-! ### Where the tasks are -/

def Life.live (s : Life) : Multiset TimeTask :=
  (s.idle : Multiset TimeTask) + s.store.stored + s.waiting

/-- A task on its way to a block or in one has its deadline as its execute time, modulo `2^64`; one
that waits to run comes to it by `next`. -/
structure Inv (s : Life) : Prop where
  tiled : s.store.Tiled
  size : 0 < s.store.blockSizeMs ∧ s.store.blockSizeMs < 2^64
  base : s.store.baseTime ≤ s.clock
  bound : s.clock < 2^64
  delays : ∀ ref, delay s.born ref < 2^64
  logged : ∀ x ∈ s.log, x.1 < s.born.length
  refs : (s.live.map TimeTask.ref).Nodup
  known : ∀ t ∈ s.live, t.ref < s.born.length ∧ t.intrevalMs = delay s.born t.ref
  next : ∀ t, t ∈ s.idle ∨ t ∈ s.store.stored → t.executeMs = s.due t.ref % 2^64
  last : ∀ t ∈ s.waiting, (t.executeMs + delay s.born t.ref) % 2^64 = s.due t.ref % 2^64
  past : OnTime s.born s.log → ∀ ref < s.born.length, s.due ref ≤ s.clock + delay s.born ref
  stored : OnTime s.born s.log → ∀ t ∈ s.store.stored, s.due t.ref < 2^64

theorem mem_live {s : Life} {t : TimeTask} :
    t ∈ s.live ↔ (t ∈ s.idle ∨ t ∈ s.store.stored) ∨ t ∈ s.waiting := by
  simp only [Life.live, Multiset.mem_add, Multiset.mem_coe]

theorem init_inv {blockSizeMs baseTime : ℕ} (hsize : 0 < blockSizeMs ∧ blockSizeMs < 2^64)
    (hbase : baseTime < 2^64) : Inv (.init blockSizeMs baseTime) where
  tiled := init_tiled _ _
  size := hsize
  base := le_rfl
  bound := hbase
  delays := fun ref => by simp [Life.init, delay]
  logged := nofun
  refs := Multiset.nodup_zero
  known := nofun
  next := by rintro t (ht | ht) <;> cases ht
  last := nofun
  past := fun _ ref href => absurd href (Nat.not_lt_zero ref)
  stored := nofun

/-- The tasks `ts` are scheduled, and nothing else becomes of a task than that it is put in a block
or is lost. -/
structure Fires (s s' : Life) (ts : List TimeTask) (now : ℕ) : Prop where
  born : s'.born = s.born
  log : s'.log = s.log ++ ts.map fun t => (t.ref, now)
  waiting : s'.waiting = s.waiting ++ ts
  live : s'.live ≤ s.live
  fired : ∀ t ∈ ts, t ∈ s.idle ∨ t ∈ s.store.stored
  kept : ∀ t, t ∈ s'.idle ∨ t ∈ s'.store.stored → t ∈ s.idle ∨ t ∈ s.store.stored
  clock : s.clock ≤ now ∧ now ≤ s'.clock ∧ s'.clock < 2^64
  tiled : s'.store.Tiled
  size : s'.store.blockSizeMs = s.store.blockSizeMs
  base : s'.store.baseTime = s.store.baseTime

namespace Fires
variable {s s' : Life} {ts : List TimeTask} {now : ℕ}

theorem refs (h : Inv s) (hf : Fires s s' ts now) : (s'.live.map TimeTask.ref).Nodup :=
  Multiset.nodup_of_le (Multiset.map_le_map hf.live) h.refs

theorem fired_nodup (h : Inv s) (hf : Fires s s' ts now) : (ts.map TimeTask.ref).Nodup := by
  have hrefs := refs h hf
  rw [Life.live, hf.waiting, ← Multiset.coe_add, ← add_assoc, Multiset.map_add] at hrefs
  have hts := (Multiset.nodup_add.mp hrefs).2.1
  rwa [Multiset.map_coe, Multiset.coe_nodup] at hts

/-- The tasks that are not scheduled are other tasks. -/
theorem count_other (h : Inv s) (hf : Fires s s' ts now) {t : TimeTask}
    (ht : (t ∈ s'.idle ∨ t ∈ s'.store.stored) ∨ t ∈ s.waiting) :
    (ts.map TimeTask.ref).count t.ref = 0 := by
  have hrefs := refs h hf
  rw [Life.live, hf.waiting, ← Multiset.coe_add, ← add_assoc, Multiset.map_add] at hrefs
  have hdisj := (Multiset.nodup_add.mp hrefs).2.2
  refine List.count_eq_zero.mpr fun hmem => ?_
  have hleft : t.ref ∈ Multiset.map TimeTask.ref
      ((s'.idle : Multiset TimeTask) + s'.store.stored + s.waiting) := by
    refine Multiset.mem_map_of_mem _ ?_
    simpa only [Multiset.mem_add, Multiset.mem_coe] using ht
  exact Multiset.disjoint_left.mp hdisj hleft (by simpa using hmem)

theorem due_eq (hf : Fires s s' ts now) (ref : ℕ) :
    s'.due ref = deadline s.born ref (times s.log ref + (ts.map TimeTask.ref).count ref) := by
  rw [Life.due, hf.born, hf.log, times_append, times_fired]

theorem due_other (h : Inv s) (hf : Fires s s' ts now) {t : TimeTask}
    (ht : (t ∈ s'.idle ∨ t ∈ s'.store.stored) ∨ t ∈ s.waiting) : s'.due t.ref = s.due t.ref := by
  rw [hf.due_eq, count_other h hf ht]
  rfl

theorem due_fired (h : Inv s) (hf : Fires s s' ts now) {t : TimeTask} (ht : t ∈ ts) :
    s'.due t.ref = s.due t.ref + delay s.born t.ref := by
  have hone : (ts.map TimeTask.ref).count t.ref = 1 :=
    List.count_eq_one_of_mem (fired_nodup h hf) (List.mem_map_of_mem ht)
  rw [hf.due_eq, hone, deadline_succ]
  rfl

theorem onTime_iff (h : Inv s) (hf : Fires s s' ts now) :
    OnTime s'.born s'.log ↔ OnTime s.born s.log ∧ ∀ t ∈ ts, s.due t.ref ≤ now := by
  rw [hf.born, hf.log]
  exact onTime_fired s.born s.log now (fired_nodup h hf)

theorem inv (h : Inv s) (hf : Fires s s' ts now)
    (hstored : OnTime s.born s.log → ∀ t ∈ s'.store.stored, s.due t.ref < 2^64) : Inv s' := by
  obtain ⟨hnow, hlast, hbound⟩ := hf.clock
  refine ⟨hf.tiled, ?_, ?_, hbound, ?_, ?_, refs h hf, ?_, ?_, ?_, ?_, ?_⟩
  · rw [hf.size]
    exact h.size
  · rw [hf.base]
    exact (h.base.trans hnow).trans hlast
  · rw [hf.born]
    exact h.delays
  · intro x hx
    rw [hf.born]
    rw [hf.log] at hx
    rcases List.mem_append.mp hx with hx | hx
    · exact h.logged x hx
    · obtain ⟨t, ht, rfl⟩ := List.mem_map.mp hx
      exact (h.known t (mem_live.mpr (.inl (hf.fired t ht)))).1
  · intro t ht
    rw [hf.born]
    exact h.known t (Multiset.mem_of_le hf.live ht)
  · intro t ht
    rw [due_other h hf (.inl ht)]
    exact h.next t (hf.kept t ht)
  · intro t ht
    rw [hf.born]
    rw [hf.waiting] at ht
    rcases List.mem_append.mp ht with ht | ht
    · rw [due_other h hf (.inr ht)]
      exact h.last t ht
    · rw [due_fired h hf ht, h.next t (hf.fired t ht), Nat.mod_add_mod]
  · intro hon ref href
    obtain ⟨hold, hfired⟩ := (onTime_iff h hf).mp hon
    rw [hf.born] at href ⊢
    have hpast := h.past hold ref href
    by_cases hmem : ref ∈ ts.map TimeTask.ref
    · obtain ⟨t, ht, rfl⟩ := List.mem_map.mp hmem
      have hdue := hfired t ht
      rw [due_fired h hf ht]
      omega
    · rw [hf.due_eq, List.count_eq_zero.mpr hmem]
      change s.due ref ≤ _
      omega
  · intro hon t ht
    rw [due_other h hf (.inl (.inr ht))]
    exact hstored ((onTime_iff h hf).mp hon).1 t ht

end Fires

/-! ### insertTimeTask -/

/-- A deadline that is at most one delay away is out of the range of `uint64_t` exactly if its
execute time has wrapped around, to a time that is past. -/
theorem wraps {d c ms now : ℕ} (hpast : d ≤ c + ms) (hms : ms < 2^64) (hc : c ≤ now)
    (hnow : now < 2^64) : d < 2^64 ∧ d % 2^64 = d ∨ 2^64 ≤ d ∧ d % 2^64 ≤ now := by
  rcases Nat.lt_or_ge d (2^64) with hlt | hge
  · exact .inl ⟨hlt, Nat.mod_eq_of_lt hlt⟩
  · refine .inr ⟨hge, ?_⟩
    rw [Nat.mod_eq_sub_mod hge, Nat.mod_eq_of_lt (by omega)]
    omega

/-- A task is taken from `idle` for a call that leaves the store as `r` and has scheduled `ts`. -/
theorem after_fires {s : Life} {i : ℕ} {t : TimeTask} (ht : s.idle[i]? = some t) {now nowFd : ℕ}
    {r : TimeManager} {ts : List TimeTask} (hnow : s.clock ≤ now)
    (hlast : now ≤ nowFd ∧ nowFd < 2^64) (htiled : r.Tiled)
    (hsame : r.blockSizeMs = s.store.blockSizeMs ∧ r.baseTime = s.store.baseTime)
    (hsch : r.scheduled = s.store.scheduled ++ ts)
    (hlive : (r.stored : Multiset TimeTask) + ts ≤ t ::ₘ s.store.stored) :
    Fires s (({ s with idle := s.idle.eraseIdx i } : Life).after r now nowFd) ts now := by
  have hdrop : r.scheduled.drop s.store.scheduled.length = ts := by rw [hsch, List.drop_left]
  have hmember : ∀ u, u ∈ (r.stored : Multiset TimeTask) + ts →
      u ∈ s.idle ∨ u ∈ s.store.stored := by
    intro u hu
    rcases Multiset.mem_cons.mp (Multiset.mem_of_le hlive hu) with rfl | hold
    · exact .inl (List.mem_of_getElem? ht)
    · exact .inr hold
  refine ⟨rfl, ?_, ?_, ?_, ?_, ?_, ⟨hnow, hlast⟩, htiled, hsame.1, hsame.2⟩
  · simp only [Life.after, hdrop]
  · simp only [Life.after, hdrop]
  · simp only [Life.live, Life.after, hdrop, coe_eq_cons_erase ht, ← Multiset.coe_add]
    calc (s.idle.eraseIdx i : Multiset TimeTask) + r.stored + (s.waiting + ts)
        = r.stored + ts + (s.idle.eraseIdx i + s.waiting) := by abel
      _ ≤ t ::ₘ s.store.stored + (s.idle.eraseIdx i + s.waiting) := add_le_add_left hlive _
      _ = t ::ₘ (s.idle.eraseIdx i : Multiset TimeTask) + s.store.stored + s.waiting := by
        rw [← Multiset.singleton_add, ← Multiset.singleton_add]
        abel
  · exact fun u hu => hmember u (Multiset.mem_add.mpr (.inr hu))
  · rintro u (hu | hu)
    · exact .inl (List.mem_of_mem_eraseIdx hu)
    · exact hmember u (Multiset.mem_add.mpr (.inl hu))

/-- What an insertion leaves of the tasks. -/
theorem insert_fires {s : Life} (h : Inv s) {i : ℕ} {t : TimeTask} (ht : s.idle[i]? = some t)
    {now nowBlock nowFd : ℕ} {ok : Bool} {rc : ℤ} {r : TimeManager} (hnow : s.clock ≤ now)
    (hlast : now ≤ nowFd ∧ nowFd < 2^64)
    (hins : s.store.insertTimeTask (some t) now nowBlock nowFd ok = some (rc, r)) :
    Fires s (({ s with idle := s.idle.eraseIdx i } : Life).after r now nowFd)
        (if t.executeMs ≤ now then [t] else []) now ∧
      ∀ u ∈ r.stored, u ∈ s.store.stored ∨ u = t ∧ now < t.executeMs := by
  obtain ⟨hcases, htiled, hsame⟩ := insertTimeTask_cases h.tiled hins
  -- the task is put in a block
  have hput : now < t.executeMs → r.scheduled = s.store.scheduled →
      (r.stored : Multiset TimeTask) = t ::ₘ s.store.stored →
      Fires s (({ s with idle := s.idle.eraseIdx i } : Life).after r now nowFd) [] now ∧
        ∀ u ∈ r.stored, u ∈ s.store.stored ∨ u = t ∧ now < t.executeMs := by
    intro hearly hsch hst
    refine ⟨after_fires ht hnow hlast htiled hsame (by rw [hsch, List.append_nil]) ?_,
      fun u hu => ?_⟩
    · rw [hst, Multiset.coe_nil, add_zero]
    · have hu' : u ∈ (r.stored : Multiset TimeTask) := hu
      rw [hst, Multiset.mem_cons] at hu'
      exact hu'.symm.imp_right fun heq => ⟨heq, hearly⟩
  cases hcases with
  | due hdue =>
    rw [if_pos hdue]
    refine ⟨after_fires ht hnow hlast htiled hsame rfl (le_of_eq ?_), fun u hu => .inl hu⟩
    exact (add_comm _ _).trans (Multiset.singleton_add t _)
  | refused hearly htakes hkept =>
    rw [if_neg (not_le.mpr hearly), hkept.stored]
    refine ⟨after_fires ht hnow hlast htiled hsame (by rw [hkept.scheduled, List.append_nil]) ?_,
      fun u hu => .inl hu⟩
    rw [hkept.stored, Multiset.coe_nil, add_zero]
    exact Multiset.le_cons_self _ t
  | failed hearly htakes harm hok hst hsch hcount =>
    rw [if_neg (not_le.mpr hearly)]
    exact hput hearly hsch hst
  | placed hearly htakes harm hst hsch hcount =>
    rw [if_neg (not_le.mpr hearly)]
    exact hput hearly hsch hst

/-- The assertion fails exactly for a time that is not past at the second reading and whose block has
no end. -/
theorem getOrCreate_none_iff {m : TimeManager} (h : m.Tiled)
    (hsize : 0 < m.blockSizeMs ∧ m.blockSizeMs < 2^64) {executeTime nowBlock : ℕ}
    (hbase : m.baseTime ≤ executeTime) (hlt : executeTime < 2^64) :
    m.getOrCreateTimerBlock executeTime nowBlock = none ↔
      ¬ (executeTime < nowBlock ∨ m.FitsIn executeTime) := by
  by_cases hpast : executeTime < nowBlock
  · rw [getOrCreateTimerBlock, if_pos hpast]
    exact iff_of_false (Option.some_ne_none _) (not_not.mpr (.inl hpast))
  · by_cases hfits : m.FitsIn executeTime
    · obtain ⟨k, p, r, hget, -⟩ := getOrCreate_tiled h hsize.1.ne' hfits (not_lt.mp hpast)
      rw [hget]
      exact iff_of_false (Option.some_ne_none _) (not_not.mpr (.inr hfits))
    · refine iff_of_true ?_ (not_or.mpr ⟨hpast, hfits⟩)
      have hdiv := Nat.div_mul_le_self (executeTime - m.baseTime) m.blockSizeMs
      have hbegin : m.blockBegin executeTime =
          m.baseTime + (executeTime - m.baseTime) / m.blockSizeMs * m.blockSizeMs := by
        rw [blockBegin, sub64_of_le hbase hlt, add64_of_lt (by omega)]
      -- the end of the block has wrapped around, so it is not after its start
      have hend : add64 (m.blockBegin executeTime) m.blockSizeMs ≤ m.blockBegin executeTime := by
        have hover : 2^64 ≤ m.blockBegin executeTime + m.blockSizeMs := by
          rw [hbegin]
          exact not_lt.mp fun hsum => hfits ⟨hbase, hsum⟩
        rw [add64, Nat.mod_eq_sub_mod hover, Nat.mod_eq_of_lt (by omega)]
        omega
      have hbad : m.blockRangeOk executeTime (m.blockBegin executeTime) = false := by
        simp only [blockRangeOk, Bool.and_eq_false_iff, decide_eq_false_iff_not]
        omega
      have hmissing : m.timeBlocks.find (m.blockBegin executeTime) = none := by
        cases hf : m.timeBlocks.find (m.blockBegin executeTime) with
        | none => rfl
        | some p =>
          have hmem := Multimap.find_mem hf
          have hrange := h.wf.range _ hmem
          rw [h.finish _ hmem] at hrange
          exact absurd hrange (not_lt.mpr hend)
      rw [getOrCreateTimerBlock, if_neg hpast, if_neg hsize.1.ne']
      simp only [hmissing, hbad, Bool.false_eq_true, if_false]

theorem insertTimeTask_none_iff {m : TimeManager} {t : TimeTask} {now nowBlock nowFd : ℕ}
    {ok : Bool} : m.insertTimeTask (some t) now nowBlock nowFd ok = none ↔
      now < t.executeMs ∧ m.getOrCreateTimerBlock t.executeMs nowBlock = none := by
  rw [insertTimeTask]
  split_ifs with hdue
  · exact iff_of_false not_false fun hn => absurd hdue (not_le.mpr hn.1)
  · rw [Option.map_eq_none_iff]
    exact ⟨fun hnone => ⟨not_le.mp hdue, hnone⟩, fun hn => hn.2⟩

/-- A task that is given to no block. -/
theorem lost_fires {s : Life} (h : Inv s) (i : ℕ) {now : ℕ} (hnow : s.clock ≤ now)
    (hlt : now < 2^64) :
    Fires s { s with idle := s.idle.eraseIdx i, clock := now, crashed := true } [] now := by
  refine ⟨rfl, (List.append_nil _).symm, (List.append_nil _).symm, ?_, nofun, ?_,
    ⟨hnow, le_rfl, hlt⟩, h.tiled, rfl, rfl⟩
  · have hsub : (s.idle.eraseIdx i : Multiset TimeTask) ≤ s.idle :=
      (List.eraseIdx_sublist s.idle i).subperm
    exact add_le_add_left (add_le_add_left hsub _) _
  · exact fun t ht => ht.imp_left List.mem_of_mem_eraseIdx

theorem trigger_fires {s : Life} (h : Inv s) {now nowFd : ℕ} (ok : Bool) (hnow : s.clock ≤ now)
    (hlast : now ≤ nowFd ∧ nowFd < 2^64) :
    Fires s (s.after (s.store.onTimerTriggered now nowFd ok) now nowFd) (s.store.dueTasks now) now ∧
      ∀ t ∈ (s.store.onTimerTriggered now nowFd ok).stored, t ∈ s.store.stored := by
  obtain ⟨htiled, hsch, hstored, hsize, hbase⟩ := onTimerTriggered_tiled h.tiled now nowFd ok
  have hdrop : (s.store.onTimerTriggered now nowFd ok).scheduled.drop s.store.scheduled.length =
      s.store.dueTasks now := by rw [hsch, List.drop_left]
  have hkept : ∀ t ∈ (s.store.onTimerTriggered now nowFd ok).stored, t ∈ s.store.stored := by
    intro t ht
    rw [hstored] at ht
    exact List.mem_of_mem_filter ht
  refine ⟨⟨rfl, ?_, ?_, ?_, ?_, ?_, ⟨hnow, hlast⟩, htiled, hsize, hbase⟩, hkept⟩
  · simp only [Life.after, hdrop]
  · simp only [Life.after, hdrop]
  · simp only [Life.live, Life.after, hdrop, hstored, s.store.stored_split now, ← Multiset.coe_add]
    refine le_of_eq ?_
    abel
  · exact fun t ht => .inr (List.mem_of_mem_filter ht)
  · exact fun t ht => ht.imp_right (hkept t)

/-! ### The other steps -/

theorem birth_append {born : List (ℕ × ℕ)} {ref : ℕ} (h : ref < born.length) (x : ℕ × ℕ) :
    birth (born ++ [x]) ref = birth born ref := by
  rw [birth, birth, List.getD_append _ _ _ _ h]

theorem delay_append {born : List (ℕ × ℕ)} {ref : ℕ} (h : ref < born.length) (x : ℕ × ℕ) :
    delay (born ++ [x]) ref = delay born ref := by
  rw [delay, delay, List.getD_append _ _ _ _ h]

theorem deadline_append {born : List (ℕ × ℕ)} {ref : ℕ} (h : ref < born.length) (x : ℕ × ℕ)
    (k : ℕ) :
    deadline (born ++ [x]) ref k = deadline born ref k := by
  rw [deadline, deadline, birth_append h, delay_append h]

theorem birth_new (born : List (ℕ × ℕ)) (x : ℕ × ℕ) : birth (born ++ [x]) born.length = x.1 := by
  rw [birth, List.getD_append_right _ _ _ _ le_rfl, Nat.sub_self]
  rfl

theorem delay_new (born : List (ℕ × ℕ)) (x : ℕ × ℕ) : delay (born ++ [x]) born.length = x.2 := by
  rw [delay, List.getD_append_right _ _ _ _ le_rfl, Nat.sub_self]
  rfl

theorem delay_append_lt {born : List (ℕ × ℕ)} (h : ∀ ref, delay born ref < 2^64) {x : ℕ × ℕ}
    (hx : x.2 < 2^64) (ref : ℕ) : delay (born ++ [x]) ref < 2^64 := by
  rcases Nat.lt_trichotomy ref born.length with href | rfl | href
  · rw [delay_append href]
    exact h ref
  · rw [delay_new]
    exact hx
  · have hlen : (born ++ [x]).length = born.length + 1 := List.length_append
    rw [delay, List.getD_eq_default _ _ (by omega)]
    exact Nat.two_pow_pos 64

theorem onTime_append {born log : List (ℕ × ℕ)} (h : ∀ x ∈ log, x.1 < born.length) (b : ℕ × ℕ) :
    OnTime (born ++ [b]) log ↔ OnTime born log := by
  refine forall_congr' fun before => forall_congr' fun x => forall_congr' fun after =>
    forall_congr' fun heq => ?_
  have hx : x ∈ log := heq ▸ List.mem_append_right before List.mem_cons_self
  rw [deadline_append (h x hx)]

theorem times_unborn {s : Life} (h : Inv s) : times s.log s.born.length = 0 := by
  refine List.count_eq_zero.mpr fun hmem => ?_
  obtain ⟨x, hx, heq⟩ := List.mem_map.mp hmem
  exact absurd (h.logged x hx) (by rw [heq]; exact lt_irrefl _)

theorem create_inv {s : Life} (h : Inv s) {now ms : ℕ} (isCycle : Bool) (hnow : s.clock ≤ now)
    (hlt : now < 2^64) (hms : ms < 2^64) :
    Inv { s with clock := now, born := s.born ++ [(now, ms)]
                 idle := s.idle ++ [.create s.born.length now ms isCycle] } := by
  set s' : Life := { s with clock := now, born := s.born ++ [(now, ms)]
                            idle := s.idle ++ [.create s.born.length now ms isCycle] }
  have hlen : s'.born.length = s.born.length + 1 := List.length_append
  have hold : ∀ ref < s.born.length, s'.due ref = s.due ref := fun ref href =>
    deadline_append href _ _
  have hdelay : ∀ ref < s.born.length, delay s'.born ref = delay s.born ref := fun ref href =>
    delay_append href _
  have hnewdelay : delay s'.born s.born.length = ms := delay_new s.born (now, ms)
  have hnew : s'.due s.born.length = now + ms := by
    have htimes : times s'.log s.born.length = 0 := times_unborn h
    rw [Life.due, deadline, htimes, hnewdelay, Nat.zero_add, Nat.one_mul]
    exact congrArg (· + ms) (birth_new s.born (now, ms))
  have hlive : s'.live = .create s.born.length now ms isCycle ::ₘ s.live := by
    simp only [s', Life.live, ← Multiset.coe_add, Multiset.coe_singleton]
    rw [← Multiset.singleton_add]
    abel
  have hknown : ∀ t ∈ s.live, t.ref < s.born.length := fun t ht => (h.known t ht).1
  have hon : OnTime s'.born s'.log ↔ OnTime s.born s.log := onTime_append h.logged _
  refine ⟨h.tiled, h.size, h.base.trans hnow, hlt, delay_append_lt h.delays hms, ?_, ?_, ?_, ?_, ?_,
    ?_, ?_⟩
  · intro x hx
    exact lt_of_lt_of_le (h.logged x hx) (by omega)
  · rw [hlive, Multiset.map_cons, Multiset.nodup_cons]
    refine ⟨fun hmem => ?_, h.refs⟩
    obtain ⟨t, ht, heq⟩ := Multiset.mem_map.mp hmem
    exact absurd (hknown t ht) (by rw [heq]; exact lt_irrefl _)
  · intro t ht
    rw [hlive, Multiset.mem_cons] at ht
    rcases ht with rfl | ht
    · exact ⟨by rw [hlen]; exact Nat.lt_succ_self _, hnewdelay.symm⟩
    · obtain ⟨href, hdel⟩ := h.known t ht
      exact ⟨by omega, by rw [hdel, hdelay _ href]⟩
  · intro t ht
    by_cases hmem : t ∈ s.idle ∨ t ∈ s.store.stored
    · rw [hold _ (hknown t (mem_live.mpr (.inl hmem)))]
      exact h.next t hmem
    · obtain ⟨hidle, hstored⟩ := not_or.mp hmem
      have ht' := (List.mem_append.mp (ht.resolve_right hstored)).resolve_left hidle
      rw [List.mem_singleton.mp ht']
      change add64 now ms = s'.due s.born.length % 2^64
      rw [hnew]
      rfl
  · intro t ht
    have href := hknown t (mem_live.mpr (.inr ht))
    rw [hold _ href, hdelay _ href]
    exact h.last t ht
  · intro hon' ref href
    change s'.due ref ≤ now + delay s'.born ref
    rcases Nat.lt_or_ge ref s.born.length with hlt' | hge
    · rw [hold ref hlt', hdelay ref hlt']
      have hpast := h.past (hon.mp hon') ref hlt'
      omega
    · obtain rfl : ref = s.born.length := by omega
      rw [hnew, hnewdelay]
  · intro hon' t ht
    rw [hold _ (hknown t (mem_live.mpr (.inl (.inr ht))))]
    exact h.stored (hon.mp hon') t ht

/-- A task leaves `waiting`; what is left of it is at most its `next`. -/
theorem run_inv {s : Life} (h : Inv s) {i : ℕ} {t : TimeTask} (ht : s.waiting[i]? = some t)
    {again : List TimeTask} (hagain : again = [] ∨ again = [t.next] ∧ t.isCycle = true) :
    Inv { s with waiting := s.waiting.eraseIdx i, idle := s.idle ++ again } := by
  have hmem : t ∈ s.waiting := List.mem_of_getElem? ht
  have hwaiting := coe_eq_cons_erase ht
  have hrefs : (again : Multiset TimeTask).map TimeTask.ref ≤ {t.ref} := by
    rcases hagain with rfl | ⟨rfl, -⟩
    · exact Multiset.zero_le _
    · exact le_rfl
  have hmember : ∀ u ∈ again, u = t.next ∧ t.isCycle = true := by
    rcases hagain with rfl | ⟨rfl, hcycle⟩
    · exact nofun
    · exact fun u hu => ⟨List.mem_singleton.mp hu, hcycle⟩
  have hknown := h.known t (mem_live.mpr (.inr hmem))
  refine ⟨h.tiled, h.size, h.base, h.bound, h.delays, h.logged, ?_, ?_, ?_, ?_, h.past, h.stored⟩
  · refine Multiset.nodup_of_le ?_ h.refs
    simp only [Life.live, hwaiting, ← Multiset.coe_add, Multiset.map_add, ← Multiset.singleton_add,
      Multiset.map_singleton]
    refine le_trans (le_of_eq ?_) ((add_le_add_left hrefs (s.idle.map TimeTask.ref +
      s.store.stored.map TimeTask.ref +
      (s.waiting.eraseIdx i).map TimeTask.ref : Multiset ℕ)).trans (le_of_eq ?_))
    · simp only [Multiset.map_coe]
      abel
    · simp only [Multiset.map_coe]
      abel
  · intro u hu
    rcases mem_live.mp hu with (hu | hu) | hu
    · rcases List.mem_append.mp hu with hu | hu
      · exact h.known u (mem_live.mpr (.inl (.inl hu)))
      · rw [(hmember u hu).1]
        exact hknown
    · exact h.known u (mem_live.mpr (.inl (.inr hu)))
    · exact h.known u (mem_live.mpr (.inr (List.mem_of_mem_eraseIdx hu)))
  · rintro u (hu | hu)
    · rcases List.mem_append.mp hu with hu | hu
      · exact h.next u (.inl hu)
      · obtain ⟨rfl, hcycle⟩ := hmember u hu
        have hlast := h.last t hmem
        rw [← hknown.2] at hlast
        simp only [TimeTask.next, if_pos hcycle]
        exact hlast
    · exact h.next u (.inr hu)
  · exact fun u hu => h.last u (List.mem_of_mem_eraseIdx hu)

/-! ### The deadline of the task that is inserted -/

section Insert
variable {s : Life} {t : TimeTask} {now nowBlock : ℕ}

theorem insert_due (h : Inv s) (hon : OnTime s.born s.log) (hmem : t ∈ s.idle)
    (hnow : s.clock ≤ now) (hlt : now < 2^64) :
    s.due t.ref < 2^64 ∧ t.executeMs = s.due t.ref ∨ 2^64 ≤ s.due t.ref ∧ t.executeMs ≤ now := by
  rw [h.next t (.inl hmem)]
  exact wraps (h.past hon _ (h.known t (mem_live.mpr (.inl (.inl hmem)))).1) (h.delays _) hnow hlt

/-- The base time is at most the clock, so every execute time that is not past is at least that. -/
theorem insert_none_iff (h : Inv s) (hon : OnTime s.born s.log) (hmem : t ∈ s.idle)
    (hnow : s.clock ≤ now) (hlt : now < 2^64) (nowFd : ℕ) (ok : Bool) :
    s.store.insertTimeTask (some t) now nowBlock nowFd ok = none ↔
      s.due t.ref < 2^64 ∧ ¬ (s.due t.ref ≤ now ∨ s.due t.ref < nowBlock ∨
        s.store.FitsIn (s.due t.ref)) := by
  have hbase := h.base
  rcases insert_due h hon hmem hnow hlt with ⟨hdue, heq⟩ | ⟨hover, hearly⟩
  · rw [insertTimeTask_none_iff, heq]
    by_cases hpast : s.due t.ref ≤ now
    · exact iff_of_false (fun hn => absurd hpast (not_le.mpr hn.1)) fun hn => hn.2 (.inl hpast)
    · rw [getOrCreate_none_iff h.tiled h.size (by omega) hdue, or_iff_right hpast]
      exact ⟨fun hn => ⟨hdue, hn.2⟩, fun hn => ⟨not_le.mp hpast, hn.2⟩⟩
  · refine iff_of_false (fun hnone => ?_) fun hn => absurd hn.1 (not_lt.mpr hover)
    exact absurd hearly (not_le.mpr (insertTimeTask_none_iff.mp hnone).1)

/-- No block ends after `2^64`. -/
theorem fitsIn_lt {m : TimeManager} {d : ℕ} (hsize : 0 < m.blockSizeMs) (h : m.FitsIn d) :
    d < 2^64 := by
  have hmod := Nat.div_add_mod (d - m.baseTime) m.blockSizeMs
  have hrest := Nat.mod_lt (d - m.baseTime) hsize
  obtain ⟨hbase, hlt⟩ := h
  rw [Nat.mul_comm] at hmod
  omega

end Insert

/-- An insertion schedules the task exactly if its execute time is past. -/
theorem insert_step {s s' : Life} (h : Inv s) {i now nowBlock nowFd : ℕ} {ok : Bool}
    (hs : s.step (.insert i now nowBlock nowFd ok) = some s') :
    ∃ t, s.idle[i]? = some t ∧ s.clock ≤ now ∧ now ≤ nowBlock ∧ nowBlock < 2^64 ∧
      Fires s s' (if t.executeMs ≤ now then [t] else []) now ∧
      (∀ u ∈ s'.store.stored, u ∈ s.store.stored ∨ u = t ∧ now < t.executeMs) ∧
      (s'.crashed = false ↔ s.store.insertTimeTask (some t) now nowBlock nowFd ok ≠ none) := by
  rw [Life.step, Option.ite_none_right_eq_some] at hs
  obtain ⟨⟨hcrashed, hnow, hblock, hfd, hlt⟩, hs⟩ := hs
  obtain ⟨t, ht, rfl⟩ := Option.map_eq_some_iff.mp hs
  refine ⟨t, ht, hnow, hblock, by omega, ?_⟩
  rw [Life.insert]
  split
  · rename_i hnone
    have hearly := (insertTimeTask_none_iff.mp hnone).1
    rw [if_neg (not_le.mpr hearly)]
    have hfires := lost_fires h i (hnow.trans (by omega : now ≤ nowFd)) hlt
    refine ⟨⟨rfl, hfires.log, hfires.waiting, hfires.live, nofun, hfires.kept,
      ⟨hnow, hblock.trans hfd, hlt⟩, h.tiled, rfl, rfl⟩, fun u hu => .inl hu, iff_of_false nofun ?_⟩
    exact not_not.mpr hnone
  · rename_i r hins
    obtain ⟨hfires, hstored⟩ := insert_fires h ht hnow ⟨by omega, hlt⟩ hins
    have halive : s.crashed = false := by simpa using hcrashed
    refine ⟨hfires, hstored, iff_of_true halive ?_⟩
    rw [hins]
    exact nofun

theorem step_inv {s s' : Life} {a : Action} (h : Inv s) (hs : s.step a = some s') : Inv s' := by
  cases a with
  | create now ms isCycle =>
    rw [Life.step, Option.ite_none_right_eq_some] at hs
    obtain ⟨⟨-, hnow, hlt, hms⟩, hs⟩ := hs
    cases hs
    exact create_inv h isCycle hnow hlt hms
  | insert i now nowBlock nowFd ok =>
    obtain ⟨t, ht, hnow, hblock, hlt, hfires, hstored, -⟩ := insert_step h hs
    refine hfires.inv h fun hon u hu => ?_
    rcases hstored u hu with hold | ⟨rfl, hearly⟩
    · exact h.stored hon u hold
    · rcases insert_due h hon (List.mem_of_getElem? ht) hnow (hblock.trans_lt hlt) with hd | hd
      · exact hd.1
      · exact absurd hd.2 (not_le.mpr hearly)
  | trigger now nowFd ok =>
    rw [Life.step, Option.ite_none_right_eq_some] at hs
    obtain ⟨⟨-, hnow, hlast⟩, hs⟩ := hs
    cases hs
    obtain ⟨hfires, hkept⟩ := trigger_fires h ok hnow hlast
    exact hfires.inv h fun hon u hu => h.stored hon u (hkept u hu)
  | run i canceled =>
    rw [Life.step, Option.ite_none_right_eq_some] at hs
    obtain ⟨t, ht, rfl⟩ := Option.map_eq_some_iff.mp hs.2
    split_ifs with hagain
    · exact run_inv h ht (.inr ⟨rfl, hagain.2⟩)
    · have hrun := run_inv h ht (.inl rfl)
      rwa [List.append_nil] at hrun

/-- A call in which no task is scheduled before its deadline. -/
theorem step_punctual {s s' : Life} {a : Action} (h : Inv s) (hp : s.Punctual)
    (hs : s.step a = some s') : s'.Punctual ↔ fits s a := by
  obtain ⟨hon, halive⟩ := hp
  cases a with
  | create now ms isCycle =>
    rw [Life.step, Option.ite_none_right_eq_some] at hs
    cases hs.2
    exact iff_of_true ⟨(onTime_append h.logged _).mpr hon, halive⟩ trivial
  | insert i now nowBlock nowFd ok =>
    obtain ⟨t, ht, hnow, hblock, hlt, hfires, -, hcrashed⟩ := insert_step h hs
    have hmem := List.mem_of_getElem? ht
    have hfits : fits s (.insert i now nowBlock nowFd ok) ↔
        (s.due t.ref ≤ now ∨ s.due t.ref < nowBlock ∨ s.store.FitsIn (s.due t.ref)) := by
      simp only [fits, ht, Option.mem_def, Option.some.injEq, forall_eq']
    have hnone := @insert_none_iff s t now nowBlock h hon hmem hnow (hblock.trans_lt hlt) nowFd ok
    rw [Life.Punctual, hfires.onTime_iff h, hcrashed, hfits, Ne, hnone]
    rcases insert_due h hon hmem hnow (hblock.trans_lt hlt) with ⟨hdue, heq⟩ | ⟨hover, hearly⟩
    · -- the execute time is the deadline
      rw [heq]
      have htimely : ∀ u ∈ (if s.due t.ref ≤ now then [t] else []), s.due u.ref ≤ now := by
        split_ifs with hpast
        · intro u hu
          rwa [List.mem_singleton.mp hu]
        · exact nofun
      exact ⟨fun hp => not_not.mp fun hn => hp.2 ⟨hdue, hn⟩,
        fun hf => ⟨⟨hon, htimely⟩, fun hn => hn.2 hf⟩⟩
    · -- it has wrapped around, and the task is scheduled at once
      rw [if_pos hearly]
      refine iff_of_false (fun hp => ?_) fun hf => ?_
      · have hd := hp.1.2 t (List.mem_singleton_self t)
        omega
      · rcases hf with hd | hd | hd
        · omega
        · omega
        · exact absurd (fitsIn_lt h.size.1 hd) (not_lt.mpr hover)
  | trigger now nowFd ok =>
    rw [Life.step, Option.ite_none_right_eq_some] at hs
    obtain ⟨⟨-, hnow, hlast⟩, hs⟩ := hs
    cases hs
    obtain ⟨hfires, -⟩ := trigger_fires h ok hnow hlast
    refine iff_of_true ⟨(hfires.onTime_iff h).mpr ⟨hon, fun t ht => ?_⟩, halive⟩ trivial
    obtain ⟨hst, hpast⟩ := List.mem_filter.mp ht
    have heq := h.next t (.inr hst)
    rw [Nat.mod_eq_of_lt (h.stored hon t hst)] at heq
    simpa [heq] using hpast
  | run i canceled =>
    rw [Life.step, Option.ite_none_right_eq_some] at hs
    obtain ⟨t, ht, rfl⟩ := Option.map_eq_some_iff.mp hs.2
    exact iff_of_true ⟨hon, halive⟩ trivial

/-- What is out of time stays so. -/
theorem step_late {s s' : Life} {a : Action} (h : Inv s) (hs : s.step a = some s')
    (hp : s'.Punctual) : s.Punctual := by
  obtain ⟨hon, -⟩ := hp
  have halive : s.crashed = false := by
    cases hc : s.crashed with
    | false => rfl
    | true => cases a <;> simp [Life.step, hc] at hs
  refine ⟨?_, halive⟩
  cases a with
  | create now ms isCycle =>
    rw [Life.step, Option.ite_none_right_eq_some] at hs
    cases hs.2
    exact (onTime_append h.logged _).mp hon
  | insert i now nowBlock nowFd ok =>
    obtain ⟨t, -, -, -, -, hfires, -, -⟩ := insert_step h hs
    exact ((hfires.onTime_iff h).mp hon).1
  | trigger now nowFd ok =>
    rw [Life.step, Option.ite_none_right_eq_some] at hs
    obtain ⟨⟨-, hnow, hlast⟩, hs⟩ := hs
    cases hs
    exact (((trigger_fires h ok hnow hlast).1.onTime_iff h).mp hon).1
  | run i canceled =>
    rw [Life.step, Option.ite_none_right_eq_some] at hs
    obtain ⟨t, -, rfl⟩ := Option.map_eq_some_iff.mp hs.2
    exact hon

theorem step_bad_iff {s s' : Life} {a : Action} (h : Inv s) (hs : s.step a = some s') :
    ¬ s'.Punctual ↔ ¬ s.Punctual ∨ ¬ fits s a := by
  by_cases hp : s.Punctual
  · rw [step_punctual h hp hs]
    exact (or_iff_right (not_not.mpr hp)).symm
  · exact iff_of_true (fun hp' => hp (step_late h hs hp')) (.inl hp)

/-- No task is scheduled early and no assertion fails, exactly if the deadline of every task that is
to be put in a block is in one whose end is a `uint64_t`. -/
theorem never_early_iff {blockSizeMs baseTime : ℕ} (hsize : 0 < blockSizeMs ∧ blockSizeMs < 2^64)
    (hbase : baseTime < 2^64) {as : List Action} {s : Life}
    (h : exec Life.step (.init blockSizeMs baseTime) as = some s) :
    s.Punctual ↔ Guarded Life.step fits (.init blockSizeMs baseTime) as := by
  have hgood : (Life.init blockSizeMs baseTime).Punctual := ⟨onTime_nil _, rfl⟩
  have hbad := exec_bad_iff (fun _ _ _ hi hst => step_inv hi hst)
    (fun _ _ _ hi hst => step_bad_iff hi hst) (init_inv hsize hbase) h
  rw [← not_iff_not, hbad]
  exact or_iff_right (not_not.mpr hgood)

/-- A task for 20 ms later, put in a block, and scheduled when it is due. -/
def ordinary : List Action :=
  [.create 100 20 false, .insert 0 100 100 100 true, .trigger 125 125 true]

theorem ordinary_never_early : ∃ s, exec Life.step (.init 10 100) ordinary = some s ∧
    s.log = [(0, 125)] ∧ (s.Punctual ↔ Guarded Life.step fits (.init 10 100) ordinary) := by
  refine ⟨_, rfl, rfl, ?_⟩
  exact never_early_iff ⟨by decide, by decide⟩ (by decide) rfl

/-- A task without a timeout is scheduled at once: its execute time has wrapped around. -/
theorem longest_delay_fires : ∃ s, exec Life.step (.init 10 100)
    [.create 100 (2^64 - 1) false, .insert 0 100 100 100 true] = some s ∧ s.log = [(0, 100)] ∧
    ¬ s.Punctual := by
  refine ⟨_, rfl, rfl, fun hp => ?_⟩
  have hdue : deadline [(100, 2^64 - 1)] 0 0 ≤ 100 := hp.1 [] (0, 100) [] rfl
  exact absurd hdue (by decide)

/-- A deadline in the last block before `2^64` makes the assertion fail. -/
theorem last_block_crashes : ∃ s, exec Life.step (.init 10 100)
    [.create 100 (2^64 - 101) false, .insert 0 100 100 100 true] = some s ∧ s.crashed = true :=
  ⟨_, rfl, rfl⟩

end MSylar.Timer.Early
