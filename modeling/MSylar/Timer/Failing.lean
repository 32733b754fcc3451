import MSylar.Timer.Reinsert

/-!
# Insertions that fail (timer.cc:481-556)

`insertTimeTask` puts the task in a block, arms the timerfd and counts the task, in this order. When
`timerfd_settime` fails it returns -1 in between. `onTimerTriggered` counts every task that it takes
from a block, and only logs the failure of its own `timerfd_settime`. Calls come one after the other,
each with the clock values that it reads and the result of `timerfd_settime`.
-/

namespace MSylar.Timer.TimeManager
open MSylar.Word MSylar.Execution

/-! ### What a call does -/

/-- `r` differs from `m` at most in blocks that are empty. -/
structure SameTasks (m r : TimeManager) : Prop where
  stored : r.stored = m.stored
  scheduled : r.scheduled = m.scheduled
  timerCount : r.timerCount = m.timerCount
  nextTimerTime : r.nextTimerTime = m.nextTimerTime
  blockSizeMs : r.blockSizeMs = m.blockSizeMs
  baseTime : r.baseTime = m.baseTime

theorem SameTasks.refl (m : TimeManager) : SameTasks m m := ⟨rfl, rfl, rfl, rfl, rfl, rfl⟩

theorem createBlock_same {m : TimeManager} (h : m.Wf) (start : ℕ) :
    SameTasks m (m.createBlock start).2 := by
  have hst := createBlock_stored h start
  cases hf : m.timeBlocks.find start with
  | some p =>
    rw [createBlock_found hf]
    exact .refl m
  | none =>
    rw [createBlock_fresh hf] at hst ⊢
    exact ⟨hst, rfl, rfl, rfl, rfl, rfl⟩

theorem getOrCreate_cases {m q : TimeManager} (h : m.Tiled) {executeTime now : ℕ} {o : Option ℕ}
    (hget : m.getOrCreateTimerBlock executeTime now = some (o, q)) :
    q.Tiled ∧ SameTasks m q ∧ ∀ p ∈ o, ∃ k, (k, p) ∈ q.timeBlocks.entries := by
  unfold getOrCreateTimerBlock at hget
  split_ifs at hget
  · cases hget
    exact ⟨h, .refl m, nofun⟩
  · dsimp only at hget
    split at hget
    · rename_i p hfind
      cases hget
      refine ⟨h, .refl m, fun p' hp => ?_⟩
      cases hp
      exact ⟨_, Multimap.find_mem hfind⟩
    · split_ifs at hget with hrange
      cases hget
      simp only [blockRangeOk, Bool.and_eq_true, decide_eq_true_eq] at hrange
      refine ⟨createBlock_tiled h (lt_of_le_of_lt hrange.1 hrange.2), createBlock_same h.wf _,
        fun p hp => ?_⟩
      cases hp
      exact ⟨_, createBlock_mem _⟩

/-- The task gets into a block: there is one for its execute time, and its range holds it. -/
def takes (m : TimeManager) (t : TimeTask) (nowBlock : ℕ) : Bool :=
  match m.getOrCreateTimerBlock t.executeMs nowBlock with
  | some (some p, r) => r.inRange p t.executeMs
  | _ => false

/-- The outcomes of `insertTimeTask`. -/
inductive Insertion (m : TimeManager) (t : TimeTask) (now nowBlock : ℕ) (ok : Bool) :
    ℤ → TimeManager → Prop where
  | due (hdue : t.executeMs ≤ now) : Insertion m t now nowBlock ok 0 (m.schedule t)
  | refused {r : TimeManager} (hearly : now < t.executeMs) (htakes : m.takes t nowBlock = false)
      (hsame : SameTasks m r) : Insertion m t now nowBlock ok (-1) r
  | failed {r : TimeManager} (hearly : now < t.executeMs) (htakes : m.takes t nowBlock = true)
      (harm : t.executeMs < m.nextTimerTime) (hok : ok = false)
      (hstored : (r.stored : Multiset TimeTask) = t ::ₘ m.stored)
      (hscheduled : r.scheduled = m.scheduled) (hcount : r.timerCount = m.timerCount) :
      Insertion m t now nowBlock ok (-1) r
  | placed {r : TimeManager} (hearly : now < t.executeMs) (htakes : m.takes t nowBlock = true)
      (harm : t.executeMs < m.nextTimerTime → ok = true)
      (hstored : (r.stored : Multiset TimeTask) = t ::ₘ m.stored)
      (hscheduled : r.scheduled = m.scheduled) (hcount : r.timerCount = add64 m.timerCount 1) :
      Insertion m t now nowBlock ok 0 r

theorem insertTimeTask_cases {m r : TimeManager} (h : m.Tiled) {t : TimeTask}
    {now nowBlock nowFd : ℕ} {ok : Bool} {rc : ℤ}
    (hins : m.insertTimeTask (some t) now nowBlock nowFd ok = some (rc, r)) :
    Insertion m t now nowBlock ok rc r ∧ r.Tiled ∧ r.blockSizeMs = m.blockSizeMs ∧
      r.baseTime = m.baseTime := by
  by_cases hdue : t.executeMs ≤ now
  · simp only [insertTimeTask, if_pos hdue, Option.some.injEq, Prod.mk.injEq] at hins
    obtain ⟨rfl, rfl⟩ := hins
    exact ⟨.due hdue, h.congr rfl rfl rfl rfl, rfl, rfl⟩
  · have hearly : now < t.executeMs := not_le.mp hdue
    simp only [insertTimeTask, if_neg hdue] at hins
    obtain ⟨⟨o, q⟩, hget, hplace⟩ := Option.map_eq_some_iff.mp hins
    obtain ⟨hq, hsame, hmem⟩ := getOrCreate_cases h hget
    cases o with
    | none =>
      cases hplace
      refine ⟨.refused hearly ?_ hsame, hq, hsame.blockSizeMs, hsame.baseTime⟩
      rw [takes, hget]
    | some p =>
      obtain ⟨k, hk⟩ := hmem p rfl
      have htakes : m.takes t nowBlock = q.inRange p t.executeMs := by rw [takes, hget]
      dsimp only at hplace
      by_cases hrange : q.inRange p t.executeMs = true
      · rw [hrange] at htakes
        have htiled : (q.insertInBlock p t).Tiled :=
          hq.setBlock rfl (insertInBlock_wf hq.wf (hq.wf.below _ hk) hrange)
        have hstored : ((q.insertInBlock p t).stored : Multiset TimeTask) = t ::ₘ m.stored := by
          rw [stored_insertInBlock hq.wf hk, hsame.stored]
        have hnext : (q.insertInBlock p t).nextTimerTime = m.nextTimerTime := hsame.nextTimerTime
        have hcount : add64 q.timerCount 1 = add64 m.timerCount 1 := by rw [hsame.timerCount]
        unfold place at hplace
        rw [if_pos hrange] at hplace
        dsimp only at hplace
        by_cases harm : t.executeMs < m.nextTimerTime
        · simp only [hnext, if_pos harm, updateTimerFd, if_neg (not_le.mpr harm)] at hplace
          cases ok with
          | true =>
            cases hplace
            exact ⟨.placed hearly htakes (fun _ => rfl) hstored hsame.scheduled hcount,
              htiled.congr rfl rfl rfl rfl, hsame.blockSizeMs, hsame.baseTime⟩
          | false =>
            cases hplace
            exact ⟨.failed hearly htakes harm rfl hstored hsame.scheduled hsame.timerCount, htiled,
              hsame.blockSizeMs, hsame.baseTime⟩
        · simp only [hnext, if_neg harm] at hplace
          cases hplace
          exact ⟨.placed hearly htakes (fun hlt => absurd hlt harm) hstored hsame.scheduled hcount,
            htiled.congr rfl rfl rfl rfl, hsame.blockSizeMs, hsame.baseTime⟩
      · rw [place, if_neg hrange] at hplace
        cases hplace
        refine ⟨.refused hearly ?_ hsame, hq, hsame.blockSizeMs, hsame.baseTime⟩
        rw [htakes]
        simpa using hrange

theorem rearm_timerCount (m : TimeManager) (next : Option ℕ) (now : ℕ) (ok : Bool) :
    (m.rearm next now ok).timerCount = m.timerCount := by
  cases next with
  | none => rfl
  | some t =>
    simp only [rearm, updateTimerFd]
    split_ifs <;> rfl

theorem onTimerTriggered_timerCount {m : TimeManager} (h : m.Wf) (now nowFd : ℕ) (ok : Bool)
    (hdue : (m.dueTasks now).length ≤ m.timerCount) (hlt : m.timerCount < 2^64) :
    (m.onTimerTriggered now nowFd ok).timerCount = m.timerCount - (m.dueTasks now).length := by
  have hcount : (((m.drained now).eraseAndReset now).2.rearm ((m.drained now).eraseAndReset now).1
      nowFd ok).timerCount = m.timerCount := by
    rw [rearm_timerCount]
    exact (drained_frame h now).2.2.2.1
  have hspec := scheduleExpired_spec (m.dueTasks now)
    (((m.drained now).eraseAndReset now).2.rearm ((m.drained now).eraseAndReset now).1 nowFd ok)
    (by rw [hcount]; exact hdue) (by rw [hcount]; exact hlt)
  rw [hcount] at hspec
  have hexpired : (drain now (m.collect now) m).1 = m.dueTasks now := drain_expired h now
  have heq : m.onTimerTriggered now nowFd ok = scheduleExpired (m.dueTasks now)
      (((m.drained now).eraseAndReset now).2.rearm ((m.drained now).eraseAndReset now).1 nowFd ok) := by
    rw [← hexpired]
    rfl
  rw [heq, hspec]

end MSylar.Timer.TimeManager

namespace MSylar.Timer.Failing
open MSylar.Word MSylar.Execution TimeManager

inductive Op where
  | insert (task : Option TimeTask) (now nowBlock nowFd : ℕ) (ok : Bool)
  | trigger (now nowFd : ℕ) (ok : Bool)

def call (m : TimeManager) : Op → Option (ℤ × TimeManager)
  | .insert task now nowBlock nowFd ok => m.insertTimeTask task now nowBlock nowFd ok
  | .trigger now nowFd ok => some (0, m.onTimerTriggered now nowFd ok)

def step (m : TimeManager) (op : Op) : Option TimeManager := (call m op).map Prod.snd

/-- `getTimerCount` is the number of tasks in the blocks. -/
def Counted (m : TimeManager) : Prop := m.timerCount = m.stored.length

def Op.task : Op → Option TimeTask
  | .insert task _ _ _ _ => task
  | .trigger _ _ _ => none

/-- A call that returns -1 has stored nothing and counted nothing. -/
def FailsClean (m : TimeManager) (op : Op) : Prop :=
  ∀ r, call m op = some (-1, r) → r.stored = m.stored ∧ r.timerCount = m.timerCount ∧
    ∀ t ∈ op.task, t ∉ m.stored → t ∉ r.stored

/-- The call fails cleanly, and the tasks are counted when it is over. -/
def Honest (m : TimeManager) (op : Op) : Prop :=
  FailsClean m op ∧ ∀ r, step m op = some r → Counted r

/-- The `timerfd_settime` of an insertion that comes to it succeeds, and the number of tasks is a
`size_t`. -/
def armed (m : TimeManager) : Op → Prop
  | .insert (some t) now nowBlock _ ok => now < t.executeMs → m.takes t nowBlock = true →
      (t.executeMs < m.nextTimerTime → ok = true) ∧ m.stored.length + 1 < 2^64
  | _ => True

structure Inv (m : TimeManager) : Prop where
  tiled : m.Tiled
  counted : Counted m
  bound : m.timerCount < 2^64

theorem length_of_cons {m r : TimeManager} {t : TimeTask}
    (h : (r.stored : Multiset TimeTask) = t ::ₘ m.stored) :
    r.stored.length = m.stored.length + 1 := by
  have hcard := congrArg Multiset.card h
  simpa only [Multiset.coe_card, Multiset.card_cons] using hcard

theorem step_eq {m r : TimeManager} {op : Op} (h : step m op = some r) :
    ∃ rc, call m op = some (rc, r) := by
  obtain ⟨⟨rc, q⟩, hcall, rfl⟩ := Option.map_eq_some_iff.mp h
  exact ⟨rc, hcall⟩

/-- The tasks that are due are taken from the blocks and from the count. -/
theorem trigger_counted {m : TimeManager} (h : Inv m) (now nowFd : ℕ) (ok : Bool) :
    Inv (m.onTimerTriggered now nowFd ok) := by
  obtain ⟨htiled, -, hstored, -, -⟩ := onTimerTriggered_tiled h.tiled now nowFd ok
  have hlen := dueTasks_length m now
  have hcounted : m.timerCount = m.stored.length := h.counted
  have hbound := h.bound
  have hcount := onTimerTriggered_timerCount h.tiled.wf now nowFd ok (by omega) hbound
  refine ⟨htiled, ?_, by omega⟩
  rw [Counted, hcount, hstored]
  omega

/-- An insertion counts the task that it stores, unless the timerfd cannot be armed for it. -/
theorem insertion_counted_iff {m r : TimeManager} {t : TimeTask} {now nowBlock nowFd : ℕ} {ok : Bool}
    {rc : ℤ} (h : Inv m) (hins : Insertion m t now nowBlock ok rc r) :
    r.timerCount < 2^64 ∧ (Counted r ↔ armed m (.insert (some t) now nowBlock nowFd ok)) := by
  have hcounted : m.timerCount = m.stored.length := h.counted
  have hbound := h.bound
  unfold Counted armed
  cases hins with
  | due hdue =>
    exact ⟨hbound, iff_of_true hcounted fun hearly => absurd hdue (not_le.mpr hearly)⟩
  | refused hearly htakes hsame =>
    rw [hsame.timerCount, hsame.stored]
    refine ⟨hbound, iff_of_true hcounted fun _ htakes' => ?_⟩
    rw [htakes] at htakes'
    cases htakes'
  | failed hearly htakes harm hok hstored hscheduled hcount =>
    have hlen := length_of_cons hstored
    refine ⟨hcount.trans_lt hbound, iff_of_false (by omega) fun harmed => ?_⟩
    have hset := (harmed hearly htakes).1 harm
    rw [hok] at hset
    cases hset
  | placed hearly htakes harm hstored hscheduled hcount =>
    have hlen := length_of_cons hstored
    have hlt : r.timerCount < 2^64 := hcount ▸ Nat.mod_lt _ (by decide)
    refine ⟨hlt, fun hc _ _ => ⟨harm, by omega⟩, fun harmed => ?_⟩
    rw [hcount, hlen, hcounted, add64_of_lt (harmed hearly htakes).2]

theorem step_inv {m r : TimeManager} {op : Op} (h : Inv m) (hg : armed m op)
    (hs : step m op = some r) : Inv r := by
  obtain ⟨rc, hcall⟩ := step_eq hs
  cases op with
  | trigger now nowFd ok =>
    cases hcall
    exact trigger_counted h now nowFd ok
  | insert task now nowBlock nowFd ok =>
    cases task with
    | none =>
      cases hcall
      exact h
    | some t =>
      obtain ⟨hins, htiled, -, -⟩ := insertTimeTask_cases h.tiled hcall
      obtain ⟨hlt, hiff⟩ := insertion_counted_iff h hins
      exact ⟨htiled, hiff.mpr hg, hlt⟩

/-- Where the timerfd can be armed, only an insertion that has stored nothing fails. -/
theorem insertion_clean {m r : TimeManager} {t : TimeTask} {now nowBlock nowFd : ℕ} {ok : Bool}
    (hg : armed m (.insert (some t) now nowBlock nowFd ok))
    (hins : Insertion m t now nowBlock ok (-1) r) : SameTasks m r := by
  cases hins with
  | refused hearly htakes hsame => exact hsame
  | failed hearly htakes harm hok hstored hscheduled hcount =>
    have hset := (hg hearly htakes).1 harm
    rw [hok] at hset
    cases hset

theorem insertTimeTask_none {m : TimeManager} {t : TimeTask} {now nowBlock nowFd : ℕ} {ok : Bool}
    (h : m.insertTimeTask (some t) now nowBlock nowFd ok = none) : m.takes t nowBlock = false := by
  simp only [insertTimeTask] at h
  split_ifs at h
  rw [takes, Option.map_eq_none_iff.mp h]

theorem honest_iff_armed {m : TimeManager} (h : Inv m) (op : Op) : Honest m op ↔ armed m op := by
  cases op with
  | trigger now nowFd ok =>
    refine iff_of_true ⟨nofun, fun r hs => ?_⟩ trivial
    cases hs
    exact (trigger_counted h now nowFd ok).counted
  | insert task now nowBlock nowFd ok =>
    cases task with
    | none =>
      refine iff_of_true ⟨fun r hcall => ?_, fun r hs => ?_⟩ trivial
      · cases hcall
        exact ⟨rfl, rfl, nofun⟩
      · cases hs
        exact h.counted
    | some t =>
      constructor
      · rintro ⟨-, hcounted⟩ hearly htakes
        cases hcall : m.insertTimeTask (some t) now nowBlock nowFd ok with
        | none =>
          rw [insertTimeTask_none hcall] at htakes
          cases htakes
        | some x =>
          have hins := (insertTimeTask_cases h.tiled hcall).1
          have hs : step m (.insert (some t) now nowBlock nowFd ok) = some x.2 :=
            Option.map_eq_some_iff.mpr ⟨x, hcall, rfl⟩
          have hiff := (@insertion_counted_iff m x.2 t now nowBlock nowFd ok x.1 h hins).2
          exact hiff.mp (hcounted _ hs) hearly htakes
      · intro hg
        refine ⟨fun r hcall => ?_, fun r hs => (step_inv h hg hs).counted⟩
        have hsame := insertion_clean hg (insertTimeTask_cases h.tiled hcall).1
        exact ⟨hsame.stored, hsame.timerCount, fun u _ hu => by rwa [hsame.stored]⟩

/-- The tasks are counted after every call, and a call that fails leaves the store as it was, exactly
if no insertion fails to arm the timerfd. -/
theorem timers_counted_iff (blockSizeMs baseTime : ℕ) (ops : List Op) :
    Guarded step Honest (init blockSizeMs baseTime) ops ↔
      Guarded step armed (init blockSizeMs baseTime) ops := by
  have hinit : Inv (init blockSizeMs baseTime) := ⟨init_tiled _ _, rfl, Nat.two_pow_pos 64⟩
  exact guarded_iff (fun m op h _ => honest_iff_armed h op)
    (fun m op r h _ hg hs => step_inv h ((honest_iff_armed h op).mp hg) hs) hinit
    (guarded_true step _ ops)

/-- The timerfd cannot be armed for the only task. -/
def unarmed : Op := .insert (some (.create 1 100 25 false)) 100 100 100 false

/-- The insertion returns -1, and the task is in a block and not counted; when it is due, the count
goes below zero. -/
theorem failed_insertion_stays :
    ∃ r, call (init 10 100) unarmed = some (-1, r) ∧ r.stored = [.create 1 100 25 false] ∧
      r.timerCount = 0 ∧ ∃ r', step r (.trigger 125 125 true) = some r' ∧ r'.stored = [] ∧
        r'.timerCount = 2^64 - 1 :=
  ⟨_, rfl, rfl, rfl, _, rfl, rfl, rfl⟩

end MSylar.Timer.Failing
