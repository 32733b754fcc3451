import MSylar.Coro.IOManager

/-!
# addOnceEvent (ioManager.cc:110-143, ioManager.h:34-35)

Both overloads are declared as events whose callback is run once. The one for a `TaskCoro20` does not
delete the event. The one for a function deletes it before the first trigger.
-/

namespace MSylar.Coro.IOManager
open MSylar.Word MSylar.Execution Process
variable {κ : Type*}

/-- The overloads. -/
inductive Once where
  | task
  | func
  deriving DecidableEq

def Once.op (fd : Fd) (event : Event) (callback : κ) : Once → Op κ
  | .task => .addOnceEvent fd event (some callback)
  | .func => .addOnceEventFunc fd event (some callback)

def context (s : Process κ) (fd : ℤ) : Option (FdContext κ) := s.manager.fdEvents[index fd]?.join

/-- Epoll reports `masks` for the descriptor, one after the other. -/
def triggers (fd : ℤ) (masks : List Event) : List (Op κ) := masks.map (.ready fd)

def Contains (mask event : Event) : Prop := ∃ d, has event d ∧ has mask d

/-- `s` is the state before the event is added and `s₁` the one after. The callback is run at the
first trigger that contains the event and at no other, and the event is not registered then. -/
def FiresOnce (s s₁ : Process κ) (fd : ℤ) (event : Event) (callback : κ) (masks : List Event) :
    Prop :=
  ∃ before mask after, masks = before ++ mask :: after ∧ (∀ m ∈ before, ¬ Contains m event) ∧
    Contains mask event ∧
    (∀ r, exec step s₁ (triggers fd before) = some r → r.woken = s.woken) ∧
    (∀ r, exec step s₁ (triggers fd (before ++ [mask])) = some r →
      r.woken = s.woken ++ [callback]) ∧
    ∀ r, exec step s₁ (triggers fd masks) = some r → r.woken = s.woken ++ [callback] ∧
      ∀ c ∈ context r fd, ∀ d, has event d → ¬ has c.event d

/-! ### What the calls leave -/

theorem trigger_free {c : FdContext κ} (h : ∀ d, ¬ has c.event d) (mask : Event) :
    c.trigger mask = [] := by
  have hserving : c.serving = fun _ => none := funext fun d => if_neg (h d)
  rw [FdContext.trigger_eq, hserving, select]
  simp

theorem access_context {s : Process κ} (h : s.Live) {fd : ℤ} (tasks : List (RegistedTask κ))
    (hfd : 0 ≤ fd ∧ fd < s.manager.fdEvents.length) {c : FdContext κ} (hc : context s fd = some c) :
    context (s.access fd tasks) fd = some (tasks.foldl
        (fun r task => runTask r s.manager.eventFd task) (c, s.woken, s.polled)).1 ∧
      (s.access fd tasks).woken = (tasks.foldl
        (fun r task => runTask r s.manager.eventFd task) (c, s.woken, s.polled)).2.1 := by
  have hbound := h.table.bound
  have hindex : index fd < s.manager.fdEvents.length := by
    rw [index_of_nonneg hfd.1 (by omega)]
    omega
  rw [context] at hc
  simp only [context, access, hc]
  rw [List.getElem?_set_self hindex]
  exact ⟨rfl, trivial⟩

/-- A run of triggers leaves the context as it is, and starts what each of them is to start. -/
theorem triggers_spec {fd : ℤ} {c : FdContext κ} {masks : List Event} {s r : Process κ}
    (hlive : s.ended = false → s.Live) (hc : context s fd = some c)
    (h : exec step s (triggers fd masks) = some r) :
    context r fd = some c ∧ r.woken = s.woken ++ masks.flatMap c.trigger := by
  induction masks generalizing s with
  | nil =>
    cases h
    exact ⟨hc, (List.append_nil _).symm⟩
  | cons mask masks ih =>
    obtain ⟨t, ht, hrest⟩ := exec_cons h
    obtain ⟨halive, hpossible, rfl⟩ := step_eq ht
    have hs := hlive halive
    have hmem : fd ∈ s.polled := of_decide_eq_true hpossible
    obtain ⟨hctx, hwoken⟩ := access_context hs [.trigger mask] (hs.polled fd hmem) hc
    obtain ⟨hfinal, hall⟩ := ih (call_spec hs hpossible).1 hctx hrest
    refine ⟨hfinal, ?_⟩
    rw [hall]
    change (s.access fd [.trigger mask]).woken ++ _ = _
    rw [hwoken, List.flatMap_cons, ← List.append_assoc]
    rfl

theorem grown_context {s : Process κ} (h : s.Live) {fd : ℤ} (hfd : 0 ≤ fd ∧ fd < 2^30)
    (hfree : ∀ c ∈ context s fd, c.event = Event.none) :
    ∃ c, c.event = Event.none ∧
      context (if s.outside fd then s.resizeEvents fd else s) fd = some c := by
  have hindex : index fd = fd.toNat := index_of_nonneg hfd.1 (by omega)
  split_ifs with hout
  · have hbeyond := ((outside_iff h ⟨by omega, hfd.2⟩).mp hout).resolve_left (not_lt.mpr hfd.1)
    obtain ⟨n, heq, hgt, -⟩ := resizeEvents_eq h.table hbeyond hfd.2
    refine ⟨.new fd.toNat, rfl, ?_⟩
    have hnew : s.manager.fdEvents.length ≤ fd.toNat := by omega
    simp only [context, Process.resizeEvents, heq, hindex]
    rw [List.getElem?_append_right hnew, contexts, List.getElem?_map, List.getElem?_range' (by omega)]
    simp only [Option.map_some, Nat.one_mul, Nat.add_sub_cancel' hnew, Option.join_some]
  · rw [outside, not_le, hindex] at hout
    obtain ⟨c, hc, -⟩ := h.table.own fd.toNat hout
    have hctx : context s fd = some c := by rw [context, hindex, hc, Option.join_some]
    exact ⟨c, hfree c hctx, hctx⟩

/-- The context that a registration finds has no event, as the one before or as a new one. -/
theorem register_context {s : Process κ} (h : s.Live) {fd : ℤ} (hfd : -2^31 ≤ fd ∧ fd < 2^30)
    (hfree : ∀ c ∈ context s fd, c.event = Event.none) (k : κ) (tasks : List (RegistedTask κ))
    (halive : (s.register fd (some k) tasks).ended = false) :
    ∃ c polled, c.event = Event.none ∧
      context (s.register fd (some k) tasks) fd = some (tasks.foldl
        (fun r task => runTask r s.manager.eventFd task) (c, s.woken, polled)).1 ∧
      (s.register fd (some k) tasks).woken = (tasks.foldl
        (fun r task => runTask r s.manager.eventFd task) (c, s.woken, polled)).2.1 := by
  obtain ⟨hlive, -, hlt⟩ := grown_spec h hfd
  simp only [register, Option.isNone_some, Bool.false_eq_true, if_false] at halive ⊢
  have hpos : 0 ≤ fd := by
    by_contra hneg
    have hended := (access_lost tasks ((outside_iff hlive hfd).mpr (.inl (not_le.mp hneg)))).1
    rw [hended] at halive
    cases halive
  obtain ⟨c, hnone, hc⟩ := grown_context h ⟨hpos, hfd.2⟩ hfree
  obtain ⟨hcontext, hwoken⟩ := access_context hlive tasks ⟨hpos, hlt hpos⟩ hc
  have hsame : (if s.outside fd then s.resizeEvents fd else s).manager.eventFd = s.manager.eventFd ∧
      (if s.outside fd then s.resizeEvents fd else s).woken = s.woken := by
    split_ifs
    · refine ⟨?_, rfl⟩
      simp only [Process.resizeEvents, IOManager.resizeEvents]
      split_ifs <;> rfl
    · exact ⟨rfl, rfl⟩
  rw [hsame.1, hsame.2] at hcontext hwoken
  exact ⟨c, _, hnone, hcontext, hwoken⟩

/-! ### The contract -/

theorem has_none (d : Dir) : ¬ has Event.none d := by
  cases d <;> decide

/-- An event that is added and deleted leaves nothing. -/
theorem deleted_free {c : FdContext κ} (h : c.event = Event.none) (event : Event) (cb : Option κ)
    (d : Dir) : ¬ has ((c.addEvent event cb).delEvent event).event d := by
  intro hd
  rw [FdContext.addEvent_eq] at hd
  obtain ⟨hor, hnot⟩ := (has_and_not _ _ d).mp hd
  rw [h] at hor
  exact hnot (((has_or _ _ d).mp hor).resolve_left (has_none d))

/-- Neither overload runs the callback once and then has the event deleted. -/
theorem addOnceEvent_not_once {opened : Option ℕ} (hopened : ∀ n ∈ opened, n < 2^31) {ok : Bool}
    {s s₁ s₂ : Process κ} (hs : Reachable step (init opened ok) s) (once : Once) (fd : Fd)
    {event : Event} {callback : κ} (hfree : ∀ c ∈ context s fd, c.event = Event.none)
    (hadd : step s (once.op fd event callback) = some s₁) {masks : List Event}
    (hcontains : ∃ mask ∈ masks, Contains mask event)
    (htriggers : exec step s₁ (triggers fd masks) = some s₂) :
    ¬ FiresOnce s s₁ fd event callback masks := by
  rintro ⟨-, -, -, -, -, -, -, -, hend⟩
  obtain ⟨hwoken, hdeleted⟩ := hend s₂ htriggers
  obtain ⟨halive, -, rfl⟩ := step_eq hadd
  have hlive := reachable_live hopened hs halive
  obtain ⟨mask, hmask, d, hev, -⟩ := hcontains
  -- a trigger follows, so the registration has not failed
  have halive₁ : (call s (once.op fd event callback)).ended = false := by
    cases masks with
    | nil => cases hmask
    | cons m masks =>
      obtain ⟨t, ht, -⟩ := exec_cons htriggers
      exact (step_eq ht).1
  have hlive₁ : (call s (once.op fd event callback)).Live := step_live (fun _ => hlive) hadd halive₁
  cases once with
  | task =>
    obtain ⟨c, polled, hnone, hcontext, -⟩ := register_context hlive fd.2 hfree callback _ halive₁
    obtain ⟨hfinal, -⟩ := triggers_spec (fun _ => hlive₁) hcontext htriggers
    refine hdeleted _ hfinal d hev ?_
    change has (c.addEvent event (some callback)).event d
    rw [FdContext.addEvent_eq]
    exact (has_or _ _ d).mpr (.inr hev)
  | func =>
    obtain ⟨c, polled, hnone, hcontext, hsame⟩ :=
      register_context hlive fd.2 hfree callback _ halive₁
    obtain ⟨-, hall⟩ := triggers_spec (fun _ => hlive₁) hcontext htriggers
    have hnothing : masks.flatMap ((c.addEvent event (some callback)).delEvent event).trigger = [] :=
      List.flatMap_eq_nil_iff.mpr fun m _ => trigger_free (deleted_free hnone event _) m
    have hwoken₁ : (call s (Once.func.op fd event callback)).woken = s.woken ++ [] ++ [] := hsame
    have hlast : s₂.woken = (call s (Once.func.op fd event callback)).woken ++
      masks.flatMap ((c.addEvent event (some callback)).delEvent event).trigger := hall
    rw [hnothing, hwoken₁, hwoken] at hlast
    simp at hlast

set_option maxRecDepth 4000 in
theorem first_trigger_not_enough : ∃ s₁ s₂,
    step (init (some 5) true) (Once.task.op ⟨7, by decide⟩ Event.read ()) = some s₁ ∧
    exec step s₁ (triggers 7 [Event.read]) = some s₂ ∧
    ¬ FiresOnce (init (some 5) true) s₁ 7 Event.read () [Event.read] := by
  refine ⟨_, _, rfl, rfl, ?_⟩
  refine addOnceEvent_not_once (fun n hn => ?_) ⟨[], rfl⟩ .task ⟨7, by decide⟩ (fun c hc => ?_) rfl
    ⟨Event.read, List.mem_singleton_self _, .read, by decide, by decide⟩ rfl
  · cases hn
    decide
  · cases hc
    rfl

set_option maxRecDepth 4000 in
/-- Of two triggers of descriptor 7 the callback of the first overload is run by both, and that of
the second by none. -/
theorem addOnceEvent_twice_or_never :
    (∃ s₁ s₂, step (init (some 5) true) (Once.task.op ⟨7, by decide⟩ Event.read ()) = some s₁ ∧
      exec step s₁ (triggers 7 [Event.read, Event.read]) = some s₂ ∧ s₂.woken = [(), ()] ∧
      ¬ FiresOnce (init (some 5) true) s₁ 7 Event.read () [Event.read, Event.read]) ∧
    ∃ s₁ s₂, step (init (some 5) true) (Once.func.op ⟨7, by decide⟩ Event.read ()) = some s₁ ∧
      exec step s₁ (triggers 7 [Event.read, Event.read]) = some s₂ ∧ s₂.woken = [] ∧
      ¬ FiresOnce (init (some 5) true) s₁ 7 Event.read () [Event.read, Event.read] := by
  constructor
  · refine ⟨_, _, rfl, rfl, rfl, ?_⟩
    rintro ⟨-, -, -, -, -, -, -, -, hend⟩
    cases (hend _ rfl).1
  · refine ⟨_, _, rfl, rfl, rfl, ?_⟩
    rintro ⟨-, -, -, -, -, -, -, -, hend⟩
    cases (hend _ rfl).1

end MSylar.Coro.IOManager
