import Mathlib.Algebra.Order.Group.Multiset
import Mathlib.Tactic.Abel
import MSylar.Coro.Frame

/-!
# Completion callbacks (task.hpp:229-235, 318-415, 878-968)

Threads register callbacks with `setCompleteCb` while the coroutine ends with `return_value`,
`return_void` or `unhandled_exception` and then walks over `m_callbacks` without the lock. The two
versions of `TaskPromise` have the same text. A callback may register further callbacks and may
destroy the `Task`; a `Task` is not destroyed while a `then` on it has not come to its callback.
-/

namespace MSylar.Coro.Complete
open MSylar.Calls MSylar.Execution
variable {β ρ ε : Type*}

/-- `Result`; a void promise has `ρ = Unit`. -/
inductive Result (ρ ε : Type*) where
  | value (v : ρ)
  | exception (e : ε)
  deriving DecidableEq

/-- The promise in its frame. `registered` and `called` record the callbacks handed to
`setCompleteCb` and their calls. -/
structure Promise (β ρ ε : Type*) where
  result : Option (Result ρ ε)
  callbacks : List β
  frame : CoroFrame
  hasTask : Bool
  ended : Bool
  registered : List β
  called : List (β × Result ρ ε)
  deriving DecidableEq

inductive Thread (β ρ ε : Type*) where
  | locking (cb : β)
  | calling (cb : β)
  | returned
  | ending (r : Result ρ ε)
  | notifying
  | walking (value : Result ρ ε) (i : ℕ)
  | leaving
  | destroying
  | destroyed
  deriving DecidableEq

namespace Thread

def run (s : Promise β ρ ε) : Thread β ρ ε → Option (Promise β ρ ε × Thread β ρ ε)
  -- setCompleteCb: the locked region, then the call of a late callback
  | .locking cb =>
    match s.result with
    | some _ => some (s, .calling cb)
    | none => some ({ s with callbacks := s.callbacks ++ [cb] }, .returned)
  | .calling cb => s.result.map fun r => ({ s with called := s.called ++ [(cb, r)] }, .returned)
  | .returned => none
  -- return_value, return_void and unhandled_exception: the locked region, then notifyAllCbs
  | .ending r => some ({ s with result := some r }, .notifying)
  | .notifying => s.result.map fun r => (s, .walking r 0)
  | .walking value i =>
    match s.callbacks[i]? with
    | some cb => some ({ s with called := s.called ++ [(cb, value)] }, .walking value (i + 1))
    | none => some ({ s with callbacks := [] }, .leaving)
  -- final_suspend
  | .leaving => s.frame.resume.map fun frame => ({ s with frame := frame }, .leaving)
  -- handler.destroy() of the owner
  | .destroying => some ({ s with frame := s.frame.destroy, callbacks := [] }, .destroyed)
  | .destroyed => none

/-- A `then` that has not come to its callback. -/
def uses : Thread β ρ ε → Bool
  | .locking _ | .calling _ => true
  | _ => false

end Thread

inductive Action (β ρ ε : Type*) where
  | setCompleteCb (cb : β)
  | finish (r : Result ρ ε)
  | destructTask
  | next (i : ℕ)

namespace Promise

def step (w : World (Promise β ρ ε) (Thread β ρ ε)) :
    Action β ρ ε → Option (World (Promise β ρ ε) (Thread β ρ ε))
  | .setCompleteCb cb =>
    if w.shared.hasTask then
      some ⟨{ w.shared with registered := w.shared.registered ++ [cb] }, w.calls ++ [.locking cb]⟩
    else none
  | .finish r =>
    if w.shared.ended then none
    else some ⟨{ w.shared with ended := true }, w.calls ++ [.ending r]⟩
  | .destructTask =>
    if w.shared.hasTask ∧ ∀ t ∈ w.calls, t.uses = false then
      some ⟨{ w.shared with hasTask := false, frame := w.shared.frame.release },
        if w.shared.frame.destroyable then w.calls ++ [.destroying] else w.calls⟩
    else none
  | .next i => w.advance Thread.run i

def init : World (Promise β ρ ε) (Thread β ρ ε) := ⟨⟨none, [], .new, true, false, [], []⟩, []⟩

end Promise

namespace Thread

/-- The callback that a registering thread holds. -/
def due : Thread β ρ ε → Multiset β
  | .locking cb | .calling cb => {cb}
  | _ => 0

/-- How many entries of `m_callbacks` the walk has passed. -/
def walked : Thread β ρ ε → ℕ
  | .walking _ i => i
  | _ => 0

def ends : Thread β ρ ε → ℕ
  | .ending _ | .notifying | .walking _ _ | .leaving => 1
  | _ => 0

def Iterates (callbacks : List β) : Thread β ρ ε → Prop
  | .walking _ i => i < callbacks.length
  | _ => False

def InProgress : Thread β ρ ε → Prop
  | .locking _ | .calling _ | .ending _ | .notifying | .walking _ _ => True
  | _ => False

end Thread

namespace Promise

/-- Callbacks that have been registered and not called. -/
def outstanding (w : World (Promise β ρ ε) (Thread β ρ ε)) : Multiset β :=
  (w.calls.map Thread.due).sum + (w.shared.callbacks.drop (w.calls.map Thread.walked).sum : List β)

/-- Call `i` comes to its end by its own next steps. -/
def Finishes (w : World (Promise β ρ ε) (Thread β ρ ε)) (i : ℕ) : Prop :=
  ∃ n w', exec step w (List.replicate n (.next i)) = some w' ∧
    ∃ t, w'.calls[i]? = some t ∧ ¬ t.InProgress

/-- What is promised in every state, after every step and of every call in progress. -/
structure ExactlyOnce (w : World (Promise β ρ ε) (Thread β ρ ε)) : Prop where
  accounted : (w.shared.registered : Multiset β) =
    (w.shared.called.map Prod.fst : List β) + outstanding w
  result : ∀ e ∈ w.shared.called, w.shared.result = some e.2
  complete : w.shared.ended = true → (∀ t ∈ w.calls, ¬ t.InProgress) → outstanding w = 0
  unmodified : ∀ a w', step w a = some w' → (∃ t ∈ w.calls, t.Iterates w.shared.callbacks) →
    w'.shared.callbacks = w.shared.callbacks
  finishes : ∀ i t, w.calls[i]? = some t → Finishes w i

end Promise

/-! ### One step -/

theorem resume_point {fr fr' : CoroFrame} (h : fr.resume = some fr') : fr'.point ≠ .body := by
  unfold CoroFrame.resume at h
  cases hp : fr.point with
  | body =>
    rw [hp] at h
    cases h
    show (if _ then CoroPoint.selfDestroy else .suspending) ≠ _
    split <;> exact CoroPoint.noConfusion
  | suspending =>
    rw [hp] at h
    cases h
    exact CoroPoint.noConfusion
  | selfDestroy =>
    rw [hp] at h
    cases h
    exact CoroPoint.noConfusion
  | suspended =>
    rw [hp] at h
    cases h
  | gone =>
    rw [hp] at h
    cases h

theorem release_point (fr : CoroFrame) : fr.release.point = fr.point := by
  unfold CoroFrame.release
  split <;> rfl

namespace Thread
variable {s s' : Promise β ρ ε} {t t' : Thread β ρ ε}

/-- What a thread relies on. -/
def Fits (s : Promise β ρ ε) : Thread β ρ ε → Prop
  | .calling _ => s.result ≠ none
  | .ending _ => s.result = none ∧ s.frame.point = .body
  | .notifying => s.result ≠ none ∧ s.frame.point = .body
  | .walking value _ => s.result = some value ∧ s.frame.point = .body
  | .leaving => s.result ≠ none ∧ s.callbacks = []
  | .destroying => s.frame.point ≠ .body
  | _ => True

theorem walked_of_not_ends (h : t.ends = 0) : t.walked = 0 := by
  cases t with
  | walking value i => cases h
  | _ => rfl

theorem due_of_ends (h : t.ends = 1) : t.due = 0 := by
  cases t with
  | locking cb => cases h
  | calling cb => cases h
  | _ => rfl

theorem fits_of_not_ends (ht : t.Fits s) (h : t.ends = 0) (hr : s.result ≠ none → s'.result ≠ none)
    (hp : s.frame.point ≠ .body → s'.frame.point ≠ .body) : t.Fits s' := by
  cases t with
  | calling cb => exact hr ht
  | destroying => exact hp ht
  | locking cb => trivial
  | returned => trivial
  | destroyed => trivial
  | _ => cases h

end Thread

namespace Promise
variable {w w' : World (Promise β ρ ε) (Thread β ρ ε)}

structure Inv (w : World (Promise β ρ ε) (Thread β ρ ε)) : Prop where
  ends : (w.calls.map Thread.ends).sum = if w.shared.ended then 1 else 0
  fresh : w.shared.ended = false → w.shared.result = none ∧ w.shared.frame.point = .body
  fits : ∀ t ∈ w.calls, t.Fits w.shared
  result : ∀ e ∈ w.shared.called, w.shared.result = some e.2
  accounted : (w.shared.registered : Multiset β) =
    (w.shared.called.map Prod.fst : List β) + outstanding w

theorem init_inv : Inv (init : World (Promise β ρ ε) _) where
  ends := rfl
  fresh _ := ⟨rfl, rfl⟩
  fits := by simp [init]
  result := by simp [init]
  accounted := rfl

theorem enter_inv (h : Inv w) {s : Promise β ρ ε} {t : Thread β ρ ε}
    (hends : t.ends = 0) (hended : s.ended = w.shared.ended) (hr : s.result = w.shared.result)
    (hc : s.called = w.shared.called) (hcb : s.callbacks = w.shared.callbacks)
    (hp : s.frame.point = w.shared.frame.point)
    (hfits : t.Fits s) (hreg : (s.registered : Multiset β) = w.shared.registered + t.due) :
    Inv ⟨s, w.calls ++ [t]⟩ where
  ends := by
    dsimp only
    rw [sum_enter, hends, Nat.add_zero, hended]
    exact h.ends
  fresh hfalse := by
    dsimp only at hfalse ⊢
    rw [hr, hp]
    exact h.fresh (hended.symm.trans hfalse)
  fits := by
    refine forall_enter (fun d hd => ?_) hfits
    have hold := h.fits d hd
    cases d <;> simp only [Thread.Fits, hr, hp, hcb] at hold ⊢ <;> exact hold
  result := by
    dsimp only
    rw [hc, hr]
    exact h.result
  accounted := by
    have hold := h.accounted
    simp only [outstanding, sum_enter, Thread.walked_of_not_ends hends, Nat.add_zero, hc, hcb, hreg]
      at hold ⊢
    rw [hold]
    abel

theorem finish_inv (h : Inv w) (hended : w.shared.ended = false) (r : Result ρ ε) :
    Inv ⟨{ w.shared with ended := true }, w.calls ++ [.ending r]⟩ where
  ends := by
    dsimp only
    rw [sum_enter, h.ends, hended]
    rfl
  fresh hfalse := by cases hfalse
  fits := forall_enter h.fits (h.fresh hended)
  result := h.result
  accounted := by
    have hold := h.accounted
    simp only [outstanding, sum_enter, Thread.walked, Thread.due, add_zero] at hold ⊢
    exact hold

theorem destruct_inv (h : Inv w) :
    Inv ⟨{ w.shared with hasTask := false, frame := w.shared.frame.release }, w.calls⟩ where
  ends := h.ends
  fresh hfalse := ⟨(h.fresh hfalse).1, (release_point _).trans (h.fresh hfalse).2⟩
  fits d hd := by
    have hold := h.fits d hd
    cases d <;> simp only [Thread.Fits, release_point] at hold ⊢ <;> exact hold
  result := h.result
  accounted := h.accounted

/-- A thread that does not end the coroutine leaves the walk where it is. -/
theorem Inv.walked_same {i : ℕ} {t t' : Thread β ρ ε} (hi : w.calls[i]? = some t)
    (ht : t.ends = 0) (ht' : t'.ends = 0) :
    ((w.calls.set i t').map Thread.walked).sum = (w.calls.map Thread.walked).sum := by
  have hsum := sum_set Thread.walked hi t'
  rwa [Thread.walked_of_not_ends ht, Thread.walked_of_not_ends ht', Nat.add_zero,
    Nat.add_zero] at hsum

theorem Inv.only {i : ℕ} {t : Thread β ρ ε} (h : Inv w) (hi : w.calls[i]? = some t)
    (ht : t.ends = 1) : w.shared.ended = true ∧ (w.calls.map Thread.ends).sum = t.ends := by
  have hle := le_sum (f := Thread.ends) hi
  have hends := h.ends
  cases hended : w.shared.ended with
  | true => exact ⟨rfl, by rw [hends, hended, ht]; rfl⟩
  | false =>
    rw [hends, hended, ht] at hle
    exact absurd hle (by decide)

/-- The thread that ends the coroutine is the only one that walks. -/
theorem Inv.walked_only {i : ℕ} {t t' : Thread β ρ ε} (h : Inv w) (hi : w.calls[i]? = some t)
    (ht : t.ends = 1) : ((w.calls.set i t').map Thread.walked).sum = t'.walked := by
  have hzero : ((w.calls.set i .returned).map Thread.walked).sum = 0 := by
    apply List.sum_eq_zero
    intro n hn
    obtain ⟨d, hd, rfl⟩ := List.mem_map.mp hn
    rcases others_zero hi (h.only hi ht).2 _ d hd with rfl | hd
    · rfl
    · exact Thread.walked_of_not_ends hd
  have hlt := (List.getElem?_eq_some_iff.mp hi).1
  have hsum := sum_set Thread.walked (List.getElem?_set_self (a := Thread.returned) hlt) t'
  rw [List.set_set, hzero] at hsum
  rwa [Nat.zero_add] at hsum

theorem Inv.walked_eq {t : Thread β ρ ε} (h : Inv w) (ht : t ∈ w.calls) (hends : t.ends = 1) :
    (w.calls.map Thread.walked).sum = t.walked := by
  obtain ⟨i, hi⟩ := List.getElem?_of_mem ht
  have hsum := sum_set Thread.walked hi t
  rw [h.walked_only hi hends] at hsum
  omega

theorem Inv.walked_none (h : Inv w) (hr : w.shared.result = none) :
    (w.calls.map Thread.walked).sum = 0 := by
  apply List.sum_eq_zero
  intro n hn
  obtain ⟨t, ht, rfl⟩ := List.mem_map.mp hn
  have hfits := h.fits t ht
  cases t with
  | walking value i =>
    rw [Thread.Fits, hr] at hfits
    cases hfits.1
  | _ => rfl

theorem Inv.ending_thread (h : Inv w) (hended : w.shared.ended = true) :
    ∃ t ∈ w.calls, t.ends ≠ 0 := by
  have hends := h.ends
  rw [hended, if_pos rfl] at hends
  obtain ⟨i, t, hi, hpos⟩ := exists_of_sum_pos (f := Thread.ends) (l := w.calls) (by omega)
  exact ⟨t, List.mem_of_getElem? hi, hpos.ne'⟩

/-- Once the frame is past its body, the walk is over. -/
theorem Inv.emptied (h : Inv w) (hp : w.shared.frame.point ≠ .body) : w.shared.callbacks = [] := by
  cases hended : w.shared.ended with
  | false => exact absurd (h.fresh hended).2 hp
  | true =>
    obtain ⟨t, ht, hends⟩ := h.ending_thread hended
    have hfits := h.fits t ht
    cases t with
    | ending r => exact absurd hfits.2 hp
    | notifying => exact absurd hfits.2 hp
    | walking value i => exact absurd hfits.2 hp
    | leaving => exact hfits.2
    | _ => exact absurd rfl hends

/-- A step of a registering or destroying thread. -/
theorem aside_inv {i : ℕ} {t t' : Thread β ρ ε} {s' : Promise β ρ ε} (h : Inv w)
    (hi : w.calls[i]? = some t) (ht : t.ends = 0) (ht' : t'.ends = 0)
    (hended : s'.ended = w.shared.ended) (hr : s'.result = w.shared.result)
    (hp : s'.frame.point = w.shared.frame.point) (hreg : s'.registered = w.shared.registered)
    (hcb : s'.callbacks = w.shared.callbacks ∨ w.shared.result = none ∨ s'.callbacks = [])
    (hfits : t'.Fits s') (hresult : ∀ e ∈ s'.called, s'.result = some e.2)
    (hacc : ((s'.called.map Prod.fst : List β) : Multiset β) + t'.due +
        (s'.callbacks.drop (w.calls.map Thread.walked).sum : List β) =
      (w.shared.called.map Prod.fst : List β) + t.due +
        (w.shared.callbacks.drop (w.calls.map Thread.walked).sum : List β)) :
    Inv ⟨s', w.calls.set i t'⟩ where
  ends := by
    have hsum := sum_set Thread.ends hi t'
    rw [ht, ht', Nat.add_zero, Nat.add_zero] at hsum
    dsimp only
    rw [hsum, hended]
    exact h.ends
  fresh hfalse := by
    dsimp only at hfalse ⊢
    rw [hr, hp]
    exact h.fresh (hended.symm.trans hfalse)
  fits := by
    refine forall_set h.fits (fun d _ hd => ?_) hfits
    cases d with
    | leaving =>
      refine ⟨by rw [hr]; exact hd.1, ?_⟩
      rcases hcb with hsame | hnone | hempty
      · exact hsame.trans hd.2
      · exact absurd hnone hd.1
      · exact hempty
    | _ => simp only [Thread.Fits, hr, hp] at hd ⊢ <;> exact hd
  result := hresult
  accounted := by
    have hold := h.accounted
    have hdue := sum_set Thread.due hi t'
    simp only [outstanding, hreg, Inv.walked_same hi ht ht'] at hold ⊢
    apply add_right_cancel (b := t.due)
    calc _ = ((w.shared.called.map Prod.fst : List β) : Multiset β) + t.due +
            (w.shared.callbacks.drop (w.calls.map Thread.walked).sum : List β) +
            (w.calls.map Thread.due).sum := by
          rw [hold]
          abel
      _ = ((s'.called.map Prod.fst : List β) : Multiset β) +
            (s'.callbacks.drop (w.calls.map Thread.walked).sum : List β) +
            ((w.calls.map Thread.due).sum + t'.due) := by
          rw [← hacc]
          abel
      _ = _ := by
          rw [← hdue]
          abel

/-- A step of the thread that ends the coroutine. -/
theorem end_inv {i : ℕ} {t t' : Thread β ρ ε} {s' : Promise β ρ ε} (h : Inv w)
    (hi : w.calls[i]? = some t) (ht : t.ends = 1) (ht' : t'.ends = 1)
    (hended : s'.ended = w.shared.ended) (hr : w.shared.result ≠ none → s'.result ≠ none)
    (hp : w.shared.frame.point ≠ .body → s'.frame.point ≠ .body)
    (hreg : s'.registered = w.shared.registered) (hfits : t'.Fits s')
    (hresult : ∀ e ∈ s'.called, s'.result = some e.2)
    (hacc : ((s'.called.map Prod.fst : List β) : Multiset β) +
        (s'.callbacks.drop t'.walked : List β) =
      (w.shared.called.map Prod.fst : List β) + (w.shared.callbacks.drop t.walked : List β)) :
    Inv ⟨s', w.calls.set i t'⟩ where
  ends := by
    have hsum := sum_set Thread.ends hi t'
    rw [ht, ht'] at hsum
    dsimp only
    rw [Nat.add_right_cancel hsum, hended]
    exact h.ends
  fresh hfalse := by
    rw [hended, (h.only hi ht).1] at hfalse
    cases hfalse
  fits d hd := by
    rcases others_zero hi (h.only hi ht).2 t' d hd with rfl | hzero
    · exact hfits
    · have hmem : d ∈ w.calls := by
        rcases List.mem_or_eq_of_mem_set hd with hmem | rfl
        · exact hmem
        · exact absurd (ht'.symm.trans hzero) (by decide)
      exact Thread.fits_of_not_ends (h.fits d hmem) hzero hr hp
  result := hresult
  accounted := by
    have hold := h.accounted
    have hdue := sum_set Thread.due hi t'
    have hwalked := h.walked_eq (List.mem_of_getElem? hi) ht
    rw [Thread.due_of_ends ht, Thread.due_of_ends ht', add_zero, add_zero] at hdue
    simp only [outstanding, hreg, h.walked_only hi ht, hdue, hwalked] at hold ⊢
    rw [hold, add_left_comm, ← hacc]
    abel

theorem advance_inv {i : ℕ} (h : Inv w) (hadvance : w.advance Thread.run i = some w') :
    Inv w' := by
  obtain ⟨t, s', t', hi, hrun, rfl⟩ := advance_cases hadvance
  have hfits := h.fits t (List.mem_of_getElem? hi)
  cases t with
  | locking cb =>
    simp only [Thread.run] at hrun
    split at hrun
    · rename_i r hr
      cases hrun
      exact aside_inv h hi rfl rfl rfl rfl rfl rfl (.inl rfl) (by rw [Thread.Fits, hr]; simp)
        h.result rfl
    · rename_i hr
      cases hrun
      refine aside_inv h hi rfl rfl rfl rfl rfl rfl (.inr (.inl hr)) trivial h.result ?_
      simp only [h.walked_none hr, List.drop_zero, Thread.due, ← Multiset.coe_add,
        Multiset.coe_singleton]
      abel
  | calling cb =>
    obtain ⟨r, hr, hrun⟩ := Option.map_eq_some_iff.mp hrun
    cases hrun
    refine aside_inv h hi rfl rfl rfl rfl rfl rfl (.inl rfl) trivial ?_ ?_
    · intro e he
      rcases List.mem_append.mp he with he | he
      · exact h.result e he
      · rw [List.mem_singleton.mp he]
        exact hr
    · simp only [List.map_append, List.map_cons, List.map_nil, Thread.due, ← Multiset.coe_add,
        Multiset.coe_singleton]
      abel
  | returned => cases hrun
  | ending r =>
    cases hrun
    refine end_inv h hi rfl rfl rfl (fun _ => Option.some_ne_none r) id rfl
      ⟨Option.some_ne_none r, hfits.2⟩ (fun e he => ?_) rfl
    have hr := h.result e he
    rw [hfits.1] at hr
    cases hr
  | notifying =>
    obtain ⟨r, hr, hrun⟩ := Option.map_eq_some_iff.mp hrun
    cases hrun
    exact end_inv h hi rfl rfl rfl id id rfl ⟨hr, hfits.2⟩ h.result rfl
  | walking value n =>
    simp only [Thread.run] at hrun
    split at hrun
    · rename_i cb hcb
      cases hrun
      refine end_inv h hi rfl rfl rfl id id rfl hfits (fun e he => ?_) ?_
      · rcases List.mem_append.mp he with he | he
        · exact h.result e he
        · rw [List.mem_singleton.mp he]
          exact hfits.1
      · have hdrop : w.shared.callbacks.drop n = cb :: w.shared.callbacks.drop (n + 1) :=
          List.drop_eq_getElem?_toList_append.trans (by rw [hcb]; rfl)
        simp only [Thread.walked, hdrop, List.map_append, List.map_cons, List.map_nil,
          ← Multiset.coe_add, ← Multiset.cons_coe, ← Multiset.singleton_add]
        abel
    · rename_i hcb
      cases hrun
      refine end_inv h hi rfl rfl rfl id id rfl ⟨?_, rfl⟩ h.result ?_
      · rw [hfits.1]
        exact Option.some_ne_none _
      · have hdrop : w.shared.callbacks.drop n = [] :=
          List.drop_eq_nil_of_le (List.getElem?_eq_none_iff.mp hcb)
        simp only [Thread.walked, hdrop, List.drop_nil]
  | leaving =>
    obtain ⟨frame, hframe, hrun⟩ := Option.map_eq_some_iff.mp hrun
    cases hrun
    exact end_inv h hi rfl rfl rfl id (fun _ => resume_point hframe) rfl hfits h.result rfl
  | destroying =>
    cases hrun
    refine aside_inv h hi rfl rfl rfl rfl rfl rfl (.inr (.inr rfl)) trivial h.result ?_
    rw [h.emptied hfits]
    rfl
  | destroyed => cases hrun

theorem step_inv {a : Action β ρ ε} (h : Inv w) (hstep : step w a = some w') : Inv w' := by
  cases a with
  | setCompleteCb cb =>
    simp only [step] at hstep
    split at hstep
    · cases hstep
      exact enter_inv h rfl rfl rfl rfl rfl rfl trivial rfl
    · cases hstep
  | finish r =>
    simp only [step] at hstep
    split at hstep
    · cases hstep
    · rename_i hended
      cases hstep
      exact finish_inv h (Bool.eq_false_of_not_eq_true hended) r
  | destructTask =>
    simp only [step] at hstep
    split at hstep
    · cases hstep
      split
      · rename_i hdone
        refine enter_inv (destruct_inv h) rfl rfl rfl rfl rfl rfl ?_ (add_zero _).symm
        simp only [CoroFrame.destroyable, CoroFrame.done, Bool.and_eq_true, decide_eq_true_eq] at hdone
        rw [Thread.Fits, release_point, hdone.1]
        exact CoroPoint.noConfusion
      · exact destruct_inv h
    · cases hstep
  | next i => exact advance_inv h hstep

theorem reachable_inv (h : Reachable step init w) : Inv w :=
  reachable_invariant init_inv (fun _ _ _ => step_inv) h

/-! ### What the callbacks get -/

theorem Inv.complete (h : Inv w) (hended : w.shared.ended = true)
    (hquiet : ∀ t ∈ w.calls, ¬ t.InProgress) : outstanding w = 0 := by
  have hempty : w.shared.callbacks = [] := by
    obtain ⟨t, ht, hends⟩ := h.ending_thread hended
    have hdone := hquiet t ht
    cases t with
    | leaving => exact (h.fits _ ht).2
    | ending r => exact absurd trivial hdone
    | notifying => exact absurd trivial hdone
    | walking value i => exact absurd trivial hdone
    | _ => exact absurd rfl hends
  have hdue : (w.calls.map Thread.due).sum = 0 := by
    apply List.sum_eq_zero
    intro m hm
    obtain ⟨t, ht, rfl⟩ := List.mem_map.mp hm
    have hdone := hquiet t ht
    cases t with
    | locking cb => exact absurd trivial hdone
    | calling cb => exact absurd trivial hdone
    | _ => rfl
  rw [outstanding, hempty, hdue, List.drop_nil]
  rfl

theorem Inv.unmodified {a : Action β ρ ε} (h : Inv w) (hstep : step w a = some w')
    (hiter : ∃ t ∈ w.calls, t.Iterates w.shared.callbacks) :
    w'.shared.callbacks = w.shared.callbacks := by
  obtain ⟨u, hu, hlt⟩ := hiter
  cases u with
  | walking value i =>
    obtain ⟨hr, hp⟩ := h.fits _ hu
    cases a with
    | setCompleteCb cb =>
      simp only [step] at hstep
      split at hstep <;> cases hstep
      rfl
    | finish r =>
      simp only [step] at hstep
      split at hstep <;> cases hstep
      rfl
    | destructTask =>
      simp only [step] at hstep
      split at hstep <;> cases hstep
      rfl
    | next j =>
      obtain ⟨t, s', t', hi, hrun, rfl⟩ := advance_cases hstep
      have hmem := List.mem_of_getElem? hi
      cases t with
      | locking cb =>
        simp only [Thread.run, hr] at hrun
        cases hrun
        rfl
      | walking value' n =>
        have hn : n = i := (h.walked_eq hmem rfl).symm.trans (h.walked_eq hu rfl)
        have hget := List.getElem?_eq_getElem (show n < w.shared.callbacks.length from hn ▸ hlt)
        simp only [Thread.run, hget] at hrun
        cases hrun
        rfl
      | destroying => exact absurd hp (h.fits _ hmem)
      | calling cb =>
        obtain ⟨r, _, hrun⟩ := Option.map_eq_some_iff.mp hrun
        cases hrun
        rfl
      | notifying =>
        obtain ⟨r, _, hrun⟩ := Option.map_eq_some_iff.mp hrun
        cases hrun
        rfl
      | leaving =>
        obtain ⟨frame, _, hrun⟩ := Option.map_eq_some_iff.mp hrun
        cases hrun
        rfl
      | ending r =>
        cases hrun
        rfl
      | returned => cases hrun
      | destroyed => cases hrun
  | _ => cases hlt

theorem Finishes.now {i : ℕ} {t : Thread β ρ ε} (hi : w.calls[i]? = some t)
    (ht : ¬ t.InProgress) : Finishes w i := ⟨0, w, rfl, t, hi, ht⟩

theorem Finishes.next {i : ℕ} {t t' : Thread β ρ ε} {s' : Promise β ρ ε}
    (hi : w.calls[i]? = some t) (hrun : Thread.run w.shared t = some (s', t'))
    (h : Inv ⟨s', w.calls.set i t'⟩ →
      (w.calls.set i t')[i]? = some t' → Finishes ⟨s', w.calls.set i t'⟩ i) (hinv : Inv w) :
    Finishes w i := by
  have hstep : step w (.next i) = some ⟨s', w.calls.set i t'⟩ := advance_eq hi hrun
  have hlt := (List.getElem?_eq_some_iff.mp hi).1
  obtain ⟨n, w', hexec, hend⟩ := h (step_inv hinv hstep) (List.getElem?_set_self hlt)
  refine ⟨n + 1, w', ?_, hend⟩
  rw [List.replicate_succ, exec, hstep, Option.bind_some, hexec]

theorem walk_finishes {i : ℕ} {value : Result ρ ε} {k : ℕ} (h : Inv w)
    (hi : w.calls[i]? = some (.walking value k)) : Finishes w i := by
  induction hleft : w.shared.callbacks.length - k generalizing w k with
  | zero =>
    have hget : w.shared.callbacks[k]? = none := List.getElem?_eq_none (by omega)
    refine Finishes.next hi (by simp only [Thread.run, hget]; rfl) (fun _ hi' => ?_) h
    exact .now hi' id
  | succ n ih =>
    have hget := List.getElem?_eq_getElem (show k < w.shared.callbacks.length by omega)
    refine Finishes.next hi (by simp only [Thread.run, hget]; rfl) (fun hinv hi' => ?_) h
    refine ih hinv hi' ?_
    dsimp only
    omega

theorem Inv.finishes {i : ℕ} {t : Thread β ρ ε} (h : Inv w) (hi : w.calls[i]? = some t) :
    Finishes w i := by
  have hcall : ∀ {v : World (Promise β ρ ε) (Thread β ρ ε)} {cb : β}, Inv v →
      v.calls[i]? = some (.calling cb) → Finishes v i := by
    intro v cb hv hcalling
    obtain ⟨r, hr⟩ := Option.ne_none_iff_exists'.mp (hv.fits _ (List.mem_of_getElem? hcalling))
    exact Finishes.next hcalling (by simp only [Thread.run, hr]; rfl) (fun _ hi' => .now hi' id) hv
  have hnotify : ∀ {v : World (Promise β ρ ε) (Thread β ρ ε)}, Inv v →
      v.calls[i]? = some .notifying → Finishes v i := by
    intro v hv hnotifying
    obtain ⟨r, hr⟩ := Option.ne_none_iff_exists'.mp (hv.fits _ (List.mem_of_getElem? hnotifying)).1
    exact Finishes.next hnotifying (by simp only [Thread.run, hr]; rfl) walk_finishes hv
  cases t with
  | locking cb =>
    cases hr : w.shared.result with
    | none =>
      exact Finishes.next hi (by simp only [Thread.run, hr]; rfl) (fun _ hi' => .now hi' id) h
    | some r => exact Finishes.next hi (by simp only [Thread.run, hr]; rfl) hcall h
  | calling cb => exact hcall h hi
  | ending r => exact Finishes.next hi rfl hnotify h
  | notifying => exact hnotify h hi
  | walking value k => exact walk_finishes h hi
  | _ => exact .now hi id

end Promise

/-- In every interleaving of registrations, the end of the coroutine and the destruction of its
`Task`, each registered callback is called once, with the coroutine's result, and the list is not
modified while it is walked. -/
theorem callbacks_called_exactly_once {w : World (Promise β ρ ε) (Thread β ρ ε)}
    (h : Reachable Promise.step Promise.init w) : Promise.ExactlyOnce w := by
  have hinv := Promise.reachable_inv h
  exact ⟨hinv.accounted, hinv.result, hinv.complete, fun _ _ => hinv.unmodified,
    fun _ _ => hinv.finishes⟩

/-- One callback is registered before the end and one during the walk, and the `Task` is
destroyed before the first one is called. -/
def lateRun : List (Action ℕ ℕ String) :=
  [.setCompleteCb 1, .next 0, .finish (.exception "boom"), .next 1, .setCompleteCb 2, .next 1,
    .next 2, .next 2, .destructTask, .next 1, .next 1, .next 1, .next 1]

theorem late_callback_called_once :
    ∃ w : World (Promise ℕ ℕ String) (Thread ℕ ℕ String),
      Reachable Promise.step Promise.init w ∧ Promise.ExactlyOnce w ∧
      w.shared.called = [(2, .exception "boom"), (1, .exception "boom")] :=
  have hrun : Reachable Promise.step Promise.init _ := ⟨lateRun, rfl⟩
  ⟨_, hrun, callbacks_called_exactly_once hrun, rfl⟩

end MSylar.Coro.Complete
