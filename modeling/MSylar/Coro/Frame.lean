import Mathlib.Tactic.Common
import MSylar.Lib.Calls
import MSylar.Lib.Execution

/-!
# Coroutine frames and their tasks (task.hpp:27-100, 165-248, 735-806)

A coroutine and the `Task` that owns it share a `PTStateSync` inside the frame. `Task<T>` and
`Task<void>` have the same text. The coroutine ends with `FinalAwaiter::await_ready`, after
which it destroys its frame itself or is suspended for good; a `Task` that is destroyed or
overwritten either destroys the frame or leaves that to the coroutine.
-/

namespace MSylar.Coro
open MSylar.Calls MSylar.Execution

inductive CoroutineState where
  | running
  | finished
  deriving DecidableEq

inductive TaskState where
  | destructed
  | exist
  deriving DecidableEq

/-- How far the coroutine is. `body` lasts until `await_ready`, with all suspensions in
between. -/
inductive CoroPoint where
  | body
  | suspending
  | suspended
  | selfDestroy
  | gone
  deriving DecidableEq

/-- `destroyed` counts the destructions; `fault` is set when a destroyed frame is used or an
assertion fails. -/
structure CoroFrame where
  coroState : CoroutineState
  taskState : TaskState
  point : CoroPoint
  destroyed : ℕ
  fault : Bool
  deriving DecidableEq

namespace CoroFrame

def new : CoroFrame := ⟨.running, .exist, .body, 0, false⟩

def touch (fr : CoroFrame) : CoroFrame := { fr with fault := fr.fault || decide (0 < fr.destroyed) }

def done (fr : CoroFrame) : Bool := fr.point = .suspended

def destroy (fr : CoroFrame) : CoroFrame := { fr.touch with destroyed := fr.destroyed + 1 }

/-- The locked region of `FinalAwaiter::await_ready`. -/
def awaitReady (fr : CoroFrame) : CoroFrame :=
  { fr.touch with
    fault := fr.touch.fault || decide (fr.coroState = .finished)
    coroState := .finished
    point := if fr.taskState = .destructed then .selfDestroy else .suspending }

def resume (fr : CoroFrame) : Option CoroFrame :=
  match fr.point with
  | .body => some fr.awaitReady
  | .suspending => some { fr.touch with point := .suspended }
  | .selfDestroy => some { fr.destroy with point := .gone }
  | .suspended => none
  | .gone => none

def destroyable (fr : CoroFrame) : Bool := fr.done && decide (fr.coroState = .finished)

/-- The locked region of `~Task` and of `operator=`; a destroyable frame is destroyed after
it. -/
def release (fr : CoroFrame) : CoroFrame :=
  if fr.destroyable then fr.touch else { fr.touch with taskState := .destructed }

end CoroFrame

/-- All frames, all `Task` objects (each with the number of its frame), and the frames that an
owner has yet to destroy after it has released the lock. -/
structure Coros where
  frames : List CoroFrame
  tasks : List (Option ℕ)
  destroying : List ℕ

namespace Coros

def init : Coros := ⟨[], [], []⟩

def release (w : Coros) (t : ℕ) : Option Coros :=
  match w.tasks[t]? with
  | none => none
  | some none => some w
  | some (some f) => some
    { frames := w.frames.modify f CoroFrame.release
      tasks := w.tasks.set t none
      destroying :=
        if w.frames[f]?.any CoroFrame.destroyable then w.destroying ++ [f] else w.destroying }

def move (w : Coros) (t u : ℕ) : Option Coros :=
  w.tasks[u]?.map fun content => { w with tasks := (w.tasks.set t content).set u none }

def destructTask (w : Coros) (t : ℕ) : Option Coros := w.release t

def assignTask (w : Coros) (t u : ℕ) : Option Coros :=
  if t = u then some w else (w.release t).bind fun w' => w'.move t u

def moveTask (w : Coros) (u : ℕ) : Option Coros :=
  w.tasks[u]?.map fun content => { w with tasks := w.tasks.set u none ++ [content] }

end Coros

inductive CoroAction where
  | call
  | resume (f : ℕ)
  | destruct (t : ℕ)
  | assign (t u : ℕ)
  | move (u : ℕ)
  | destroy (f : ℕ)

/-- Actions of coroutines and owners, in any order. A `handler.destroy()` comes after the lock
has been released. -/
def Coros.step (w : Coros) : CoroAction → Option Coros
  | .call => some { w with frames := w.frames ++ [.new], tasks := w.tasks ++ [some w.frames.length] }
  | .resume f => (w.frames[f]?.bind CoroFrame.resume).map fun fr => { w with frames := w.frames.set f fr }
  | .destruct t => w.destructTask t
  | .assign t u => w.assignTask t u
  | .move u => w.moveTask u
  | .destroy f =>
    if f ∈ w.destroying then
      some { w with frames := w.frames.modify f CoroFrame.destroy, destroying := w.destroying.erase f }
    else none

/-- The coroutine has no step left, and neither a `Task` nor an owner's operation refers to
the frame. -/
def Coros.over (w : Coros) (f : ℕ) (fr : CoroFrame) : Prop :=
  fr.resume = none ∧ some f ∉ w.tasks ∧ f ∉ w.destroying

def Coros.releases (w : Coros) (f : ℕ) : CoroAction → Bool
  | .destruct t => w.tasks[t]? = some (some f)
  | .assign t u => t ≠ u ∧ w.tasks[t]? = some (some f)
  | _ => false

/-- The `Task` of frame `f` is not destroyed or overwritten between the coroutine's
`await_ready` and its suspension. -/
def notInWindow (f : ℕ) (w : Coros) (a : CoroAction) : Prop :=
  w.releases f a = true → ∀ fr ∈ w.frames[f]?, fr.point ≠ .suspending

instance (f : ℕ) (w : Coros) (a : CoroAction) : Decidable (notInWindow f w a) :=
  inferInstanceAs (Decidable (_ → _))

/-! ### What one action does to one frame -/

/-- A frame with the number of tasks that have it and of destructions still to come; the
flag says whether the step lets go of the frame. -/
inductive FrameStep : CoroFrame × ℕ × ℕ → Bool → CoroFrame × ℕ × ℕ → Prop where
  | same (s : CoroFrame × ℕ × ℕ) : FrameStep s false s
  | resume {fr fr' : CoroFrame} (h d : ℕ) : fr.resume = some fr' → FrameStep (fr, h, d) false (fr', h, d)
  | release (fr : CoroFrame) (h d : ℕ) :
      FrameStep (fr, h + 1, d) true (fr.release, h, if fr.destroyable then d + 1 else d)
  | destroy (fr : CoroFrame) (h d : ℕ) : FrameStep (fr, h, d + 1) false (fr.destroy, h, d)

theorem count_set_add {α : Type*} [BEq α] [LawfulBEq α] [DecidableEq α] {l : List α} {i : ℕ} {x : α}
    (h : l[i]? = some x) (y z : α) :
    (l.set i y).count z + (if x = z then 1 else 0) = l.count z + if y = z then 1 else 0 := by
  obtain ⟨a, b, hl, hset⟩ := set_split h
  rw [hset, hl]
  simp only [List.count_append, List.count_cons, beq_iff_eq]
  omega

namespace Coros

theorem move_spec {w w' : Coros} {t u f : ℕ} (hne : t ≠ u) (hempty : w.tasks[t]? = some none)
    (h : w.move t u = some w') :
    w'.frames = w.frames ∧ w'.destroying = w.destroying ∧
      w'.tasks.count (some f) = w.tasks.count (some f) := by
  obtain ⟨content, hu, rfl⟩ := Option.map_eq_some_iff.mp h
  refine ⟨rfl, rfl, ?_⟩
  have hu' : (w.tasks.set t content)[u]? = some content := by
    rw [List.getElem?_set_ne hne, hu]
  have htake := count_set_add hempty content (some f)
  have hdrop := count_set_add hu' none (some f)
  simp only [reduceCtorEq, if_false, Nat.add_zero] at htake hdrop
  dsimp only
  omega

theorem release_spec {w w' : Coros} {t f : ℕ} {fr : CoroFrame} (h : w.release t = some w')
    (hf : w.frames[f]? = some fr) :
    w'.tasks[t]? = some none ∧ ∃ fr', w'.frames[f]? = some fr' ∧
      FrameStep (fr, w.tasks.count (some f), w.destroying.count f)
        (decide (w.tasks[t]? = some (some f)))
        (fr', w'.tasks.count (some f), w'.destroying.count f) := by
  unfold release at h
  split at h
  · cases h
  · rename_i hnone
    cases h
    refine ⟨hnone, fr, hf, ?_⟩
    rw [hnone]
    exact .same _
  · rename_i g hg
    cases h
    have hlt : t < w.tasks.length := (List.getElem?_eq_some_iff.mp hg).1
    refine ⟨List.getElem?_set_self hlt, ?_⟩
    have hcount := count_set_add hg none (some f)
    simp only [reduceCtorEq, if_false, Option.some.injEq, Nat.add_zero] at hcount
    rw [hg]
    by_cases hgf : g = f
    · subst hgf
      rw [if_pos rfl] at hcount
      refine ⟨fr.release, by simp [hf], ?_⟩
      have hdest : (if w.frames[g]?.any CoroFrame.destroyable then w.destroying ++ [g] else w.destroying).count g =
          if fr.destroyable then w.destroying.count g + 1 else w.destroying.count g := by
        rw [hf, Option.any_some]
        split
        · rw [List.count_append, List.count_singleton_self]
        · rfl
      dsimp only
      rw [hdest, decide_eq_true rfl, ← hcount]
      exact .release _ _ _
    · rw [if_neg hgf, Nat.add_zero] at hcount
      refine ⟨fr, by simp only [List.getElem?_modify_ne _ _ hgf, hf], ?_⟩
      have hdest : (if w.frames[g]?.any CoroFrame.destroyable then w.destroying ++ [g] else w.destroying).count f =
          w.destroying.count f := by
        split
        · rw [List.count_append, List.count_singleton, if_neg (by simpa using hgf), Nat.add_zero]
        · rfl
      have hflag : decide (some (some g) = some (some f)) = false := by simp [hgf]
      dsimp only
      rw [hdest, hflag, hcount]
      exact .same _

theorem step_frame {w w' : Coros} {a : CoroAction} {f : ℕ} {fr : CoroFrame}
    (h : w.step a = some w') (hf : w.frames[f]? = some fr) :
    ∃ fr', w'.frames[f]? = some fr' ∧
      FrameStep (fr, w.tasks.count (some f), w.destroying.count f) (w.releases f a)
        (fr', w'.tasks.count (some f), w'.destroying.count f) := by
  have hlt : f < w.frames.length := (List.getElem?_eq_some_iff.mp hf).1
  cases a with
  | call =>
    cases h
    refine ⟨fr, by rw [List.getElem?_append_left hlt, hf], ?_⟩
    have hcount : (w.tasks ++ [some w.frames.length]).count (some f) = w.tasks.count (some f) := by
      have hne : w.frames.length ≠ f := by omega
      rw [List.count_append, List.count_singleton, if_neg (by simpa using hne), Nat.add_zero]
    dsimp only
    rw [hcount]
    exact .same _
  | resume g =>
    obtain ⟨fr', hfr', rfl⟩ := Option.map_eq_some_iff.mp h
    obtain ⟨fr₀, hg, hresume⟩ := Option.bind_eq_some_iff.mp hfr'
    by_cases hgf : g = f
    · subst hgf
      rw [hf] at hg
      cases hg
      exact ⟨fr', List.getElem?_set_self hlt, .resume _ _ hresume⟩
    · exact ⟨fr, by rw [List.getElem?_set_ne hgf, hf], .same _⟩
  | destruct t => exact (release_spec h hf).2
  | assign t u =>
    simp only [step, assignTask] at h
    split at h
    · rename_i heq
      cases h
      refine ⟨fr, hf, ?_⟩
      simp only [releases, heq, ne_eq, not_true_eq_false, false_and, decide_false]
      exact .same _
    · rename_i hne
      obtain ⟨w₁, hrelease, hmove⟩ := Option.bind_eq_some_iff.mp h
      obtain ⟨hempty, fr', hfr', hstep⟩ := release_spec hrelease hf
      obtain ⟨hframes, hdest, hcount⟩ := @move_spec w₁ w' t u f hne hempty hmove
      refine ⟨fr', hframes ▸ hfr', ?_⟩
      simp only [releases, ne_eq, hne, not_false_eq_true, true_and]
      rw [hcount, hdest]
      exact hstep
  | move u =>
    obtain ⟨content, hu, rfl⟩ := Option.map_eq_some_iff.mp h
    refine ⟨fr, hf, ?_⟩
    have hdrop := count_set_add hu none (some f)
    have hcount : (w.tasks.set u none ++ [content]).count (some f) = w.tasks.count (some f) := by
      simp only [List.count_append, List.count_singleton, beq_iff_eq]
      simpa only [reduceCtorEq, if_false, Nat.add_zero] using hdrop
    dsimp only
    rw [hcount]
    exact .same _
  | destroy g =>
    simp only [step] at h
    split at h
    · rename_i hmem
      cases h
      by_cases hgf : g = f
      · subst hgf
        refine ⟨fr.destroy, by simp [hf], ?_⟩
        have hpos := List.count_pos_iff.mpr hmem
        have hcount : w.destroying.count g = (w.destroying.erase g).count g + 1 := by
          rw [List.count_erase_self]
          omega
        rw [hcount]
        exact .destroy _ _ _
      · refine ⟨fr, by simp only [List.getElem?_modify_ne _ _ hgf, hf], ?_⟩
        dsimp only
        rw [List.count_erase_of_ne (Ne.symm hgf)]
        exact .same _
    · cases h

end Coros

/-! ### The states of a frame -/

/-- The states a frame can be in, with its numbers of tasks and of destructions to come. -/
inductive FrameOk : CoroFrame → ℕ → ℕ → Prop where
  | running : FrameOk ⟨.running, .exist, .body, 0, false⟩ 1 0
  | suspending : FrameOk ⟨.finished, .exist, .suspending, 0, false⟩ 1 0
  | suspended : FrameOk ⟨.finished, .exist, .suspended, 0, false⟩ 1 0
  | abandoned : FrameOk ⟨.running, .destructed, .body, 0, false⟩ 0 0
  | selfDestroy : FrameOk ⟨.finished, .destructed, .selfDestroy, 0, false⟩ 0 0
  | gone : FrameOk ⟨.finished, .destructed, .gone, 1, false⟩ 0 0
  | condemned : FrameOk ⟨.finished, .exist, .suspended, 0, false⟩ 0 1
  | destroyed : FrameOk ⟨.finished, .exist, .suspended, 1, false⟩ 0 0
  -- both sides have left the frame to the other
  | leaking : FrameOk ⟨.finished, .destructed, .suspending, 0, false⟩ 0 0
  | leaked : FrameOk ⟨.finished, .destructed, .suspended, 0, false⟩ 0 0

def CoroFrame.leaks (fr : CoroFrame) : Prop :=
  fr.taskState = .destructed ∧ (fr.point = .suspending ∨ fr.point = .suspended)

instance (fr : CoroFrame) : Decidable fr.leaks := inferInstanceAs (Decidable (_ ∧ _))

theorem FrameOk.safe {fr : CoroFrame} {h d : ℕ} (hok : FrameOk fr h d) :
    fr.destroyed ≤ 1 ∧ fr.fault = false := by
  cases hok <;> decide

theorem FrameOk.step {fr fr' : CoroFrame} {h d h' d' : ℕ} {released : Bool} (hok : FrameOk fr h d)
    (hstep : FrameStep (fr, h, d) released (fr', h', d')) :
    FrameOk fr' h' d' ∧ (fr'.leaks ↔ fr.leaks ∨ released = true ∧ fr.point = .suspending) := by
  cases hstep with
  | same => exact ⟨hok, by simp⟩
  | resume _ _ hresume =>
    cases hok with
    | running => cases hresume; exact ⟨.suspending, by decide⟩
    | suspending => cases hresume; exact ⟨.suspended, by decide⟩
    | suspended => cases hresume
    | abandoned => cases hresume; exact ⟨.selfDestroy, by decide⟩
    | selfDestroy => cases hresume; exact ⟨.gone, by decide⟩
    | gone => cases hresume
    | condemned => cases hresume
    | destroyed => cases hresume
    | leaking => cases hresume; exact ⟨.leaked, by decide⟩
    | leaked => cases hresume
  | release =>
    cases hok with
    | running => exact ⟨.abandoned, by decide⟩
    | suspending => exact ⟨.leaking, by decide⟩
    | suspended => exact ⟨.condemned, by decide⟩
  | destroy =>
    cases hok with
    | condemned => exact ⟨.destroyed, by decide⟩

namespace Coros

structure Known (w : Coros) : Prop where
  tasks : ∀ f, some f ∈ w.tasks → f < w.frames.length
  destroying : ∀ f ∈ w.destroying, f < w.frames.length

theorem Known.release {w w' : Coros} {t : ℕ} (h : w.Known) (hs : w.release t = some w') :
    w'.Known := by
  unfold Coros.release at hs
  split at hs
  · cases hs
  · cases hs
    exact h
  · rename_i g hg
    cases hs
    have hlt : g < w.frames.length := h.tasks g (List.mem_of_getElem? hg)
    refine ⟨fun f hf => ?_, fun f hf => ?_⟩
    · rw [List.length_modify]
      rcases List.mem_or_eq_of_mem_set hf with hf | hf
      · exact h.tasks f hf
      · cases hf
    · rw [List.length_modify]
      dsimp only at hf
      split at hf
      · rcases List.mem_append.mp hf with hf | hf
        · exact h.destroying f hf
        · exact List.mem_singleton.mp hf ▸ hlt
      · exact h.destroying f hf

theorem Known.move {w w' : Coros} {t u : ℕ} (h : w.Known) (hs : w.move t u = some w') :
    w'.Known := by
  obtain ⟨content, hu, rfl⟩ := Option.map_eq_some_iff.mp hs
  refine ⟨fun f hf => ?_, h.destroying⟩
  rcases List.mem_or_eq_of_mem_set hf with hf | hf
  · rcases List.mem_or_eq_of_mem_set hf with hf | hf
    · exact h.tasks f hf
    · exact h.tasks f (hf ▸ List.mem_of_getElem? hu)
  · cases hf

theorem Known.step {w w' : Coros} {a : CoroAction} (h : w.Known) (hs : w.step a = some w') :
    w'.Known := by
  cases a with
  | call =>
    cases hs
    refine ⟨fun f hf => ?_, fun f hf => ?_⟩
    · rw [List.length_append, List.length_singleton]
      rcases List.mem_append.mp hf with hf | hf
      · exact Nat.lt_succ_of_lt (h.tasks f hf)
      · simp only [List.mem_singleton, Option.some.injEq] at hf
        omega
    · rw [List.length_append, List.length_singleton]
      exact Nat.lt_succ_of_lt (h.destroying f hf)
  | resume g =>
    obtain ⟨fr', -, rfl⟩ := Option.map_eq_some_iff.mp hs
    refine ⟨fun f hf => ?_, fun f hf => ?_⟩
    · rw [List.length_set]
      exact h.tasks f hf
    · rw [List.length_set]
      exact h.destroying f hf
  | destruct t => exact h.release hs
  | assign t u =>
    simp only [Coros.step, assignTask] at hs
    split at hs
    · cases hs
      exact h
    · obtain ⟨w₁, hrelease, hmove⟩ := Option.bind_eq_some_iff.mp hs
      exact (h.release hrelease).move hmove
  | move u =>
    obtain ⟨content, hu, rfl⟩ := Option.map_eq_some_iff.mp hs
    refine ⟨fun f hf => ?_, h.destroying⟩
    rcases List.mem_append.mp hf with hf | hf
    · rcases List.mem_or_eq_of_mem_set hf with hf | hf
      · exact h.tasks f hf
      · cases hf
    · exact h.tasks f (List.mem_singleton.mp hf ▸ List.mem_of_getElem? hu)
  | destroy g =>
    simp only [Coros.step] at hs
    split at hs
    · cases hs
      refine ⟨fun f hf => ?_, fun f hf => ?_⟩
      · rw [List.length_modify]
        exact h.tasks f hf
      · rw [List.length_modify]
        exact h.destroying f (List.mem_of_mem_erase hf)
    · cases hs

structure Inv (w : Coros) : Prop where
  frames : ∀ f fr, w.frames[f]? = some fr →
    FrameOk fr (w.tasks.count (some f)) (w.destroying.count f)
  known : w.Known

theorem release_length {w w' : Coros} {t : ℕ} (hs : w.release t = some w') :
    w'.frames.length = w.frames.length := by
  unfold Coros.release at hs
  split at hs
  · cases hs
  · cases hs
    rfl
  · cases hs
    exact List.length_modify _ _ _

theorem step_length {w w' : Coros} {a : CoroAction} (hs : w.step a = some w') :
    a = .call ∨ w'.frames.length = w.frames.length := by
  cases a with
  | call => exact .inl rfl
  | resume f =>
    obtain ⟨fr', -, rfl⟩ := Option.map_eq_some_iff.mp hs
    exact .inr List.length_set
  | destruct t => exact .inr (release_length hs)
  | assign t u =>
    simp only [Coros.step, assignTask] at hs
    split at hs
    · cases hs
      exact .inr rfl
    · obtain ⟨w₁, hrelease, hmove⟩ := Option.bind_eq_some_iff.mp hs
      obtain ⟨content, -, rfl⟩ := Option.map_eq_some_iff.mp hmove
      have hlen := release_length hrelease
      exact .inr hlen
  | move u =>
    obtain ⟨content, -, rfl⟩ := Option.map_eq_some_iff.mp hs
    exact .inr rfl
  | destroy f =>
    simp only [Coros.step] at hs
    split at hs
    · cases hs
      exact .inr (List.length_modify _ _ _)
    · cases hs

theorem step_new_frame {w w' : Coros} {a : CoroAction} {f : ℕ} {fr : CoroFrame}
    (hs : w.step a = some w') (hf : w'.frames[f]? = some fr) (hold : w.frames[f]? = none) :
    a = .call ∧ f = w.frames.length ∧ fr = .new := by
  have hlen : w.frames.length ≤ f := List.getElem?_eq_none_iff.mp hold
  have hlt : f < w'.frames.length := (List.getElem?_eq_some_iff.mp hf).1
  rcases step_length hs with rfl | hsame
  · cases hs
    have heq : f = w.frames.length := by
      rw [List.length_append, List.length_singleton] at hlt
      omega
    subst heq
    rw [List.getElem?_concat_length] at hf
    exact ⟨rfl, rfl, (Option.some.inj hf).symm⟩
  · omega

theorem Inv.step {w w' : Coros} {a : CoroAction} (h : w.Inv) (hs : w.step a = some w') :
    w'.Inv := by
  refine ⟨fun f fr hf => ?_, h.known.step hs⟩
  cases hold : w.frames[f]? with
  | some fr₀ =>
    obtain ⟨fr', hfr', hstep⟩ := step_frame hs hold
    rw [hf] at hfr'
    cases hfr'
    exact ((h.frames f fr₀ hold).step hstep).1
  | none =>
    obtain ⟨rfl, rfl, rfl⟩ := step_new_frame hs hf hold
    cases hs
    have htasks : w.tasks.count (some w.frames.length) = 0 :=
      List.count_eq_zero.mpr fun hmem => Nat.lt_irrefl _ (h.known.tasks _ hmem)
    have hdest : w.destroying.count w.frames.length = 0 :=
      List.count_eq_zero.mpr fun hmem => Nat.lt_irrefl _ (h.known.destroying _ hmem)
    dsimp only
    rw [List.count_append, htasks, List.count_singleton_self, hdest]
    exact .running

theorem init_inv : Inv init := by
  refine ⟨fun f fr hf => ?_, ⟨fun f hf => ?_, fun f hf => ?_⟩⟩
  · cases hf
  · cases hf
  · cases hf

def Leaks (f : ℕ) (w : Coros) : Prop := ∃ fr, w.frames[f]? = some fr ∧ fr.leaks

theorem Inv.leaks_step {w w' : Coros} {a : CoroAction} {f : ℕ} (h : w.Inv)
    (hs : w.step a = some w') : Leaks f w' ↔ Leaks f w ∨ ¬ notInWindow f w a := by
  cases hold : w.frames[f]? with
  | some fr =>
    obtain ⟨fr', hfr', hstep⟩ := step_frame hs hold
    have hleaks := ((h.frames f fr hold).step hstep).2
    simp only [Leaks, hfr', hold, Option.some.injEq, exists_eq_left', notInWindow, Option.mem_def,
      forall_eq', ne_eq, Classical.not_imp, not_not]
    exact hleaks
  | none =>
    refine iff_of_false ?_ ?_
    · rintro ⟨fr, hf, hleaks⟩
      obtain ⟨-, -, rfl⟩ := step_new_frame hs hf hold
      exact absurd hleaks (by decide)
    · rintro (⟨fr, hf, -⟩ | hwindow)
      · rw [hold] at hf
        cases hf
      · refine hwindow fun _ fr hf => ?_
        rw [hold] at hf
        cases hf

end Coros

/-- A frame is never destroyed twice or used after that, and once coroutine and `Task` are
done with it, it has been destroyed exactly if the `Task` did not let go of it in the window. -/
theorem frame_destroyed_once_iff (as : List CoroAction) (w : Coros) (f : ℕ) (fr : CoroFrame)
    (hw : exec Coros.step Coros.init as = some w) (hf : w.frames[f]? = some fr) :
    fr.destroyed ≤ 1 ∧ fr.fault = false ∧
      (w.over f fr → (fr.destroyed = 1 ↔ Guarded Coros.step (notInWindow f) Coros.init as)) := by
  have hinv := exec_invariant (fun _ _ _ hi hs => Coros.Inv.step hi hs) Coros.init_inv hw
  have hleaks : Coros.Leaks f w ↔ Coros.Leaks f Coros.init ∨
      ¬ Guarded Coros.step (notInWindow f) Coros.init as :=
    exec_bad_iff (fun _ _ _ hi hs => Coros.Inv.step hi hs) (fun _ _ _ hi hs => hi.leaks_step hs)
      Coros.init_inv hw
  have hstart : ¬ Coros.Leaks f Coros.init := by
    rintro ⟨fr, hfr, -⟩
    cases hfr
  have hlost : fr.leaks ↔ ¬ Guarded Coros.step (notInWindow f) Coros.init as := by
    rw [or_iff_right hstart] at hleaks
    simpa only [Coros.Leaks, hf, Option.some.injEq, exists_eq_left'] using hleaks
  have hok := hinv.frames f fr hf
  refine ⟨hok.safe.1, hok.safe.2, fun hover => ?_⟩
  · obtain ⟨hend, htasks, hdest⟩ := hover
    rw [List.count_eq_zero.mpr htasks, List.count_eq_zero.mpr hdest] at hok
    rw [← not_iff_not, ← hlost]
    cases hok with
    | abandoned => cases hend
    | selfDestroy => cases hend
    | gone => decide
    | destroyed => decide
    | leaking => cases hend
    | leaked => decide

/-- Frame 0 is destroyed by its second `Task`, which takes over from the first; frame 1 has lost
its `Task` before it ends, when another one is assigned to it. -/
def bothWays : List CoroAction :=
  [.call, .resume 0, .move 0, .resume 0, .call, .assign 2 0, .destruct 1, .resume 1, .destroy 0,
    .resume 1]

theorem both_ways_destroyed_once :
    ∃ w, exec Coros.step Coros.init bothWays = some w ∧ ∃ fr fr', w.frames = [fr, fr'] ∧
      w.over 0 fr ∧ w.over 1 fr' ∧ fr.destroyed = 1 ∧ fr'.destroyed = 1 := by
  refine ⟨_, rfl, _, _, rfl, ⟨rfl, by decide, by decide⟩, ⟨rfl, by decide, by decide⟩, ?_, ?_⟩
  · exact ((frame_destroyed_once_iff bothWays _ 0 _ rfl rfl).2.2
      ⟨rfl, by decide, by decide⟩).mpr (by decide)
  · exact ((frame_destroyed_once_iff bothWays _ 1 _ rfl rfl).2.2
      ⟨rfl, by decide, by decide⟩).mpr (by decide)

/-- The `Task` is destroyed after `await_ready` has found it alive and before the coroutine is
suspended. -/
def releasedInWindow : List CoroAction := [.call, .resume 0, .destruct 0, .resume 0]

theorem released_in_window_leaks :
    ∃ w, exec Coros.step Coros.init releasedInWindow = some w ∧
      ∃ fr, w.frames = [fr] ∧ w.over 0 fr ∧ fr.destroyed ≠ 1 :=
  ⟨_, rfl, _, rfl, ⟨rfl, by decide, by decide⟩, by decide⟩

end MSylar.Coro
