import Mathlib.Data.List.Basic

/-!
# Transducers

A machine that reads a word from the left and emits a list for every letter. What it
emits on a concatenation is what it emits on the first word, followed by what it emits
on the second one from the state reached.
-/

namespace MSylar

structure Transducer (σ α β : Type*) where
  next : σ → α → σ
  emit : σ → α → List β

namespace Transducer

variable {σ α β : Type*} (T : Transducer σ α β)

def state (s : σ) (as : List α) : σ := as.foldl T.next s

def output : σ → List α → List β
  | _, [] => []
  | s, a :: as => T.emit s a ++ output (T.next s a) as

theorem output_cons (s : σ) (a : α) (as : List α) :
    T.output s (a :: as) = T.emit s a ++ T.output (T.next s a) as := rfl

theorem output_append (s : σ) (as bs : List α) :
    T.output s (as ++ bs) = T.output s as ++ T.output (T.state s as) bs := by
  induction as generalizing s with
  | nil => rfl
  | cons a as ih =>
    rw [List.cons_append, output_cons, output_cons, ih, List.append_assoc]
    rfl

/-- Two states that treat the first letter alike agree on the whole word. -/
theorem output_congr {s t : σ} {as : List α}
    (h : ∀ a ∈ as.head?, T.emit s a = T.emit t a ∧ T.next s a = T.next t a) :
    T.output s as = T.output t as := by
  cases as with
  | nil => rfl
  | cons a as =>
    obtain ⟨hemit, hnext⟩ := h a rfl
    rw [output_cons, output_cons, hemit, hnext]

end Transducer

end MSylar
