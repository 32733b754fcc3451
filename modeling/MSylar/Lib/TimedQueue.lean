import Mathlib.Data.Multiset.Filter
import Mathlib.Data.Multiset.AddSub

/-!
# Queues of items with a due time

The abstract state is the multiset of pending items. `Add` admits an item, at
once where it is already due; `Release` gives out what is due, in the order of
the due times, and keeps the rest.
-/

namespace MSylar.TimedQueue
variable {ι κ : Type*} [LinearOrder κ] (due : ι → κ)

structure Add (x : ι) (now : κ) (pending : Multiset ι) (out : List ι) (pending' : Multiset ι) :
    Prop where
  late : due x ≤ now → out = [x] ∧ pending' = pending
  early : now < due x → out = [] ∧ pending' = x ::ₘ pending

structure Release (now : κ) (pending : Multiset ι) (out : List ι) (pending' : Multiset ι) :
    Prop where
  given : (out : Multiset ι) = pending.filter fun x => due x ≤ now
  ordered : out.Pairwise fun x y => due x ≤ due y
  kept : pending' = pending.filter fun x => now < due x

/-- A list in the order of the due times is released by splitting it at `now`. -/
theorem release_of_sorted {l : List ι} (h : l.Pairwise fun x y => due x ≤ due y) (now : κ) :
    Release due now l (l.filter fun x => due x ≤ now) (l.filter fun x => now < due x) where
  given := (Multiset.filter_coe _ l).symm
  ordered := h.sublist List.filter_sublist
  kept := (Multiset.filter_coe _ l).symm

end MSylar.TimedQueue
