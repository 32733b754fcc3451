import Mathlib.Data.List.Basic
import Mathlib.Data.Multiset.Filter
import Mathlib.Order.Basic

/-!
# Ordered multimaps

`std::multimap`: entries in the order of their keys, equal keys in the order in
which they were inserted. The order is a field of the structure, so a loop over
the entries that stops at the first key above a bound visits exactly the entries
up to the bound (`upTo_eq_filter`, `above_eq_filter`).
-/

namespace MSylar

structure Multimap (κ ν : Type*) [LinearOrder κ] where
  entries : List (κ × ν)
  sorted : entries.Pairwise fun a b => a.1 ≤ b.1
  deriving DecidableEq

namespace Multimap
variable {κ ν : Type*} [LinearOrder κ]

def empty : Multimap κ ν := ⟨[], List.Pairwise.nil⟩

/-- The new entry goes right behind the last one whose key is not above its own. -/
def insertEntry (e : κ × ν) : List (κ × ν) → List (κ × ν)
  | [] => [e]
  | x :: xs => if x.1 ≤ e.1 then x :: insertEntry e xs else e :: x :: xs

theorem insertEntry_perm (e : κ × ν) (l : List (κ × ν)) : (insertEntry e l).Perm (e :: l) := by
  induction l with
  | nil => exact List.Perm.refl _
  | cons x xs ih =>
    unfold insertEntry
    split
    · exact (ih.cons x).trans (List.Perm.swap e x xs)
    · exact List.Perm.refl _

theorem insertEntry_sorted (e : κ × ν) (l : List (κ × ν)) (h : l.Pairwise fun a b => a.1 ≤ b.1) :
    (insertEntry e l).Pairwise fun a b => a.1 ≤ b.1 := by
  induction l with
  | nil => exact List.pairwise_singleton _ _
  | cons x xs ih =>
    obtain ⟨hx, hxs⟩ := List.pairwise_cons.mp h
    unfold insertEntry
    split
    · rename_i hle
      refine List.pairwise_cons.mpr ⟨fun y hy => ?_, ih hxs⟩
      rcases List.mem_cons.mp ((insertEntry_perm e xs).mem_iff.mp hy) with rfl | hy
      · exact hle
      · exact hx y hy
    · rename_i hlt
      have hex : e.1 ≤ x.1 := (not_le.mp hlt).le
      refine List.pairwise_cons.mpr ⟨fun y hy => ?_, h⟩
      rcases List.mem_cons.mp hy with rfl | hy
      · exact hex
      · exact hex.trans (hx y hy)

def insert (k : κ) (v : ν) (m : Multimap κ ν) : Multimap κ ν :=
  ⟨insertEntry (k, v) m.entries, insertEntry_sorted _ _ m.sorted⟩

def find (k : κ) (m : Multimap κ ν) : Option ν :=
  (m.entries.find? fun e => e.1 = k).map Prod.snd

def filter (p : κ × ν → Bool) (m : Multimap κ ν) : Multimap κ ν :=
  ⟨m.entries.filter p, m.sorted.sublist List.filter_sublist⟩

/-- The entries an ascending loop visits before the first key above `k`. -/
def upTo (k : κ) (m : Multimap κ ν) : List (κ × ν) := m.entries.takeWhile fun e => e.1 ≤ k

/-- `erase(begin(), it)` for the iterator at which that loop stops. -/
def above (k : κ) (m : Multimap κ ν) : Multimap κ ν :=
  ⟨m.entries.dropWhile fun e => e.1 ≤ k, m.sorted.sublist (List.dropWhile_sublist _)⟩

theorem insert_perm (k : κ) (v : ν) (m : Multimap κ ν) :
    (m.insert k v).entries.Perm ((k, v) :: m.entries) := insertEntry_perm _ _

theorem mem_insert {k : κ} {v : ν} {m : Multimap κ ν} {e : κ × ν} :
    e ∈ (m.insert k v).entries ↔ e = (k, v) ∨ e ∈ m.entries := by
  rw [(insert_perm k v m).mem_iff, List.mem_cons]

theorem find_eq_none {k : κ} {m : Multimap κ ν} (h : m.find k = none) :
    ∀ e ∈ m.entries, e.1 ≠ k := by
  simp only [find, Option.map_eq_none_iff, List.find?_eq_none, decide_eq_true_eq] at h
  exact h

theorem find_mem {k : κ} {v : ν} {m : Multimap κ ν} (h : m.find k = some v) :
    (k, v) ∈ m.entries := by
  obtain ⟨e, he, hv⟩ := Option.map_eq_some_iff.mp h
  have hk : e.1 = k := by simpa using List.find?_some he
  have hm := List.mem_of_find?_eq_some he
  rwa [← hk, ← hv]

theorem mem_filter {p : κ × ν → Bool} {m : Multimap κ ν} {e : κ × ν} :
    e ∈ (m.filter p).entries ↔ e ∈ m.entries ∧ p e = true := List.mem_filter

private theorem split_sorted (k : κ) (l : List (κ × ν)) (h : l.Pairwise fun a b => a.1 ≤ b.1) :
    l.takeWhile (fun e => e.1 ≤ k) = l.filter (fun e => e.1 ≤ k) ∧
      l.dropWhile (fun e => e.1 ≤ k) = l.filter (fun e => k < e.1) := by
  induction l with
  | nil => exact ⟨rfl, rfl⟩
  | cons x xs ih =>
    obtain ⟨hx, hxs⟩ := List.pairwise_cons.mp h
    by_cases hk : x.1 ≤ k
    · have hn : ¬ k < x.1 := not_lt.mpr hk
      simp only [List.takeWhile_cons, List.dropWhile_cons, List.filter_cons, hk, hn, decide_true,
        decide_false, ite_true, Bool.false_eq_true, ite_false, ih hxs, and_self]
    · have hlt : k < x.1 := not_le.mp hk
      have hall : ∀ y ∈ xs, k < y.1 := fun y hy => hlt.trans_le (hx y hy)
      have hnone : xs.filter (fun e => e.1 ≤ k) = [] :=
        List.filter_eq_nil_iff.mpr fun y hy => by simpa using hall y hy
      have hself : xs.filter (fun e => k < e.1) = xs :=
        List.filter_eq_self.mpr fun y hy => by simpa using hall y hy
      simp only [List.takeWhile_cons, List.dropWhile_cons, List.filter_cons, hk, hlt, decide_true,
        decide_false, ite_true, Bool.false_eq_true, ite_false, hnone, hself, and_self]

theorem upTo_eq_filter (k : κ) (m : Multimap κ ν) :
    m.upTo k = m.entries.filter fun e => e.1 ≤ k := (split_sorted k m.entries m.sorted).1

theorem above_eq_filter (k : κ) (m : Multimap κ ν) :
    (m.above k).entries = m.entries.filter fun e => k < e.1 := (split_sorted k m.entries m.sorted).2

theorem upTo_append_above (k : κ) (m : Multimap κ ν) :
    m.upTo k ++ (m.above k).entries = m.entries := List.takeWhile_append_dropWhile

end Multimap
end MSylar
