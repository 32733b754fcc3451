import Mathlib.Data.List.Basic

/-!
# JSON values

The values of `nlohmann::json` with the accesses that never change one (`size`, `find`, the
`const` subscript) and the ones that build arrays and objects. `ν` is the type of numbers. An
object is the list of its members; the first member with a key is the one that is found.
-/

namespace MSylar

inductive Json (ν : Type*) where
  | null
  | boolean (b : Bool)
  | number (n : ν)
  | string (s : List Char)
  | array (items : List (Json ν))
  | object (members : List (List Char × Json ν))

namespace Json
variable {ν : Type*}

/-- Scalars other than `null` have size 1. -/
def size : Json ν → ℕ
  | .null => 0
  | .array items => items.length
  | .object members => members.length
  | _ => 1

/-- `none` is `end()`, which is also what a value that is no object answers. -/
def find (key : List Char) : Json ν → Option (Json ν)
  | .object members => members.lookup key
  | _ => none

/-- `none` is the exception that a value other than an array throws, and an index behind the end. -/
def atIndex (idx : ℕ) : Json ν → Option (Json ν)
  | .array items => items[idx]?
  | _ => none

def isArray : Json ν → Bool
  | .array _ => true
  | _ => false

theorem find_of_isArray {j : Json ν} (h : j.isArray = true) (key : List Char) :
    j.find key = none := by
  cases j with
  | object members => cases h
  | null | boolean b | number n | string s | array items => rfl

theorem atIndex_of_not_isArray {j : Json ν} (h : j.isArray = false) (idx : ℕ) :
    j.atIndex idx = none := by
  cases j with
  | array items => cases h
  | null | boolean b | number n | string s | object members => rfl

/-- The conversion to a string; `none` is the exception of every other value. -/
def getString : Json ν → Option (List Char)
  | .string s => some s
  | _ => none

/-- What a loop over the indices below `size` reads. -/
def elements (j : Json ν) : Option (List (Json ν)) :=
  (List.range j.size).mapM fun i => j.atIndex i

theorem mapM_getElem? {α : Type*} (l : List α) :
    (List.range l.length).mapM (fun i => l[i]?) = some l := by
  induction l with
  | nil => rfl
  | cons x l ih =>
    rw [List.length_cons, List.range_succ_eq_map, List.mapM_cons, List.mapM_map]
    simp only [Function.comp_def, List.getElem?_cons_succ, List.getElem?_cons_zero]
    rw [ih]
    rfl

@[simp] theorem elements_array (items : List (Json ν)) : elements (.array items) = some items :=
  mapM_getElem? items

/-- `push_back`; `null` becomes an array. On other values it throws, which nothing here does. -/
def pushBack (j x : Json ν) : Json ν :=
  match j with
  | .null => .array [x]
  | .array items => .array (items ++ [x])
  | j => j

theorem foldl_pushBack {α : Type*} (f : α → Json ν) (l : List α) (items : List (Json ν)) :
    l.foldl (fun j x => pushBack j (f x)) (.array items) = .array (items ++ l.map f) := by
  induction l generalizing items with
  | nil => rw [List.foldl_nil, List.map_nil, List.append_nil]
  | cons x l ih =>
    rw [List.foldl_cons, pushBack, ih, List.map_cons, List.append_assoc, List.singleton_append]

/-- The assignment `j[key] = value` for the members of an object. -/
def setMember (key : List Char) (value : Json ν) :
    List (List Char × Json ν) → List (List Char × Json ν)
  | [] => [(key, value)]
  | m :: ms => if m.1 = key then (key, value) :: ms else m :: setMember key value ms

theorem lookup_setMember (key k : List Char) (value : Json ν) (ms : List (List Char × Json ν)) :
    (setMember key value ms).lookup k = if k = key then some value else ms.lookup k := by
  induction ms with
  | nil =>
    rw [setMember, List.lookup_cons]
    by_cases hk : k = key
    · simp [hk]
    · simp [hk, beq_eq_false_iff_ne.mpr hk]
  | cons m ms ih =>
    unfold setMember
    by_cases hm : m.1 = key
    · rw [if_pos hm, List.lookup_cons, List.lookup_cons, hm]
      by_cases hk : k = key
      · simp [hk]
      · simp [hk, beq_eq_false_iff_ne.mpr hk]
    · rw [if_neg hm, List.lookup_cons, List.lookup_cons, ih]
      by_cases hk : k = m.1
      · simp [hk, hm]
      · simp [beq_eq_false_iff_ne.mpr hk]

end Json

end MSylar
