import Mathlib.Data.List.Basic
import MSylar.Lib.Json
import MSylar.Lib.Text

/-!
# Configuration paths (config.h:121-162)

`getJsonValueByPath` cuts the path at its dots and goes down one level for each segment. The
positions in the path are `int`s. A segment that begins with a digit is taken for an index, which
`stoi` reads from its leading digits.
-/

namespace MSylar.Basic
open MSylar.Text MSylar.Word
variable {ν : Type*}

/-- The three ends of a lookup: an exception, the result -1, and 0 with a value. -/
inductive Lookup (ν : Type*) where
  | throws
  | missing
  | found (value : Json ν)

namespace Lookup

def andThen (l : Lookup ν) (next : Json ν → Lookup ν) : Lookup ν :=
  match l with
  | .throws => .throws
  | .missing => .missing
  | .found value => next value

def ofOption : Option (Json ν) → Lookup ν
  | none => .missing
  | some value => .found value

end Lookup

def decimal (digits : List Char) : ℕ :=
  digits.foldl (fun n c => 10 * n + (c.toNat - '0'.toNat)) 0

def leadingDigits (key : List Char) : List Char := key.takeWhile Char.isDigit

/-- `std::stoi` of a text that begins with a digit; `none` is the exception `out_of_range`. -/
def stoi (key : List Char) : Option ℤ :=
  if decimal (leadingDigits key) < 2^31 then some (decimal (leadingDigits key)) else none

/-- `std::isdigit(key[0])`; the first character of an empty string is the null character. -/
def firstIsDigit (key : List Char) : Bool := (key.headD '\x00').isDigit

/-- The body of the loop, and what follows it for the last segment. -/
def descend (node : Json ν) (key : List Char) : Lookup ν :=
  if firstIsDigit key then
    match stoi key with
    | none => .throws
    | some idx =>
      if idx < 0 ∨ int32 node.size ≤ idx then .missing
      else match node.atIndex (sizeT idx) with
        | none => .throws
        | some value => .found value
  else
    match node.find key with
    | none => .missing
    | some value => .found value

/-- The loop over the dots, from `front_pos` on. The fuel is used up only when a path is too long
for its positions. -/
def pathLoop (path : List Char) : ℕ → Json ν → ℤ → Lookup ν
  | 0, _, _ => .throws
  | fuel + 1, node, frontPos =>
    if find path '.' (sizeT frontPos) ≠ npos then
      let backPos := int32 (find path '.' (sizeT frontPos))
      match substr path (sizeT frontPos) (sizeT (backPos - frontPos)) with
      | none => .throws
      | some key => (descend node key).andThen fun node => pathLoop path fuel node (backPos + 1)
    else
      match substr path (sizeT frontPos) npos with
      | none => .throws
      | some key => descend node key

def getJsonValueByPath (jsonData : Json ν) (path : List Char) : Lookup ν :=
  pathLoop path (path.length + 1) jsonData 0

/-! ### The reference walk -/

/-- A segment of decimal digits selects an element of an array, any other one a member of an
object. -/
def select (node : Json ν) (key : List Char) : Option (Json ν) :=
  if key ≠ [] ∧ key.all Char.isDigit then node.atIndex (decimal key) else node.find key

def walk (node : Json ν) (keys : List (List Char)) : Option (Json ν) := keys.foldlM select node

/-- The lookup is the reference walk; it does not throw. -/
def AsWalked (jsonData : Json ν) (path : List Char) : Prop :=
  getJsonValueByPath jsonData path = Lookup.ofOption (walk jsonData (path.splitOn '.'))

/-- On the way down these segments a key is absent or an index too large, and whatever is indexed
before is an array. -/
def Stops : Json ν → List (List Char) → Prop
  | _, [] => False
  | node, key :: keys =>
    if firstIsDigit key then
      decimal (leadingDigits key) < 2^31 ∧
        ((decimal (leadingDigits key) : ℤ) < int32 node.size →
          ∃ value, node.atIndex (decimal (leadingDigits key)) = some value ∧ Stops value keys)
    else
      ∀ value, node.find key = some value → Stops value keys

/-- Indices are below `2^31`. One that is below the size of the node is used on an array only; with
other characters behind its digits the rest of the path leads nowhere. One that is not below the
size is not there for the reference walk either. -/
def Sound : Json ν → List (List Char) → Prop
  | _, [] => True
  | node, key :: keys =>
    if firstIsDigit key then
      decimal (leadingDigits key) < 2^31 ∧
        if (decimal (leadingDigits key) : ℤ) < int32 node.size then
          ∃ value, node.atIndex (decimal (leadingDigits key)) = some value ∧
            if key.all Char.isDigit then Sound value keys else Stops value keys
        else walk node (key :: keys) = none
    else
      ∀ value, node.find key = some value → Sound value keys

/-! ### One segment -/

theorem descend_key {node : Json ν} {key : List Char} (h : firstIsDigit key = false) :
    descend node key = Lookup.ofOption (node.find key) := by
  unfold descend
  rw [h, if_neg Bool.false_ne_true]
  cases node.find key <;> rfl

theorem descend_overflow {node : Json ν} {key : List Char} (h : firstIsDigit key = true)
    (hn : ¬decimal (leadingDigits key) < 2^31) : descend node key = .throws := by
  unfold descend stoi
  rw [if_pos h, if_neg hn]

theorem descend_beyond {node : Json ν} {key : List Char} (h : firstIsDigit key = true)
    (hn : decimal (leadingDigits key) < 2^31)
    (hsize : ¬(decimal (leadingDigits key) : ℤ) < int32 node.size) :
    descend node key = .missing := by
  unfold descend stoi
  rw [if_pos h, if_pos hn]
  exact if_pos (Or.inr (not_lt.mp hsize))

theorem descend_index {node : Json ν} {key : List Char} (h : firstIsDigit key = true)
    (hn : decimal (leadingDigits key) < 2^31)
    (hsize : (decimal (leadingDigits key) : ℤ) < int32 node.size) :
    descend node key = match node.atIndex (decimal (leadingDigits key)) with
      | none => .throws
      | some value => .found value := by
  unfold descend stoi
  rw [if_pos h, if_pos hn]
  simp only [if_neg (show ¬((decimal (leadingDigits key) : ℤ) < 0 ∨
    int32 node.size ≤ decimal (leadingDigits key)) by omega), sizeT_natCast
    (show decimal (leadingDigits key) < 2^64 by omega)]

theorem select_key {key : List Char} (h : firstIsDigit key = false) (node : Json ν) :
    select node key = node.find key := by
  unfold select
  rw [if_neg]
  rintro ⟨hne, hall⟩
  obtain ⟨c, cs, rfl⟩ := List.exists_cons_of_ne_nil hne
  simp only [firstIsDigit, List.headD_cons] at h
  rw [List.all_cons, h, Bool.false_and] at hall
  exact Bool.false_ne_true hall

theorem select_digits {key : List Char} (h : firstIsDigit key = true)
    (hall : key.all Char.isDigit = true) (node : Json ν) :
    select node key = node.atIndex (decimal (leadingDigits key)) := by
  have hne : key ≠ [] := by
    rintro rfl
    exact absurd h (by decide)
  have hlead : leadingDigits key = key := List.takeWhile_eq_self_iff.mpr (List.all_eq_true.mp hall)
  unfold select
  rw [if_pos ⟨hne, hall⟩, hlead]

theorem select_mixed {key : List Char} (hall : ¬key.all Char.isDigit = true) (node : Json ν) :
    select node key = node.find key := by
  unfold select
  rw [if_neg fun h => hall h.2]

/-! ### All segments -/

def lookupKeys : Json ν → List (List Char) → Lookup ν
  | node, [] => .found node
  | node, key :: keys => (descend node key).andThen fun value => lookupKeys value keys

theorem walk_cons (node : Json ν) (key : List Char) (keys : List (List Char)) :
    walk node (key :: keys) = (select node key).bind fun value => walk value keys := rfl

theorem missing_iff (node : Json ν) (keys : List (List Char)) :
    lookupKeys node keys = .missing ↔ Stops node keys := by
  induction keys generalizing node with
  | nil => simp [lookupKeys, Stops]
  | cons key keys ih =>
    unfold lookupKeys Stops
    by_cases hdigit : firstIsDigit key = true
    · rw [if_pos hdigit]
      by_cases hn : decimal (leadingDigits key) < 2^31
      · rw [and_iff_right hn]
        by_cases hsize : (decimal (leadingDigits key) : ℤ) < int32 node.size
        · rw [descend_index hdigit hn hsize]
          cases node.atIndex (decimal (leadingDigits key)) with
          | none => simp [Lookup.andThen, hsize]
          | some value => simp [Lookup.andThen, hsize, ih]
        · simp [descend_beyond hdigit hn hsize, Lookup.andThen, hsize]
      · rw [descend_overflow hdigit hn]
        exact iff_of_false nofun fun h => hn h.1
    · rw [if_neg hdigit, descend_key (Bool.not_eq_true _ ▸ hdigit)]
      cases node.find key with
      | none => simp [Lookup.andThen, Lookup.ofOption]
      | some value => simp [Lookup.andThen, Lookup.ofOption, ih]

theorem ofOption_eq_missing {o : Option (Json ν)} : .missing = Lookup.ofOption o ↔ o = none := by
  cases o <;> simp [Lookup.ofOption]

theorem walked_iff (node : Json ν) (keys : List (List Char)) :
    lookupKeys node keys = Lookup.ofOption (walk node keys) ↔ Sound node keys := by
  induction keys generalizing node with
  | nil => exact iff_of_true rfl trivial
  | cons key keys ih =>
    have hthrows : ∀ o : Option (Json ν), .throws ≠ Lookup.ofOption o := by
      intro o
      cases o <;> simp [Lookup.ofOption]
    unfold lookupKeys Sound
    by_cases hdigit : firstIsDigit key = true
    · rw [if_pos hdigit]
      by_cases hn : decimal (leadingDigits key) < 2^31
      · rw [and_iff_right hn]
        by_cases hsize : (decimal (leadingDigits key) : ℤ) < int32 node.size
        · rw [descend_index hdigit hn hsize, if_pos hsize]
          cases hvalue : node.atIndex (decimal (leadingDigits key)) with
          | none => simpa [Lookup.andThen] using hthrows _
          | some value =>
            simp only [Lookup.andThen, Option.some.injEq, exists_eq_left']
            by_cases hall : key.all Char.isDigit = true
            · rw [if_pos hall, ← ih value, walk_cons, select_digits hdigit hall, hvalue,
                Option.bind_some]
            · -- the element that the code goes into is not on the reference walk
              have harray : node.isArray = true := by
                by_contra hnot
                rw [Json.atIndex_of_not_isArray (by simpa using hnot)] at hvalue
                cases hvalue
              rw [if_neg hall, ← missing_iff, walk_cons, select_mixed hall,
                Json.find_of_isArray harray]
              rfl
        · rw [descend_beyond hdigit hn hsize, if_neg hsize]
          exact ofOption_eq_missing
      · rw [descend_overflow hdigit hn]
        exact iff_of_false (hthrows _) fun h => hn h.1
    · have hkey : firstIsDigit key = false := Bool.not_eq_true _ ▸ hdigit
      rw [if_neg hdigit, descend_key hkey, walk_cons, select_key hkey]
      cases node.find key with
      | none => simp [Lookup.andThen, Lookup.ofOption]
      | some value => simp [Lookup.andThen, Lookup.ofOption, ← ih]

/-! ### The path -/

/-- From a position of the path on, the loop looks up the segments behind it. -/
theorem pathLoop_eq (w rest : List Char) (hlen : (w ++ rest).length < 2^31) (fuel : ℕ)
    (hfuel : rest.length < fuel) (node : Json ν) :
    pathLoop (w ++ rest) fuel node w.length = lookupKeys node (rest.splitOn '.') := by
  induction fuel generalizing w rest node with
  | zero => omega
  | succ fuel ih =>
    have hsize := hlen
    rw [List.length_append] at hsize
    unfold pathLoop
    rw [sizeT_natCast (show w.length < 2^64 by omega)]
    by_cases hdot : '.' ∈ rest
    · obtain ⟨key, u, rfl, hkey⟩ := List.eq_append_cons_of_mem hdot
      rw [List.length_append, List.length_cons] at hsize hfuel
      have hback : int32 (find (w ++ (key ++ '.' :: u)) '.' w.length) =
          (w.length + key.length : ℕ) := by
        rw [find_append hkey, int32_of_lt (by omega)]
      have hnpos : find (w ++ (key ++ '.' :: u)) '.' w.length ≠ npos := by
        rw [find_append hkey]
        unfold npos
        omega
      have hn : ((w.length + key.length : ℕ) : ℤ) - w.length = (key.length : ℕ) := by omega
      have hnext : ((w.length + key.length : ℕ) : ℤ) + 1 = (w ++ key ++ ['.']).length := by
        simp [add_assoc]
      have hpath : w ++ (key ++ '.' :: u) = (w ++ key ++ ['.']) ++ u := by simp
      simp only [if_pos hnpos, hback, hn, sizeT_natCast (show key.length < 2^64 by omega),
        substr_append, hnext]
      rw [List.splitOn_append_cons_self_of_not_mem hkey, lookupKeys]
      have hlen' : ((w ++ key ++ ['.']) ++ u).length < 2^31 := by
        rw [← hpath]
        exact hlen
      have hih := ih (w ++ key ++ ['.']) u hlen' (by omega)
      rw [← hpath] at hih
      simp only [hih]
    · rw [if_neg (not_not.mpr (find_of_not_mem hdot w)),
        substr_rest w rest (by unfold npos; omega), List.splitOn_eq_singleton hdot]
      cases hdescend : descend node rest <;> simp [lookupKeys, hdescend, Lookup.andThen]

theorem as_walked_iff (jsonData : Json ν) (path : List Char) (hlen : path.length < 2^31) :
    AsWalked jsonData path ↔ Sound jsonData (path.splitOn '.') := by
  have hloop := pathLoop_eq [] path hlen (path.length + 1) (Nat.lt_succ_self _) jsonData
  rw [← walked_iff]
  unfold AsWalked getJsonValueByPath
  rw [← hloop]
  rfl

theorem index_as_walked :
    AsWalked (.object [("name".toList, .array [.null, .number 5])] : Json ℕ) "name.1".toList := by
  refine (as_walked_iff _ _ (by decide)).mpr ?_
  show Sound _ ["name".toList, ['1']]
  have hname : firstIsDigit "name".toList = false := by decide
  have hone : firstIsDigit ['1'] = true := by decide
  have hvalue : decimal (leadingDigits ['1']) = 1 := by decide
  have hsize : ((1 : ℕ) : ℤ) < int32 (2 : ℕ) := by decide
  simp only [Sound, hname, hone, hvalue, if_true, Json.find, Bool.false_eq_true, if_false]
  intro value hfound
  cases hfound
  refine ⟨by decide, ?_⟩
  exact (if_pos hsize).mpr ⟨.number 5, rfl, trivial⟩

/-- An index on an object, an index of no `int`, and digits with other characters behind them. -/
theorem not_as_walked :
    ¬AsWalked (.object [(['a'], .null)] : Json ℕ) ['0'] ∧
      ¬AsWalked (.null : Json ℕ) "4294967296".toList ∧
      ¬AsWalked (.array [.null, .number 5] : Json ℕ) "1abc".toList := by
  refine ⟨fun h => ?_, fun h => ?_, fun h => ?_⟩
  · exact nomatch (show (.throws : Lookup ℕ) = .missing from h)
  · exact nomatch (show (.throws : Lookup ℕ) = .missing from h)
  · exact nomatch (show (.found (.number 5) : Lookup ℕ) = .missing from h)

end MSylar.Basic
