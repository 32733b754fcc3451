import Mathlib.Data.List.Basic
import Mathlib.Data.List.Lex
import MSylar.Lib.Json

/-!
# Logger definitions as JSON (log.cc:47-77, 592-688, log.h:152-185)

The two conversions between a set of `LogDefine` and JSON. A formatter is its pattern, which the
constructor keeps as it is. The level of a `LogDefine` and the type of a `LogAppenderDefine` have
no initial value; `Unset` holds what happens to be there.
-/

namespace MSylar.Basic
variable {ν : Type}

inductive LogLevel where
  | unknown
  | debug
  | info
  | warn
  | error
  | fatal
  deriving DecidableEq

namespace LogLevel

-- `to_string`
def toText : LogLevel → List Char
  | .debug => "DEBUG".toList
  | .info => "INFO".toList
  | .warn => "WARN".toList
  | .error => "ERROR".toList
  | .fatal => "FATAL".toList
  | .unknown => "UNKNOWN".toList

-- `Level_FromString`
def fromString (levelStr : List Char) : LogLevel :=
  if levelStr = "DEBUG".toList then .debug
  else if levelStr = "INFO".toList then .info
  else if levelStr = "WARN".toList then .warn
  else if levelStr = "ERROR".toList then .error
  else if levelStr = "FATAL".toList then .fatal
  else .unknown

@[simp] theorem fromString_toText (level : LogLevel) : fromString level.toText = level := by
  cases level <;> decide +kernel

end LogLevel

structure LogAppenderDefine where
  type : ℤ
  level : LogLevel
  formatter : Option (List Char)
  file : List Char
  deriving DecidableEq

structure LogDefine where
  name : List Char
  level : LogLevel
  formatter : Option (List Char)
  appenders : List LogAppenderDefine
  deriving DecidableEq

structure Unset where
  level : LogLevel
  type : ℤ

namespace LogAppenderDefine

def isValid (a : LogAppenderDefine) : Prop := a.type = 0 ∨ a.type = 1 ∧ a.file ≠ []

instance (a : LogAppenderDefine) : Decidable a.isValid := inferInstanceAs (Decidable (_ ∨ _))

/-- The members of the JSON object of an appender. -/
def toJson (a : LogAppenderDefine) : Json ν :=
  let json := []
  let json :=
    if a.type = 0 then Json.setMember "type".toList (.string "StdoutLogAppender".toList) json
    else if a.type = 1 then
      Json.setMember "file".toList (.string a.file)
        (Json.setMember "type".toList (.string "FileLogAppender".toList) json)
    else json
  let json := Json.setMember "level".toList (.string a.level.toText) json
  .object (match a.formatter with
    | some pattern => Json.setMember "formatter".toList (.string pattern) json
    | none => json)

/-- Stdout with no file, or a file with a name. -/
def Proper (a : LogAppenderDefine) : Prop := a.type = 0 ∧ a.file = [] ∨ a.type = 1 ∧ a.file ≠ []

instance (a : LogAppenderDefine) : Decidable a.Proper := inferInstanceAs (Decidable (_ ∨ _))

def readType (appender : Json ν) (a : LogAppenderDefine) : Option LogAppenderDefine :=
  match appender.find "type".toList with
  | none => some a
  | some json => do
    let type ← json.getString
    if type = "StdoutLogAppender".toList then some { a with type := 0 }
    else match decide (type = "FileLogAppender".toList), appender.find "file".toList with
      | true, some json => do
        let file ← json.getString
        some { a with type := 1, file := file }
      | _, _ => some { a with type := -1 }

def readLevel (appender : Json ν) (a : LogAppenderDefine) : Option LogAppenderDefine :=
  match appender.find "level".toList with
  | none => some a
  | some json => do
    let levelStr ← json.getString
    some { a with level := LogLevel.fromString levelStr }

def readFormatter (appender : Json ν) (a : LogAppenderDefine) : Option LogAppenderDefine :=
  match appender.find "formatter".toList with
  | none => some a
  | some json => do
    let pattern ← json.getString
    some { a with formatter := some pattern }

/-- An appender from its JSON; `none` is an exception. It may be invalid. -/
def ofJson (unset : Unset) (appender : Json ν) : Option LogAppenderDefine := do
  let a ← readType appender ⟨unset.type, .unknown, none, []⟩
  let a ← readLevel appender a
  readFormatter appender a

theorem Proper.isValid {a : LogAppenderDefine} (h : a.Proper) : a.isValid :=
  h.imp_left And.left

theorem find_toJson (a : LogAppenderDefine) {key : List Char} (hkey : key ≠ "formatter".toList)
    (hlevel : key ≠ "level".toList) :
    (a.toJson : Json ν).find key =
      if a.type = 0 then if key = "type".toList then some (.string "StdoutLogAppender".toList) else none
      else if a.type = 1 then
        if key = "file".toList then some (.string a.file)
        else if key = "type".toList then some (.string "FileLogAppender".toList) else none
      else none := by
  unfold toJson
  cases a.formatter <;>
  · simp only [Json.find, Json.lookup_setMember, if_neg hkey, if_neg hlevel]
    split
    · rw [Json.lookup_setMember, List.lookup_nil]
    · split
      · rw [Json.lookup_setMember, Json.lookup_setMember, List.lookup_nil]
      · rfl

theorem find_level (a : LogAppenderDefine) :
    (a.toJson : Json ν).find "level".toList = some (.string a.level.toText) := by
  unfold toJson
  cases a.formatter with
  | none => simp only [Json.find, Json.lookup_setMember, if_true]
  | some pattern =>
    simp only [Json.find, Json.lookup_setMember, if_true,
      if_neg (show "level".toList ≠ "formatter".toList by decide)]

theorem find_formatter (a : LogAppenderDefine) :
    (a.toJson : Json ν).find "formatter".toList = a.formatter.map .string := by
  unfold toJson
  cases a.formatter with
  | none =>
    simp only [Json.find, Json.lookup_setMember,
      if_neg (show "formatter".toList ≠ "level".toList by decide)]
    split
    · rfl
    · split <;> rfl
  | some pattern => simp only [Json.find, Json.lookup_setMember, if_true, Option.map_some]

theorem ofJson_toJson (unset : Unset) {a : LogAppenderDefine} (h : a.Proper) :
    ofJson unset (a.toJson : Json ν) = some a := by
  have htype : readType (a.toJson : Json ν) ⟨unset.type, .unknown, none, []⟩ =
      some ⟨a.type, .unknown, none, a.file⟩ := by
    unfold readType
    rw [find_toJson a (by decide) (by decide), find_toJson a (by decide) (by decide)]
    rcases h with ⟨htype, hfile⟩ | ⟨htype, -⟩
    · rw [htype, hfile]
      rfl
    · rw [htype]
      rfl
  unfold ofJson readLevel readFormatter
  rw [htype, find_level, find_formatter]
  obtain ⟨type, level, formatter, file⟩ := a
  cases formatter <;> simp [Json.getString]

end LogAppenderDefine

namespace LogDefine

/-- `logDefine_json["appenders"].push_back(appender_json)` -/
def pushAppender (json : List (List Char × Json ν)) (appender : LogAppenderDefine) :
    List (List Char × Json ν) :=
  Json.setMember "appenders".toList
    (((json.lookup "appenders".toList).getD .null).pushBack appender.toJson) json

/-- The members before the appenders. -/
def baseMembers (it : LogDefine) : List (List Char × Json ν) :=
  let json := Json.setMember "name".toList (.string it.name) []
  let json := Json.setMember "level".toList (.string it.level.toText) json
  match it.formatter with
  | some pattern => Json.setMember "formatter".toList (.string pattern) json
  | none => json

def toJson (it : LogDefine) : Json ν := .object (it.appenders.foldl pushAppender it.baseMembers)

def readName (json : Json ν) (ld : LogDefine) : Option LogDefine :=
  match json.find "name".toList with
  | none => some ld
  | some value => do
    let name ← value.getString
    some { ld with name := name }

def readLevel (json : Json ν) (ld : LogDefine) : Option LogDefine :=
  match json.find "level".toList with
  | none => some ld
  | some value => do
    let levelStr ← value.getString
    some { ld with level := LogLevel.fromString levelStr }

def readFormatter (json : Json ν) (ld : LogDefine) : Option LogDefine :=
  match json.find "formatter".toList with
  | none => some ld
  | some value => do
    let pattern ← value.getString
    some { ld with formatter := some pattern }

/-- The loop over the appenders keeps the valid ones. -/
def readAppenders (unset : Unset) (appenderJson : Json ν) : Option (List LogAppenderDefine) :=
  appenderJson.elements.bind fun elements =>
    (elements.mapM (LogAppenderDefine.ofJson unset)).map fun l => l.filter (·.isValid)

/-- One round of the loop over the definitions: `some none` is a `continue` before the insertion. -/
def ofJson (unset : Unset) (json : Json ν) : Option (Option LogDefine) := do
  let ld ← readName json ⟨[], unset.level, none, []⟩
  let ld ← readLevel json ld
  let ld ← readFormatter json ld
  match json.find "appenders".toList with
  | none => some none
  | some appenderJson => do
    let appenders ← readAppenders unset appenderJson
    some (some { ld with appenders := appenders })

/-! ### A definition and its JSON -/

theorem lookup_pushed (appenders : List LogAppenderDefine) {key : List Char}
    (hkey : key ≠ "appenders".toList) (json : List (List Char × Json ν)) :
    (appenders.foldl pushAppender json).lookup key = json.lookup key := by
  induction appenders generalizing json with
  | nil => rfl
  | cons a appenders ih =>
    rw [List.foldl_cons, ih, pushAppender, Json.lookup_setMember, if_neg hkey]

/-- The appenders are pushed to an array, which is made when the first one is pushed. -/
theorem lookup_appenders (appenders : List LogAppenderDefine) (items : List (Json ν))
    (json : List (List Char × Json ν))
    (hjson : json.lookup "appenders".toList = if items = [] then none else some (.array items)) :
    (appenders.foldl pushAppender json).lookup "appenders".toList =
      if items ++ appenders.map LogAppenderDefine.toJson = [] then none
      else some (.array (items ++ appenders.map LogAppenderDefine.toJson)) := by
  induction appenders generalizing json items with
  | nil => simpa using hjson
  | cons a appenders ih =>
    have hpush : ((json.lookup "appenders".toList).getD .null).pushBack a.toJson =
        .array (items ++ [a.toJson]) := by
      rw [hjson]
      split
      · rename_i hnil
        rw [hnil]
        rfl
      · rfl
    have hnext : (pushAppender json a).lookup "appenders".toList =
        if items ++ [a.toJson] = [] then none else some (.array (items ++ [a.toJson])) := by
      rw [pushAppender, Json.lookup_setMember, if_pos rfl, hpush, if_neg (by simp)]
    rw [List.foldl_cons, ih (items ++ [a.toJson]) _ hnext, List.map_cons, List.append_assoc,
      List.singleton_append]

theorem lookup_baseMembers (it : LogDefine) :
    (it.baseMembers : List (List Char × Json ν)).lookup "name".toList = some (.string it.name) ∧
    (it.baseMembers : List (List Char × Json ν)).lookup "level".toList =
      some (.string it.level.toText) ∧
    (it.baseMembers : List (List Char × Json ν)).lookup "formatter".toList =
      it.formatter.map .string ∧
    (it.baseMembers : List (List Char × Json ν)).lookup "appenders".toList = none := by
  obtain ⟨name, level, formatter, appenders⟩ := it
  cases formatter <;> exact ⟨rfl, rfl, rfl, rfl⟩

theorem mapM_ofJson (unset : Unset) {appenders : List LogAppenderDefine}
    (h : ∀ a ∈ appenders, a.Proper) :
    (appenders.map LogAppenderDefine.toJson).mapM
      (LogAppenderDefine.ofJson unset : Json ν → _) = some appenders := by
  induction appenders with
  | nil => rfl
  | cons a appenders ih =>
    obtain ⟨ha, happenders⟩ := List.forall_mem_cons.mp h
    rw [List.map_cons, List.mapM_cons, LogAppenderDefine.ofJson_toJson unset ha, ih happenders]
    rfl

theorem readAppenders_toJson (unset : Unset) {appenders : List LogAppenderDefine}
    (h : ∀ a ∈ appenders, a.Proper) :
    readAppenders unset (.array (appenders.map LogAppenderDefine.toJson) : Json ν) =
      some appenders := by
  unfold readAppenders
  rw [Json.elements_array, Option.bind_some, mapM_ofJson unset h, Option.map_some,
    List.filter_eq_self.mpr fun a ha => decide_eq_true (h a ha).isValid]

/-- A definition without appenders is skipped by the decoder. -/
theorem ofJson_toJson (unset : Unset) {ld : LogDefine} (h : ∀ a ∈ ld.appenders, a.Proper) :
    ofJson unset (ld.toJson : Json ν) = some (if ld.appenders = [] then none else some ld) := by
  obtain ⟨hname, hlevel, hformatter, hnone⟩ := lookup_baseMembers (ν := ν) ld
  have happenders := lookup_appenders ld.appenders [] ld.baseMembers hnone
  simp only [List.nil_append, List.map_eq_nil_iff] at happenders
  unfold ofJson readName readLevel readFormatter toJson
  simp only [Json.find]
  rw [lookup_pushed _ (by decide), lookup_pushed _ (by decide), lookup_pushed _ (by decide), hname,
    hlevel, hformatter, happenders]
  obtain ⟨name, level, formatter, appenders⟩ := ld
  by_cases hnil : appenders = []
  · cases formatter <;> simp [Json.getString, hnil]
  · cases formatter <;> simp [Json.getString, hnil, readAppenders_toJson unset h]

/-- `insert` of a set ordered by the name; an entry that is there stays. -/
def insertInto (ld : LogDefine) : List LogDefine → List LogDefine
  | [] => [ld]
  | x :: xs =>
    if ld.name < x.name then ld :: x :: xs
    else if x.name < ld.name then x :: insertInto ld xs
    else x :: xs

theorem mem_insertInto {ld x : LogDefine} {xs : List LogDefine} (h : x ∈ ld.insertInto xs) :
    x = ld ∨ x ∈ xs := by
  induction xs with
  | nil => exact Or.inl (List.mem_singleton.mp h)
  | cons y ys ih =>
    unfold insertInto at h
    split at h
    · exact List.mem_cons.mp h
    · split at h
      · rcases List.mem_cons.mp h with rfl | h
        · exact Or.inr List.mem_cons_self
        · exact (ih h).imp_right (List.mem_cons_of_mem y)
      · exact Or.inr h

theorem insertInto_sorted (ld : LogDefine) {xs : List LogDefine}
    (h : xs.Pairwise (·.name < ·.name)) : (ld.insertInto xs).Pairwise (·.name < ·.name) := by
  induction xs with
  | nil => exact List.pairwise_singleton _ _
  | cons y ys ih =>
    obtain ⟨hy, hys⟩ := List.pairwise_cons.mp h
    unfold insertInto
    split
    · rename_i hlt
      refine List.pairwise_cons.mpr ⟨fun z hz => ?_, h⟩
      rcases List.mem_cons.mp hz with rfl | hz
      · exact hlt
      · exact List.lt_trans hlt (hy z hz)
    · split
      · rename_i hlt
        refine List.pairwise_cons.mpr ⟨fun z hz => ?_, ih hys⟩
        rcases mem_insertInto hz with rfl | hz
        · exact hlt
        · exact hy z hz
      · exact h

end LogDefine

/-- `std::set<LogDefine>`. -/
structure DefineSet where
  defines : List LogDefine
  sorted : defines.Pairwise (·.name < ·.name)

namespace DefineSet

@[ext] theorem ext {s t : DefineSet} (h : s.defines = t.defines) : s = t := by
  cases s
  cases t
  cases h
  rfl

def empty : DefineSet := ⟨[], List.Pairwise.nil⟩

def insert (s : DefineSet) (ld : LogDefine) : DefineSet :=
  ⟨ld.insertInto s.defines, ld.insertInto_sorted s.sorted⟩

-- `FormatConversion<std::set<LogDefine>, nlohmann::json>`
def toJson (s : DefineSet) : Json ν :=
  s.defines.foldl (fun output it => output.pushBack it.toJson) .null

-- `FormatConversion<nlohmann::json, std::set<LogDefine>>`; `none` is an exception
def ofJson (unset : Unset) (v : Json ν) : Option DefineSet := do
  let elements ← v.elements
  elements.foldlM (fun s json => do
    match ← LogDefine.ofJson unset json with
    | none => some s
    | some ld => some (s.insert ld)) empty

/-! ### The round trip -/

theorem toJson_eq (s : DefineSet) : (s.toJson : Json ν) =
    if s.defines = [] then .null else .array (s.defines.map LogDefine.toJson) := by
  unfold toJson
  cases s.defines with
  | nil => rfl
  | cons ld l =>
    rw [List.foldl_cons, if_neg (List.cons_ne_nil ld l)]
    exact Json.foldl_pushBack LogDefine.toJson l [ld.toJson]

theorem elements_toJson (s : DefineSet) :
    (s.toJson : Json ν).elements = some (s.defines.map LogDefine.toJson) := by
  rw [toJson_eq]
  split
  · rename_i hnil
    rw [hnil]
    rfl
  · exact Json.elements_array _

end DefineSet

theorem LogDefine.insertInto_last {ld : LogDefine} {xs : List LogDefine}
    (h : ∀ x ∈ xs, x.name < ld.name) : ld.insertInto xs = xs ++ [ld] := by
  induction xs with
  | nil => rfl
  | cons y ys ih =>
    obtain ⟨hy, hys⟩ := List.forall_mem_cons.mp h
    unfold insertInto
    rw [if_neg (List.lt_asymm hy), if_pos hy, ih hys, List.cons_append]

namespace DefineSet

/-- Decoding what was encoded in order inserts each definition behind the ones before it. -/
theorem foldlM_ofJson (unset : Unset) (l : List LogDefine) (s : DefineSet)
    (hproper : ∀ ld ∈ l, ∀ a ∈ ld.appenders, a.Proper)
    (hsorted : (s.defines ++ l).Pairwise (·.name < ·.name)) :
    ∃ t, (l.map LogDefine.toJson).foldlM (fun s (json : Json ν) => do
        match ← LogDefine.ofJson unset json with
        | none => some s
        | some ld => some (s.insert ld)) s = some t ∧
      t.defines = s.defines ++ l.filter (·.appenders ≠ []) := by
  induction l generalizing s with
  | nil => exact ⟨s, rfl, by simp⟩
  | cons ld l ih =>
    obtain ⟨hld, hl⟩ := List.forall_mem_cons.mp hproper
    rw [List.map_cons, List.foldlM_cons, LogDefine.ofJson_toJson unset hld]
    by_cases hnil : ld.appenders = []
    · obtain ⟨t, ht, hdefines⟩ := ih s hl (hsorted.sublist (by simp))
      exact ⟨t, by simpa [hnil] using ht, by simpa [hnil] using hdefines⟩
    · have hlast : (s.insert ld).defines = s.defines ++ [ld] :=
        LogDefine.insertInto_last fun x hx =>
          (List.pairwise_append.mp hsorted).2.2 x hx ld List.mem_cons_self
      obtain ⟨t, ht, hdefines⟩ := ih (s.insert ld) hl (by
        rw [hlast, List.append_assoc]
        exact hsorted)
      rw [hlast] at hdefines
      exact ⟨t, by simpa [hnil] using ht, by simpa [hnil] using hdefines⟩

theorem round_trip_iff (unset : Unset) (s : DefineSet)
    (h : ∀ ld ∈ s.defines, ∀ a ∈ ld.appenders, a.Proper) :
    ofJson unset (s.toJson : Json ν) = some s ↔ ∀ ld ∈ s.defines, ld.appenders ≠ [] := by
  obtain ⟨t, ht, hdefines⟩ := foldlM_ofJson (ν := ν) unset s.defines empty h s.sorted
  have hdecode : ofJson unset (s.toJson : Json ν) = some t := by
    unfold ofJson
    rw [elements_toJson]
    exact ht
  rw [hdecode, Option.some.injEq, DefineSet.ext_iff, hdefines]
  simp [empty, List.filter_eq_self]

def single (ld : LogDefine) : DefineSet := ⟨[ld], List.pairwise_singleton _ _⟩

theorem stdout_round_trip :
    ofJson ⟨.fatal, 7⟩ ((single ⟨"root".toList, .info, none,
      [⟨0, .unknown, some "%m%n".toList, []⟩]⟩).toJson : Json ℕ) =
        some (single ⟨"root".toList, .info, none, [⟨0, .unknown, some "%m%n".toList, []⟩]⟩) :=
  (round_trip_iff ⟨.fatal, 7⟩ (single ⟨"root".toList, .info, none,
    [⟨0, .unknown, some "%m%n".toList, []⟩]⟩) (by simp [single, LogAppenderDefine.Proper])).mpr
      (by simp [single])

/-- A logger without appenders is gone. -/
theorem no_appenders_dropped :
    ofJson ⟨.fatal, 7⟩ ((single ⟨"root".toList, .info, none, []⟩).toJson : Json ℕ) = some empty ∧
      empty ≠ single ⟨"root".toList, .info, none, []⟩ := by
  refine ⟨rfl, fun h => ?_⟩
  exact nomatch congrArg DefineSet.defines h

end DefineSet

end MSylar.Basic
