import Mathlib.Data.List.Forall2
import MSylar.Basic.ConfigPath
import MSylar.Lib.Execution

/-!
# Configuration variables (config.h:18-48, 166-218, config.cc:40-60, 132-148)

One `ConfigData` and the variables that listen to it. `A` gives the values of the types that
variables are made for, `convert` is `FormatConversion` from JSON; it may throw. So may the callback
of a variable; it does nothing else to the configuration. The listeners are called in the order of
their keys, which is the order of registration; fewer than `2^31` variables are ever created, so
that no key is negative. `setConfig` is the overload for a temporary, which `LoadJson` calls; the
other one takes its mutex a second time while it holds it.
-/

namespace MSylar.Basic
open MSylar.Execution
variable {ν τ : Type*} {A : τ → Type*}

/-- `cb` tells the values that the callback returns for; without a callback it is nothing. -/
structure ConfigVar (A : τ → Type*) where
  path : List Char
  type : τ
  default : A type
  val : A type
  cb : Option (A type → Bool)

structure ConfigData (ν : Type*) (A : τ → Type*) where
  jsonData : Json ν
  cbs : List (ℤ × ConfigVar A)
  maxListenerId : ℤ

/-- What `file >> json_data` makes of a text. A number that is too large for a double is valid JSON,
and ends in an exception that is no parse error. -/
inductive Parsed (ν : Type*) where
  | json (jsonData : Json ν)
  | parseError
  | outOfRange

namespace ConfigData

def init : ConfigData ν A := ⟨.null, [], 0⟩

variable (convert : ∀ t, Json ν → Option (A t))

/-- The value that the constructor gives a variable; `none` is an exception. -/
def firstValue (jsonData : Json ν) (path : List Char) (type : τ) (default : A type) :
    Option (A type) :=
  match getJsonValueByPath jsonData path with
  | .throws => none
  | .missing => some default
  | .found value => convert type value

/-- The constructor: its first call of the callback and `addListener`. -/
def create (c : ConfigData ν A) (path : List Char) (type : τ) (default : A type)
    (cb : Option (A type → Bool)) : Option (ConfigData ν A) :=
  match firstValue convert c.jsonData path type default with
  | none => none
  | some val =>
    if cb.all (· val) then
      some { c with
        cbs := c.cbs ++ [(c.maxListenerId + 1, ⟨path, type, default, val, cb⟩)]
        maxListenerId := c.maxListenerId + 1 }
    else none

/-- The destructor's `delListener`. -/
def destroy (c : ConfigData ν A) (key : ℤ) : ConfigData ν A :=
  { c with cbs := c.cbs.filter (·.1 ≠ key) }

/-- The listener of a variable; the flag tells that it returned. -/
def listener (newVal : Json ν) (v : ConfigVar A) : Bool × ConfigVar A :=
  match getJsonValueByPath newVal v.path with
  | .throws => (false, v)
  | .missing => (true, v)
  | .found value =>
    match convert v.type value with
    | none => (false, v)
    | some val => (v.cb.all (· val), { v with val := val })

/-- The calls of the listeners, up to the first exception; the flag tells that there was none. -/
def notify (newVal : Json ν) : List (ℤ × ConfigVar A) → Bool × List (ℤ × ConfigVar A)
  | [] => (true, [])
  | (key, v) :: cbs =>
    let called := listener convert newVal v
    if called.1 then
      let rest := notify newVal cbs
      (rest.1, (key, called.2) :: rest.2)
    else (false, (key, called.2) :: cbs)

/-- The result, or `none` for an exception, and the data afterwards. -/
def setConfig (c : ConfigData ν A) (jsonData : Json ν) : Option ℤ × ConfigData ν A :=
  let called := notify convert jsonData c.cbs
  (if called.1 then some 0 else none, { c with jsonData := jsonData, cbs := called.2 })

/-- A file that cannot be opened is `none`; only a parse error is caught. -/
def loadJson (c : ConfigData ν A) (file : Option (Parsed ν)) : Option ℤ × ConfigData ν A :=
  match file with
  | none => (some (-1), c)
  | some .parseError => (some (-1), c)
  | some .outOfRange => (none, c)
  | some (.json jsonData) => setConfig convert c jsonData

/-! ### What the listeners do -/

variable {convert}

/-- A listener entry after its variable has been updated. -/
def update (convert : ∀ t, Json ν → Option (A t)) (newVal : Json ν) (e : ℤ × ConfigVar A) :
    ℤ × ConfigVar A :=
  (e.1, (listener convert newVal e.2).2)

/-- A listener that returns leaves its variable alone, or gives it the value at its path. -/
theorem listener_cases {newVal : Json ν} {v : ConfigVar A}
    (h : (listener convert newVal v).1 = true) :
    (getJsonValueByPath newVal v.path = .missing ∧ (listener convert newVal v).2 = v) ∨
      ∃ value val, getJsonValueByPath newVal v.path = .found value ∧
        convert v.type value = some val ∧ (listener convert newVal v).2 = { v with val := val } := by
  unfold listener at h ⊢
  split at h
  · cases h
  · rename_i hlookup
    exact Or.inl ⟨hlookup, rfl⟩
  · rename_i value hlookup
    split at h
    · cases h
    · rename_i val hval
      exact Or.inr ⟨value, val, hlookup, hval, rfl⟩

theorem notify_eq_true_iff {newVal : Json ν} {cbs : List (ℤ × ConfigVar A)} :
    (notify convert newVal cbs).1 = true ↔
      ∀ e ∈ cbs, (listener convert newVal e.2).1 = true := by
  induction cbs with
  | nil => simp [notify]
  | cons e cbs ih =>
    obtain ⟨key, v⟩ := e
    rw [List.forall_mem_cons, ← ih, notify]
    cases hreturns : (listener convert newVal v).1 with
    | false => simp
    | true => simp

theorem notify_eq {newVal : Json ν} {cbs : List (ℤ × ConfigVar A)}
    (h : ∀ e ∈ cbs, (listener convert newVal e.2).1 = true) :
    notify convert newVal cbs = (true, cbs.map (update convert newVal)) := by
  induction cbs with
  | nil => rfl
  | cons e cbs ih =>
    obtain ⟨key, v⟩ := e
    obtain ⟨hv, hcbs⟩ := List.forall_mem_cons.mp h
    rw [notify, if_pos hv, ih hcbs, List.map_cons, update]

theorem setConfig_ok {c d : ConfigData ν A} {newVal : Json ν}
    (h : setConfig convert c newVal = (some 0, d)) :
    (∀ e ∈ c.cbs, (listener convert newVal e.2).1 = true) ∧
      d = { c with jsonData := newVal, cbs := c.cbs.map (update convert newVal) } := by
  unfold setConfig at h
  obtain ⟨hok, rfl⟩ := Prod.mk.inj h
  have hall : (notify convert newVal c.cbs).1 = true := by
    by_contra hnot
    rw [if_neg hnot] at hok
    cases hok
  have hreturns := notify_eq_true_iff.mp hall
  exact ⟨hreturns, by rw [notify_eq hreturns]⟩

/-! ### The value of a variable -/

/-- The value at the path, converted, or the default without one. -/
def IsCurrent (convert : ∀ t, Json ν → Option (A t)) (jsonData : Json ν) (v : ConfigVar A) : Prop :=
  match getJsonValueByPath jsonData v.path with
  | .throws => False
  | .missing => v.val = v.default
  | .found value => convert v.type value = some v.val

/-- Every variable has the value that the current JSON gives it, so variables with one path, type
and default agree. -/
structure Current (convert : ∀ t, Json ν → Option (A t)) (c : ConfigData ν A) : Prop where
  current : ∀ e ∈ c.cbs, IsCurrent convert c.jsonData e.2
  agree : ∀ e ∈ c.cbs, ∀ f ∈ c.cbs, e.2.path = f.2.path →
    (⟨e.2.type, e.2.default⟩ : Σ t, A t) = ⟨f.2.type, f.2.default⟩ →
    (⟨e.2.type, e.2.val⟩ : Σ t, A t) = ⟨f.2.type, f.2.val⟩

theorem IsCurrent.agree {jsonData : Json ν} {v w : ConfigVar A} (hv : IsCurrent convert jsonData v)
    (hw : IsCurrent convert jsonData w) (hpath : v.path = w.path)
    (hdefault : (⟨v.type, v.default⟩ : Σ t, A t) = ⟨w.type, w.default⟩) :
    (⟨v.type, v.val⟩ : Σ t, A t) = ⟨w.type, w.val⟩ := by
  obtain ⟨path, type, default, val, cb⟩ := v
  obtain ⟨path', type', default', val', cb'⟩ := w
  obtain ⟨rfl, hdefault⟩ := Sigma.mk.inj hdefault
  cases eq_of_heq hdefault
  cases hpath
  unfold IsCurrent at hv hw
  simp only at hv hw ⊢
  split at hv
  · exact hv.elim
  · rename_i hlookup
    rw [hlookup] at hw
    rw [hv, hw]
  · rename_i value hlookup
    rw [hlookup] at hw
    rw [Option.some.inj (hv.symm.trans hw)]

theorem current_of_forall {c : ConfigData ν A}
    (h : ∀ e ∈ c.cbs, IsCurrent convert c.jsonData e.2) : Current convert c :=
  ⟨h, fun e he f hf => (h e he).agree (h f hf)⟩

end ConfigData

inductive ConfigAction (ν : Type*) (A : τ → Type*) where
  | load (jsonData : Json ν)
  | create (path : List Char) (type : τ) (default : A type) (cb : Option (A type → Bool))
  | destroy (key : ℤ)

namespace ConfigData

/-- Only what succeeds is a step. -/
def step (convert : ∀ t, Json ν → Option (A t)) (c : ConfigData ν A) :
    ConfigAction ν A → Option (ConfigData ν A)
  | .load jsonData =>
    match loadJson convert c (some (.json jsonData)) with
    | (some 0, d) => some d
    | _ => none
  | .create path type default cb => create convert c path type default cb
  | .destroy key => some (c.destroy key)

/-- The JSON that is loaded has a value for every variable that has left its default. -/
def guard (c : ConfigData ν A) : ConfigAction ν A → Prop
  | .load jsonData => ∀ e ∈ c.cbs,
      getJsonValueByPath jsonData e.2.path = .missing → e.2.val = e.2.default
  | _ => True

variable {convert : ∀ t, Json ν → Option (A t)} {c d : ConfigData ν A}

theorem step_load {jsonData : Json ν} (h : step convert c (.load jsonData) = some d) :
    (∀ e ∈ c.cbs, (listener convert jsonData e.2).1 = true) ∧
      d = { c with jsonData := jsonData, cbs := c.cbs.map (update convert jsonData) } := by
  simp only [step, loadJson] at h
  split at h
  · rename_i d' hset
    cases h
    exact setConfig_ok hset
  · cases h

/-- A variable is current after its update exactly if it was not left with an old value. -/
theorem update_current_iff {jsonData : Json ν} {e : ℤ × ConfigVar A}
    (h : (listener convert jsonData e.2).1 = true) :
    IsCurrent convert jsonData (update convert jsonData e).2 ↔
      (getJsonValueByPath jsonData e.2.path = .missing → e.2.val = e.2.default) := by
  unfold update
  dsimp only
  obtain ⟨hlookup, hv⟩ | ⟨value, val, hlookup, hval, hv⟩ := listener_cases h
  · rw [hv]
    simp [IsCurrent, hlookup]
  · rw [hv]
    simp [IsCurrent, hlookup, hval]

theorem create_eq_some {path : List Char} {type : τ} {default : A type}
    {cb : Option (A type → Bool)} (h : create convert c path type default cb = some d) :
    ∃ val, firstValue convert c.jsonData path type default = some val ∧ d = { c with
      cbs := c.cbs ++ [(c.maxListenerId + 1, ⟨path, type, default, val, cb⟩)]
      maxListenerId := c.maxListenerId + 1 } := by
  unfold create at h
  split at h
  · cases h
  · rename_i val hval
    split at h
    · exact ⟨val, hval, (Option.some.inj h).symm⟩
    · cases h

theorem create_current {path : List Char} {type : τ} {default : A type}
    {cb : Option (A type → Bool)} (hc : Current convert c)
    (h : create convert c path type default cb = some d) : Current convert d := by
  obtain ⟨val, hval, rfl⟩ := create_eq_some h
  refine current_of_forall fun e he => ?_
  rcases List.mem_append.mp he with he | he
  · exact hc.current e he
  · rw [List.mem_singleton.mp he]
    unfold firstValue at hval
    unfold IsCurrent
    split at hval
    · cases hval
    · rename_i hlookup
      simp [hlookup, Option.some.inj hval]
    · rename_i value hlookup
      simp [hlookup, hval]

theorem step_current {a : ConfigAction ν A} (hc : Current convert c)
    (h : step convert c a = some d) : Current convert d ↔ guard c a := by
  cases a with
  | load jsonData =>
    obtain ⟨hreturns, rfl⟩ := step_load h
    have hiff : ∀ e ∈ c.cbs, IsCurrent convert jsonData (update convert jsonData e).2 ↔
        (getJsonValueByPath jsonData e.2.path = .missing → e.2.val = e.2.default) :=
      fun e he => update_current_iff (hreturns e he)
    constructor
    · intro hd e he
      exact (hiff e he).mp (hd.current _ (List.mem_map_of_mem he))
    · intro hguard
      refine current_of_forall fun e' he' => ?_
      obtain ⟨e, he, rfl⟩ := List.mem_map.mp he'
      exact (hiff e he).mpr (hguard e he)
  | create path type default cb => exact iff_of_true (create_current hc h) trivial
  | destroy key =>
    cases h
    exact iff_of_true (current_of_forall fun e he => hc.current e (List.mem_of_mem_filter he)) trivial

theorem init_current : Current convert (init : ConfigData ν A) :=
  current_of_forall fun _ he => absurd he List.not_mem_nil

theorem always_current_iff (convert : ∀ t, Json ν → Option (A t)) (as : List (ConfigAction ν A))
    (c : ConfigData ν A) (hrun : exec (step convert) init as = some c) :
    (∀ bs, bs <+: as → ∀ d, exec (step convert) init bs = some d → Current convert d) ↔
      Guarded (step convert) guard init as :=
  forall_prefix_iff (fun _ _ _ _ _ => trivial) (fun _ _ _ _ => step_current) trivial
    init_current hrun

/-- Numbers only, converted to natural numbers. -/
def numbers (_ : Unit) : Json ℕ → Option ℕ
  | .number n => some n
  | _ => none

theorem reload_current : ∃ d, exec (step numbers) init [
    .load (.object [(['a'], .number 1)]), .create ['a'] () 0 none,
    .load (.object [(['a'], .number 2)])] = some d ∧ Current numbers d := by
  obtain ⟨d, hd⟩ : ∃ d, exec (step numbers) init [
    .load (.object [(['a'], .number 1)]), .create ['a'] () 0 none,
    .load (.object [(['a'], .number 2)])] = some d := ⟨_, rfl⟩
  refine ⟨d, hd, (always_current_iff numbers _ d hd).mpr ?_ _ (List.prefix_refl _) d hd⟩
  refine ⟨by simp [guard, init], fun c hc => ?_⟩
  cases hc
  refine ⟨trivial, fun c hc => ?_⟩
  cases hc
  refine ⟨fun e he hmissing => ?_, fun _ _ => trivial⟩
  rw [List.mem_singleton.mp he] at hmissing
  exact nomatch (show (.found (.number 2) : Lookup ℕ) = .missing from hmissing)

/-- A variable keeps its value when the key is removed; one created afterwards has the default. -/
theorem removed_key_stays : ∃ d, exec (step numbers) init [
    .load (.object [(['a'], .number 1)]), .create ['a'] () 0 none, .load (.object []),
    .create ['a'] () 0 none] = some d ∧ d.cbs.map (·.2.val) = [1, 0] ∧ ¬Current numbers d := by
  refine ⟨_, rfl, rfl, fun h => ?_⟩
  have hdefault : IsCurrent numbers (.object []) ⟨['a'], (), (0 : ℕ), (1 : ℕ), none⟩ :=
    h.current _ List.mem_cons_self
  exact absurd (show (1 : ℕ) = 0 from hdefault) (by decide)

/-! ### Loading as a whole -/

/-- What a variable becomes when its path resolves, and that it stays otherwise. -/
def Updated (convert : ∀ t, Json ν → Option (A t)) (jsonData : Json ν)
    (e e' : ℤ × ConfigVar A) : Prop :=
  e'.1 = e.1 ∧
    match getJsonValueByPath jsonData e.2.path with
    | .found value => ∃ val, convert e.2.type value = some val ∧ e'.2 = { e.2 with val := val }
    | _ => e'.2 = e.2

/-- `LoadJson` of a text replaces the JSON and updates every variable, or does nothing but
return -1. -/
def Atomic (convert : ∀ t, Json ν → Option (A t)) (c : ConfigData ν A) (text : Parsed ν) : Prop :=
  (∃ jsonData, text = .json jsonData ∧ (loadJson convert c (some text)).1 = some 0 ∧
    (loadJson convert c (some text)).2.jsonData = jsonData ∧
    List.Forall₂ (Updated convert jsonData) c.cbs (loadJson convert c (some text)).2.cbs) ∨
  loadJson convert c (some text) = (some (-1), c)

/-- No number is out of range, every lookup ends without an exception, every value that is found can
be converted, and the callback of its variable returns for it. -/
def Loadable (convert : ∀ t, Json ν → Option (A t)) (c : ConfigData ν A) : Parsed ν → Prop
  | .json jsonData => ∀ e ∈ c.cbs, match getJsonValueByPath jsonData e.2.path with
    | .throws => False
    | .missing => True
    | .found value => ∃ val, convert e.2.type value = some val ∧ e.2.cb.all (· val)
  | .parseError => True
  | .outOfRange => False

theorem listener_returns_iff {jsonData : Json ν} {v : ConfigVar A} :
    (listener convert jsonData v).1 = true ↔ match getJsonValueByPath jsonData v.path with
      | .throws => False
      | .missing => True
      | .found value => ∃ val, convert v.type value = some val ∧ v.cb.all (· val) := by
  unfold listener
  split
  · simp
  · simp
  · split <;> simp [*]

theorem updated_update {jsonData : Json ν} {e : ℤ × ConfigVar A}
    (h : (listener convert jsonData e.2).1 = true) :
    Updated convert jsonData e (update convert jsonData e) := by
  refine ⟨rfl, ?_⟩
  obtain ⟨hlookup, hv⟩ | ⟨value, val, hlookup, hval, hv⟩ := listener_cases h
  · rw [hlookup]
    exact hv
  · rw [hlookup]
    exact ⟨val, hval, hv⟩

theorem loadable_json_iff {jsonData : Json ν} : Loadable convert c (.json jsonData) ↔
    ∀ e ∈ c.cbs, (listener convert jsonData e.2).1 = true :=
  forall₂_congr fun _ _ => listener_returns_iff.symm

theorem load_atomic_iff (convert : ∀ t, Json ν → Option (A t)) (c : ConfigData ν A)
    (text : Parsed ν) : Atomic convert c text ↔ Loadable convert c text := by
  cases text with
  | parseError => exact iff_of_true (Or.inr rfl) trivial
  | outOfRange =>
    refine iff_of_false ?_ id
    rintro (⟨_, _, hok, -⟩ | hfail)
    · cases hok
    · exact nomatch congrArg Prod.fst hfail
  | json jsonData =>
    rw [loadable_json_iff]
    constructor
    · rintro (⟨_, -, hok, -⟩ | hfail)
      · exact (setConfig_ok (Prod.ext hok rfl)).1
      · have hrt := congrArg Prod.fst hfail
        simp only [loadJson, setConfig] at hrt
        split at hrt <;> cases hrt
    · intro hreturns
      have hload : loadJson convert c (some (.json jsonData)) =
          (some 0, { c with jsonData := jsonData, cbs := c.cbs.map (update convert jsonData) }) := by
        simp only [loadJson, setConfig, notify_eq hreturns, if_true]
      left
      rw [hload]
      refine ⟨jsonData, rfl, rfl, rfl, ?_⟩
      rw [List.forall₂_map_right_iff, List.forall₂_same]
      exact fun e he => updated_update (hreturns e he)

theorem not_atomic_of_throws {text : Parsed ν} (h : (loadJson convert c (some text)).1 = none) :
    ¬Atomic convert c text := by
  rintro (⟨_, _, hok, -⟩ | hfail)
  · rw [h] at hok
    cases hok
  · rw [hfail] at h
    cases h

/-- The second value cannot be converted, or the second callback throws for its value: the exception
leaves `LoadJson`, the JSON is the new one and the first variable has its new value. A number that is
out of range ends in an exception before anything is set. -/
theorem bad_value_half_loaded :
    (∃ d : ConfigData ℕ fun _ : Unit => ℕ, exec (step numbers) init
      [.create ['a'] () 0 none, .create ['b'] () 0 none] = some d ∧
      (loadJson numbers d (some (.json (.object [(['a'], .number 1), (['b'], .null)])))).1 = none ∧
      (loadJson numbers d
        (some (.json (.object [(['a'], .number 1), (['b'], .null)])))).2.cbs.map (·.2.val) = [1, 0] ∧
      ¬Atomic numbers d (.json (.object [(['a'], .number 1), (['b'], .null)]))) ∧
    (∃ d : ConfigData ℕ fun _ : Unit => ℕ, exec (step numbers) init
      [.create ['a'] () 0 none, .create ['b'] () 0 (some (· < 5))] = some d ∧
      (loadJson numbers d
        (some (.json (.object [(['a'], .number 1), (['b'], .number 7)])))).2.cbs.map (·.2.val) =
          [1, 7] ∧
      ¬Atomic numbers d (.json (.object [(['a'], .number 1), (['b'], .number 7)]))) ∧
    ¬Atomic numbers init .outOfRange :=
  ⟨⟨_, rfl, rfl, rfl, not_atomic_of_throws rfl⟩, ⟨_, rfl, rfl, not_atomic_of_throws rfl⟩,
    not_atomic_of_throws rfl⟩

end ConfigData

end MSylar.Basic
