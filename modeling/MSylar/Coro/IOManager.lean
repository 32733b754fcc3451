import MSylar.Coro.FdContext
import MSylar.Lib.Double
import MSylar.Lib.Execution
import MSylar.Lib.Word

/-!
# The fd table of the io manager (ioManager.cc:21-352)

`m_fd_events` holds the context of descriptor `fd` at the index `fd`. The index is a `size_t`, so a
negative descriptor is an index near `2^64`. An access out of bounds or through a null pointer ends
the process, as a failed assertion does. Calls come one after the other, so the tasks that a call
puts in the queue of a context are run before it returns.
-/

namespace MSylar.Coro
open MSylar.Word MSylar.Execution
variable {κ : Type*}

/-- The elements of `m_fd_events` are pointers, and `none` is the null pointer. -/
structure IOManager (κ : Type*) where
  eventFd : ℤ
  fdEvents : List (Option (FdContext κ))

/-- An access to `m_fd_events` for `fd`; `entry` is what it has found. -/
structure Access (κ : Type*) where
  fd : ℤ
  index : ℕ
  size : ℕ
  entry : Option (FdContext κ)

/-- A call of `ResizeEvents`. -/
structure Resize (κ : Type*) where
  fd : ℤ
  before : List (Option (FdContext κ))
  after : List (Option (FdContext κ))

def Access.Sound (a : Access κ) : Prop := a.index < a.size ∧ ∃ c, a.entry = some c ∧ c.fd = a.fd

def Resize.Sound (r : Resize κ) : Prop := r.before <+: r.after ∧ r.fd < r.after.length

/-- Contexts for `n` descriptors from `start` on. -/
def contexts (start n : ℕ) : List (Option (FdContext κ)) :=
  (List.range' start n).map fun i : ℕ => some (.new i)

/-- The conversion of an `int` to `size_t`. -/
def index (fd : ℤ) : ℕ := (fd % 2^64).toNat

/-- The literal 1.3 as a double. -/
def onePointThree : Double := ⟨5854679515581645, 52⟩

def onePointFive : Double := ⟨3, 1⟩

/-- `MAX(curr_size * 1.5, fd * 1.3)` as an `int`. -/
def afterSize (currSize fd : ℕ) : ℕ :=
  (((Double.ofNat currSize).mul onePointFive).max ((Double.ofNat fd).mul onePointThree)).toInt

def IOManager.resizeEvents (m : IOManager κ) (fd : ℤ) : IOManager κ :=
  let currSize := int32 m.fdEvents.length
  if fd ≥ currSize then
    let afterSize := afterSize currSize.toNat fd.toNat
    { m with fdEvents := m.fdEvents.take afterSize ++
        contexts currSize.toNat (afterSize - currSize.toNat) }
  else m

/-! ### Calls -/

/-- `polled`: the descriptors that have been added to epoll. `woken`: the handlers that have been
started. `ended`: the process has gone down. -/
structure Process (κ : Type*) where
  manager : IOManager κ
  accesses : List (Access κ)
  resizes : List (Resize κ)
  polled : List ℤ
  woken : List κ
  ended : Bool

namespace Process

/-- A task with `stateSync`, which adds a descriptor to epoll when it has got its first event. -/
def runTask (r : FdContext κ × List κ × List ℤ) (eventFd : ℤ) (task : RegistedTask κ) :
    FdContext κ × List κ × List ℤ :=
  let c := task.run r.1
  let added := r.1.event = Event.none ∧ c.1.event ≠ Event.none ∧ r.1.fd ≠ eventFd
  (c.1, r.2.1 ++ c.2, if added then r.2.2 ++ [r.1.fd] else r.2.2)

/-- `auto sevent = m_fd_events[fd]` and the tasks that are then given to the context. -/
def access (s : Process κ) (fd : ℤ) (tasks : List (RegistedTask κ)) : Process κ :=
  let events := s.manager.fdEvents
  let entry := events[index fd]?.join
  let s := { s with accesses := s.accesses ++ [Access.mk fd (index fd) events.length entry] }
  match entry with
  | none => { s with ended := true }
  | some c =>
    let r := tasks.foldl (fun r task => runTask r s.manager.eventFd task) (c, s.woken, s.polled)
    { s with manager := { s.manager with fdEvents := events.set (index fd) (some r.1) }
             woken := r.2.1, polled := r.2.2 }

def resizeEvents (s : Process κ) (fd : ℤ) : Process κ :=
  let m := s.manager.resizeEvents fd
  { s with manager := m, resizes := s.resizes ++ [Resize.mk fd s.manager.fdEvents m.fdEvents] }

/-- `fd >= m_fd_events.size()`, where both are taken as `size_t`. -/
def outside (s : Process κ) (fd : ℤ) : Prop := s.manager.fdEvents.length ≤ index fd

instance (s : Process κ) (fd : ℤ) : Decidable (s.outside fd) :=
  inferInstanceAs (Decidable (_ ≤ _))

/-- The part that the calls that add an event have in common; `none` is an illegal task or an empty
callback. -/
def register (s : Process κ) (fd : ℤ) (task : Option κ) (tasks : List (RegistedTask κ)) :
    Process κ :=
  if task.isNone then s
  else
    let s := if s.outside fd then s.resizeEvents fd else s
    s.access fd tasks

/-- Both overloads. -/
def addEvent (s : Process κ) (fd : ℤ) (event : Event) (task : Option κ) : Process κ :=
  s.register fd task [.add event task]

/-- The overload for a `TaskCoro20`. -/
def addOnceEvent (s : Process κ) (fd : ℤ) (event : Event) (task : Option κ) : Process κ :=
  s.register fd task [.add event task]

/-- The overload for a function. -/
def addOnceEventFunc (s : Process κ) (fd : ℤ) (event : Event) (cbFunc : Option κ) : Process κ :=
  s.register fd cbFunc [.add event cbFunc, .del event]

/-- Beyond the table it throws. -/
def delEvent (s : Process κ) (fd : ℤ) (event : Event) : Process κ :=
  if s.outside fd then s else s.access fd [.del event]

def closeFd (s : Process κ) (fd : ℤ) : Process κ :=
  if s.outside fd then s else s.access fd [.close Event.none]

def closeWithNoClose (s : Process κ) (fd : ℤ) : Process κ :=
  if s.outside fd then s else s.access fd [.closeNoCloseFd Event.none]

/-- Beyond the table the assertion fails. -/
def cancelEvent (s : Process κ) (fd : ℤ) (event : Event) : Process κ :=
  if s.outside fd then { s with ended := true } else s.access fd [.trigger event, .del event]

def cancelAll (s : Process κ) (fd : ℤ) : Process κ := s.cancelEvent fd (Event.read ||| Event.write)

/-- The constructor. `opened` is the descriptor that `eventfd` gives, or `none` where it or
`epoll_create` fails; `ok` is whether `epoll_ctl` takes it. -/
def init (opened : Option ℕ) (ok : Bool) : Process κ :=
  match opened with
  | none => ⟨⟨-1, []⟩, [], [], [], [], true⟩
  | some eventFd =>
    let s : Process κ := ⟨⟨eventFd, contexts 0 128⟩, [], [], [], [], false⟩
    if ok then s.access eventFd [.add Event.read none] else s

end Process

abbrev Fd := {fd : ℤ // -2^31 ≤ fd ∧ fd < 2^30}

namespace IOManager

/-- `ready`: `idle` hears from epoll of a descriptor. -/
inductive Op (κ : Type*) where
  | addEvent (fd : Fd) (event : Event) (task : Option κ)
  | addOnceEvent (fd : Fd) (event : Event) (task : Option κ)
  | addOnceEventFunc (fd : Fd) (event : Event) (cbFunc : Option κ)
  | delEvent (fd : Fd) (event : Event)
  | closeFd (fd : Fd)
  | closeWithNoClose (fd : Fd)
  | cancelEvent (fd : Fd) (event : Event)
  | cancelAll (fd : Fd)
  | ready (fd : ℤ) (event : Event)

def call (s : Process κ) : Op κ → Process κ
  | .addEvent fd event task => s.addEvent fd event task
  | .addOnceEvent fd event task => s.addOnceEvent fd event task
  | .addOnceEventFunc fd event cbFunc => s.addOnceEventFunc fd event cbFunc
  | .delEvent fd event => s.delEvent fd event
  | .closeFd fd => s.closeFd fd
  | .closeWithNoClose fd => s.closeWithNoClose fd
  | .cancelEvent fd event => s.cancelEvent fd event
  | .cancelAll fd => s.cancelAll fd
  | .ready fd event => s.access fd [.trigger event]

/-- Epoll tells only of descriptors that have been added to it. -/
def possible (s : Process κ) : Op κ → Bool
  | .ready fd _ => fd ∈ s.polled
  | _ => true

def step (s : Process κ) (op : Op κ) : Option (Process κ) :=
  if !s.ended ∧ possible s op then some (call s op) else none

/-! ### Growth -/

theorem index_of_nonneg {fd : ℤ} (h : 0 ≤ fd) (hlt : fd < 2^31) : index fd = fd.toNat := by
  unfold index
  omega

theorem index_of_neg {fd : ℤ} (h : fd < 0) (hlt : -2^31 ≤ fd) : 2^63 ≤ index fd := by
  unfold index
  omega

/-- The size that is computed for a descriptor beyond the table exceeds it and is an `int`. -/
theorem afterSize_gt {currSize fd : ℕ} (hmin : 128 ≤ fd) (hcurr : currSize ≤ fd) (hfd : fd < 2^30) :
    fd < afterSize currSize fd ∧ afterSize currSize fd < 2^31 := by
  constructor
  · refine lt_of_lt_of_le ?_ (Double.toInt_le_max _ _).2
    refine Double.le_toInt_mul ?_
    simp only [Double.ofNat, onePointThree]
    omega
  · refine Double.toInt_max_lt (Double.toInt_mul_lt ?_) (Double.toInt_mul_lt ?_)
    · simp only [Double.ofNat, onePointFive]
      omega
    · simp only [Double.ofNat, onePointThree]
      omega

/-- Every element is the context of its own descriptor. -/
structure Table (events : List (Option (FdContext κ))) : Prop where
  least : 128 ≤ events.length
  bound : events.length < 2^31
  own : ∀ i < events.length, ∃ c, events[i]? = some (some c) ∧ c.fd = i

theorem contexts_length (start n : ℕ) :
    (contexts start n : List (Option (FdContext κ))).length = n := by
  rw [contexts, List.length_map, List.length_range']

/-- Contexts for the next descriptors are put behind a table. -/
theorem table_append {events : List (Option (FdContext κ))} {n : ℕ}
    (h : ∀ i < events.length, ∃ c, events[i]? = some (some c) ∧ c.fd = i)
    (hleast : 128 ≤ events.length + n) (hbound : events.length + n < 2^31) :
    Table (events ++ contexts events.length n) := by
  have hlen : (events ++ contexts events.length n).length = events.length + n := by
    rw [List.length_append, contexts_length]
  refine ⟨hlen ▸ hleast, hlen ▸ hbound, fun i hi => ?_⟩
  rcases Nat.lt_or_ge i events.length with hold | hnew
  · obtain ⟨c, hc, hfd⟩ := h i hold
    exact ⟨c, by rw [List.getElem?_append_left hold, hc], hfd⟩
  · refine ⟨.new i, ?_, rfl⟩
    rw [List.getElem?_append_right hnew, contexts, List.getElem?_map, List.getElem?_range' (by omega)]
    simp only [Option.map_some, Nat.one_mul, Nat.add_sub_cancel' hnew]

theorem init_table : Table (contexts 0 128 : List (Option (FdContext κ))) :=
  @table_append κ [] 128 (fun i hi => absurd hi (Nat.not_lt_zero i)) (by simp) (by simp)

theorem resizeEvents_eq {m : IOManager κ} (h : Table m.fdEvents) {fd : ℤ}
    (hfd : m.fdEvents.length ≤ fd) (hlt : fd < 2^30) :
    ∃ n, (m.resizeEvents fd).fdEvents = m.fdEvents ++ contexts m.fdEvents.length n ∧
      fd < m.fdEvents.length + n ∧ m.fdEvents.length + n < 2^31 := by
  have hleast := h.least
  obtain ⟨hgt, hint⟩ := @afterSize_gt m.fdEvents.length fd.toNat (by omega) (by omega) (by omega)
  refine ⟨afterSize m.fdEvents.length fd.toNat - m.fdEvents.length, ?_, by omega, by omega⟩
  rw [resizeEvents, int32_of_lt h.bound, if_pos hfd]
  simp only [Int.toNat_natCast]
  rw [List.take_of_length_le (by omega)]

/-- Where the descriptor is beyond the table, what is there stays and the new table has it. -/
theorem resizeEvents_spec {m : IOManager κ} (h : Table m.fdEvents) {fd : ℤ}
    (hfd : m.fdEvents.length ≤ fd) (hlt : fd < 2^30) :
    Table (m.resizeEvents fd).fdEvents ∧ m.fdEvents <+: (m.resizeEvents fd).fdEvents ∧
      fd < (m.resizeEvents fd).fdEvents.length := by
  obtain ⟨n, heq, hgt, hint⟩ := resizeEvents_eq h hfd hlt
  have hleast := h.least
  rw [heq]
  refine ⟨table_append h.own (by omega) hint, List.prefix_append _ _, ?_⟩
  rw [List.length_append, contexts_length]
  omega

theorem resizeEvents_within {m : IOManager κ} (h : Table m.fdEvents) {fd : ℤ}
    (hfd : fd < m.fdEvents.length) : m.resizeEvents fd = m := by
  rw [resizeEvents, int32_of_lt h.bound, if_neg (not_le.mpr hfd)]

end IOManager

/-! ### One call -/

namespace Process
open IOManager

def Sound (s : Process κ) : Prop := (∀ a ∈ s.accesses, a.Sound) ∧ ∀ r ∈ s.resizes, r.Sound

structure Live (s : Process κ) : Prop where
  alive : s.ended = false
  table : Table s.manager.fdEvents
  polled : ∀ fd ∈ s.polled, 0 ≤ fd ∧ fd < s.manager.fdEvents.length

theorem runTasks_spec (eventFd : ℤ) (tasks : List (RegistedTask κ))
    (r : FdContext κ × List κ × List ℤ) :
    (tasks.foldl (fun r task => runTask r eventFd task) r).1.fd = r.1.fd ∧
      ∀ fd ∈ (tasks.foldl (fun r task => runTask r eventFd task) r).2.2,
        fd ∈ r.2.2 ∨ fd = r.1.fd := by
  induction tasks generalizing r with
  | nil => exact ⟨rfl, fun fd hfd => .inl hfd⟩
  | cons task tasks ih =>
    obtain ⟨hfd, hpolled⟩ := ih (runTask r eventFd task)
    have hrun : (runTask r eventFd task).1.fd = r.1.fd := task.run_fd r.1
    refine ⟨hfd.trans hrun, fun fd hmem => ?_⟩
    rcases hpolled fd hmem with hold | hnew
    · simp only [runTask] at hold
      split_ifs at hold
      · exact (List.mem_append.mp hold).imp_right List.mem_singleton.mp
      · exact .inl hold
    · exact .inr (hnew.trans hrun)

/-- An access to the element of a descriptor of the table. -/
theorem access_spec {s : Process κ} (h : s.Live) {fd : ℤ} (tasks : List (RegistedTask κ))
    (hfd : 0 ≤ fd ∧ fd < s.manager.fdEvents.length) :
    (s.access fd tasks).Live ∧ ((s.access fd tasks).Sound ↔ s.Sound) := by
  have hbound := h.table.bound
  have hindex : index fd = fd.toNat := index_of_nonneg hfd.1 (by omega)
  obtain ⟨c, hc, hown⟩ := h.table.own fd.toNat (by omega)
  have hcfd : c.fd = fd := by omega
  have hentry : s.manager.fdEvents[fd.toNat]?.join = some c := by rw [hc, Option.join_some]
  obtain ⟨hrun, hpolled⟩ := runTasks_spec s.manager.eventFd tasks (c, s.woken, s.polled)
  simp only [access, hindex, hentry]
  refine ⟨⟨h.alive, ⟨?_, ?_, ?_⟩, ?_⟩, ?_⟩
  · rw [List.length_set]
    exact h.table.least
  · rw [List.length_set]
    exact hbound
  · intro i hi
    rw [List.length_set] at hi
    by_cases hsame : fd.toNat = i
    · subst hsame
      refine ⟨_, List.getElem?_set_self hi, hrun.trans hown⟩
    · obtain ⟨d, hd, hdfd⟩ := h.table.own i hi
      exact ⟨d, by rw [List.getElem?_set_ne hsame, hd], hdfd⟩
  · intro g hg
    rw [List.length_set]
    rcases hpolled g hg with hold | hnew
    · exact h.polled g hold
    · rw [hnew]
      dsimp only
      rw [hcfd]
      exact hfd
  · have hsound : (Access.mk fd fd.toNat s.manager.fdEvents.length (some c)).Sound :=
      ⟨by dsimp only; omega, c, rfl, hcfd⟩
    simp only [Sound, List.mem_append, List.mem_singleton, or_imp, forall_and, forall_eq, hsound,
      and_true]

/-- An access out of bounds. -/
theorem access_lost {s : Process κ} {fd : ℤ} (tasks : List (RegistedTask κ)) (hout : s.outside fd) :
    (s.access fd tasks).ended = true ∧ ¬ (s.access fd tasks).Sound := by
  have hentry : s.manager.fdEvents[index fd]?.join = none := by
    rw [List.getElem?_eq_none hout]
    rfl
  simp only [access, hentry]
  refine ⟨trivial, fun hs => ?_⟩
  have hin := (hs.1 _ (List.mem_append_right _ (List.mem_singleton_self _))).1
  exact absurd hout (not_le.mpr hin)

/-- For a descriptor of an `int`, the comparison is with the length if it is not negative. -/
theorem outside_iff {s : Process κ} (h : s.Live) {fd : ℤ} (hfd : -2^31 ≤ fd ∧ fd < 2^30) :
    s.outside fd ↔ fd < 0 ∨ s.manager.fdEvents.length ≤ fd := by
  have hbound := h.table.bound
  rw [outside]
  rcases lt_or_ge fd 0 with hneg | hpos
  · have hindex := index_of_neg hneg hfd.1
    exact iff_of_true (by omega) (.inl hneg)
  · rw [index_of_nonneg hpos (by omega)]
    omega

theorem resizeEvents_live {s : Process κ} (h : s.Live) {fd : ℤ} (hfd : -2^31 ≤ fd ∧ fd < 2^30) :
    (s.resizeEvents fd).Live ∧ ((s.resizeEvents fd).Sound ↔ s.Sound) ∧
      fd < (s.resizeEvents fd).manager.fdEvents.length := by
  have hspec : Table (s.manager.resizeEvents fd).fdEvents ∧
      s.manager.fdEvents <+: (s.manager.resizeEvents fd).fdEvents ∧
      fd < (s.manager.resizeEvents fd).fdEvents.length := by
    rcases lt_or_ge fd s.manager.fdEvents.length with hin | hout
    · rw [resizeEvents_within h.table hin]
      exact ⟨h.table, List.prefix_rfl, hin⟩
    · exact resizeEvents_spec h.table hout hfd.2
  obtain ⟨htable, hkept, hlt⟩ := hspec
  refine ⟨⟨h.alive, htable, fun g hg => ?_⟩, ?_, hlt⟩
  · have hold := h.polled g hg
    have hlen := hkept.length_le
    exact ⟨hold.1, hold.2.trans_le (by exact_mod_cast hlen)⟩
  · have hsound : (Resize.mk fd s.manager.fdEvents (s.manager.resizeEvents fd).fdEvents).Sound :=
      ⟨hkept, hlt⟩
    simp only [Sound, resizeEvents, List.mem_append, List.mem_singleton, or_imp, forall_and,
      forall_eq, hsound, and_true]

/-- The table that the calls that add an event access. -/
theorem grown_spec {s : Process κ} (h : s.Live) {fd : ℤ} (hfd : -2^31 ≤ fd ∧ fd < 2^30) :
    (if s.outside fd then s.resizeEvents fd else s).Live ∧
      ((if s.outside fd then s.resizeEvents fd else s).Sound ↔ s.Sound) ∧
      (0 ≤ fd → fd < (if s.outside fd then s.resizeEvents fd else s).manager.fdEvents.length) := by
  split_ifs with hout
  · obtain ⟨hlive, hsound, hlt⟩ := resizeEvents_live h hfd
    exact ⟨hlive, hsound, fun _ => hlt⟩
  · rw [outside_iff h hfd, not_or, not_lt, not_le] at hout
    exact ⟨h, Iff.rfl, fun _ => hout.2⟩

/-- The calls that add an event. -/
theorem register_spec {s : Process κ} (h : s.Live) {fd : ℤ} (hfd : -2^31 ≤ fd ∧ fd < 2^30)
    (task : Option κ) (tasks : List (RegistedTask κ)) :
    ((s.register fd task tasks).ended = false → (s.register fd task tasks).Live) ∧
      ((s.register fd task tasks).Sound ↔ s.Sound ∧ (task.isSome → 0 ≤ fd)) := by
  cases task with
  | none =>
    simp only [register, Option.isNone_none, if_true, Option.isSome_none, Bool.false_eq_true,
      false_implies, and_true]
    exact fun _ => h
  | some k =>
    simp only [register, Option.isNone_some, Bool.false_eq_true, if_false, Option.isSome_some,
      true_implies]
    obtain ⟨hlive, hsound, hlt⟩ := grown_spec h hfd
    rcases lt_or_ge fd 0 with hneg | hpos
    · obtain ⟨hended, hnot⟩ := access_lost tasks ((outside_iff hlive hfd).mpr (.inl hneg))
      refine ⟨fun halive => ?_, iff_of_false hnot fun hs => absurd hs.2 (not_le.mpr hneg)⟩
      rw [hended] at halive
      cases halive
    · obtain ⟨halive, hiff⟩ := access_spec hlive tasks ⟨hpos, hlt hpos⟩
      exact ⟨fun _ => halive, by rw [hiff, hsound, and_iff_left hpos]⟩

/-- The calls that do nothing, throw or fail beyond the table. -/
theorem within_spec {s : Process κ} (h : s.Live) {fd : ℤ} (hfd : -2^31 ≤ fd ∧ fd < 2^30)
    (hin : ¬ s.outside fd) (tasks : List (RegistedTask κ)) :
    (s.access fd tasks).Live ∧ ((s.access fd tasks).Sound ↔ s.Sound) := by
  rw [outside_iff h hfd, not_or, not_lt, not_le] at hin
  exact access_spec h tasks hin

end Process

namespace IOManager
open Process

/-- No event is added for a negative descriptor. -/
def fits : Op κ → Prop
  | .addEvent fd _ task => task.isSome → 0 ≤ fd.1
  | .addOnceEvent fd _ task => task.isSome → 0 ≤ fd.1
  | .addOnceEventFunc fd _ cbFunc => cbFunc.isSome → 0 ≤ fd.1
  | _ => True

theorem call_spec {s : Process κ} (h : s.Live) {op : Op κ} (hpossible : possible s op = true) :
    ((call s op).ended = false → (call s op).Live) ∧ ((call s op).Sound ↔ s.Sound ∧ fits op) := by
  have hwithin : ∀ (fd : Fd) (tasks : List (RegistedTask κ)) (beyond : Process κ),
      (beyond.ended = false → beyond.Live) → (beyond.Sound ↔ s.Sound) →
      ((if s.outside fd then beyond else s.access fd tasks).ended = false →
        (if s.outside fd then beyond else s.access fd tasks).Live) ∧
      ((if s.outside fd then beyond else s.access fd tasks).Sound ↔ s.Sound ∧ True) := by
    intro fd tasks beyond hb hbs
    rw [and_true]
    split_ifs with hout
    · exact ⟨hb, hbs⟩
    · obtain ⟨hlive, hsound⟩ := within_spec h fd.2 hout tasks
      exact ⟨fun _ => hlive, hsound⟩
  cases op with
  | addEvent fd event task => exact register_spec h fd.2 task _
  | addOnceEvent fd event task => exact register_spec h fd.2 task _
  | addOnceEventFunc fd event cbFunc => exact register_spec h fd.2 cbFunc _
  | delEvent fd event => exact hwithin fd _ s (fun _ => h) Iff.rfl
  | closeFd fd => exact hwithin fd _ s (fun _ => h) Iff.rfl
  | closeWithNoClose fd => exact hwithin fd _ s (fun _ => h) Iff.rfl
  | cancelEvent fd event => exact hwithin fd _ _ nofun Iff.rfl
  | cancelAll fd => exact hwithin fd _ _ nofun Iff.rfl
  | ready fd event =>
    have hmem : fd ∈ s.polled := of_decide_eq_true hpossible
    obtain ⟨hlive, hsound⟩ := access_spec h [.trigger event] (h.polled fd hmem)
    exact ⟨fun _ => hlive, hsound.trans (and_iff_left trivial).symm⟩

theorem step_eq {s s' : Process κ} {op : Op κ} (hs : step s op = some s') :
    s.ended = false ∧ possible s op = true ∧ s' = call s op := by
  rw [step, Option.ite_none_right_eq_some] at hs
  obtain ⟨⟨halive, hpossible⟩, hs⟩ := hs
  cases hs
  exact ⟨by simpa using halive, hpossible, rfl⟩

theorem step_live {s s' : Process κ} {op : Op κ} (h : s.ended = false → s.Live)
    (hs : step s op = some s') (halive' : s'.ended = false) : s'.Live := by
  obtain ⟨halive, hpossible, rfl⟩ := step_eq hs
  exact (call_spec (h halive) hpossible).1 halive'

/-- The constructor finds its own descriptor only in a table of 128. -/
theorem init_spec {opened : Option ℕ} (hopened : ∀ n ∈ opened, n < 2^31) (ok : Bool) :
    ((init opened ok : Process κ).ended = false → (init opened ok : Process κ).Live) ∧
      ((init opened ok : Process κ).Sound ↔ ∀ n ∈ opened, ok = true → n < 128) := by
  have hempty : ∀ (m : IOManager κ) (ended : Bool), (Process.mk m [] [] [] [] ended).Sound :=
    fun m ended => ⟨nofun, nofun⟩
  cases opened with
  | none => exact ⟨nofun, iff_of_true (hempty _ _) nofun⟩
  | some n =>
    have hlt := hopened n rfl
    have hlive : (Process.mk ⟨n, contexts 0 128⟩ [] [] [] [] false : Process κ).Live :=
      ⟨rfl, init_table, nofun⟩
    simp only [Option.mem_def, Option.some.injEq, forall_eq']
    cases ok with
    | false => exact ⟨fun _ => hlive, iff_of_true (hempty _ _) nofun⟩
    | true =>
      simp only [init, if_true, true_implies]
      have hlen : (contexts 0 128 : List (Option (FdContext κ))).length = 128 :=
        contexts_length 0 128
      rcases Nat.lt_or_ge n 128 with hin | hout
      · have hfd : 0 ≤ (n : ℤ) ∧
            (n : ℤ) < (contexts 0 128 : List (Option (FdContext κ))).length := by
          rw [hlen]
          omega
        obtain ⟨haccess, hsound⟩ := access_spec hlive [.add Event.read none] hfd
        exact ⟨fun _ => haccess, hsound.trans (iff_of_true (hempty _ _) hin)⟩
      · have hbeyond : (Process.mk ⟨n, contexts 0 128⟩ [] [] [] [] false : Process κ).outside n := by
          rw [outside, hlen, index_of_nonneg (Int.natCast_nonneg n) (by omega)]
          omega
        obtain ⟨hended, hnot⟩ := access_lost [.add Event.read none] hbeyond
        refine ⟨fun halive => ?_, iff_of_false hnot (not_lt.mpr hout)⟩
        rw [hended] at halive
        cases halive

theorem reachable_live {opened : Option ℕ} (hopened : ∀ n ∈ opened, n < 2^31) {ok : Bool}
    {s : Process κ} (h : Reachable step (init opened ok) s) (halive : s.ended = false) : s.Live :=
  reachable_invariant (init_spec hopened ok).1 (fun _ _ _ hr hs => step_live hr hs) h halive

/-- Every access is in bounds and finds the context of its descriptor, and the table grows as it is
to, exactly if the descriptor of the constructor is below 128 and no event is added for a negative
one. -/
theorem accesses_sound_iff {opened : Option ℕ} (hopened : ∀ n ∈ opened, n < 2^31) (ok : Bool)
    {ops : List (Op κ)} {s : Process κ} (h : exec step (init opened ok) ops = some s) :
    s.Sound ↔ (∀ n ∈ opened, ok = true → n < 128) ∧ ∀ op ∈ ops, fits op := by
  obtain ⟨hlive, hsound⟩ := @init_spec κ opened hopened ok
  have hbad : ∀ (r : Process κ) (op : Op κ) (r' : Process κ), (r.ended = false → r.Live) →
      step r op = some r' → (¬ r'.Sound ↔ ¬ r.Sound ∨ ¬ fits op) := by
    intro r op r' hr hs
    obtain ⟨halive, hpossible, rfl⟩ := step_eq hs
    rw [(call_spec (hr halive) hpossible).2, not_and_or]
  rw [← guarded_forall h, ← hsound, ← not_iff_not, not_and_or]
  exact exec_bad_iff (fun _ _ _ hr hs => step_live hr hs) hbad hlive h

/-- The table grows for descriptor 200. -/
def growing : List (Op Unit) :=
  [.addEvent ⟨200, by decide⟩ Event.read (some ()), .delEvent ⟨200, by decide⟩ Event.read]

set_option maxRecDepth 8000 in
theorem growing_accesses_sound : ∃ s, exec step (init (some 5) true) growing = some s ∧
    s.manager.fdEvents.length = 260 ∧ s.Sound := by
  refine ⟨_, rfl, rfl, (@accesses_sound_iff Unit (some 5) (fun n hn => ?_) true growing _ rfl).mpr
    ⟨fun n hn _ => ?_, fun op hop => ?_⟩⟩
  · cases hn
    decide
  · cases hn
    decide
  · rcases List.mem_pair.mp hop with rfl | rfl
    · exact fun _ => by decide
    · trivial

/-- The constructor looks for its descriptor 128 in a table of 128, and the descriptor -1 of a failed
call is looked for at `2^64 - 1`. -/
theorem accesses_out_of_bounds : ¬ (init (some 128) true : Process Unit).Sound ∧
    ∃ s, exec step (init (some 5) true) [.addEvent ⟨-1, by decide⟩ Event.read (some ())] = some s ∧
      ¬ s.Sound := by
  constructor
  · intro hs
    have hspec := @init_spec Unit (some 128) (fun n hn => by cases hn; decide) true
    exact absurd (hspec.2.mp hs 128 rfl rfl) (by decide)
  · have hlive := (@init_spec Unit (some 5) (fun n hn => by cases hn; decide) true).1 rfl
    refine ⟨_, rfl, fun hs => ?_⟩
    have hfits := ((call_spec hlive rfl).2.mp hs).2
    exact absurd (hfits rfl) (by decide)

end IOManager
end MSylar.Coro
