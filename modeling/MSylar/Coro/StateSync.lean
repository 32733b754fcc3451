import Mathlib.Data.Int.Notation
import Mathlib.Logic.Function.Basic
import MSylar.Coro.FdContext
import MSylar.Lib.Execution

/-!
# The epoll interest set (ioManager.cc:39-60, 213-254, fdContext.cc:198-284, hook.cc:453-474)

A task executed on a descriptor changes its context and then calls `stateSync`, which issues one
`epoll_ctl` where the events have changed. Handlers that a task triggers only enqueue further
tasks, and descriptors are closed by `CLOSE_TASK` alone. `epoll_ctl` follows its manual page, in
the order in which the kernel makes its checks; an entry of the interest set is the mask of the
last call that succeeded. No descriptor is a duplicate of another one.
-/

namespace MSylar.Coro.StateSync
open MSylar.Execution
variable {κ : Type*}

def epollet : BitVec 32 := 0x80000000

def epollexclusive : BitVec 32 := 0x10000000

/-- The events that may be given with `EPOLLEXCLUSIVE`: IN, OUT, ERR, HUP, WAKEUP and ET. -/
def exclusiveEvents : BitVec 32 := 0xB000001D

inductive CtlOp where
  | add
  | del
  | mod
  deriving DecidableEq

inductive Errno where
  | badf
  | perm
  | inval
  | loop
  | exist
  | nospc
  | noent
  deriving DecidableEq

/-- `loops`: to monitor this epoll instance would close a circle of instances or nest them too
deep. -/
inductive FileKind where
  | unpollable
  | pollable
  | epoll (loops : Bool)
  deriving DecidableEq

def FileKind.isEpoll : FileKind → Bool
  | .epoll _ => true
  | _ => false

/-- What the open descriptors refer to, the interest set of the manager's epoll instance, and
whether memory and the limit on watches leave room for one more. -/
structure Kernel where
  files : ℤ → Option FileKind
  interest : ℤ → Option (BitVec 32)
  room : Bool

def exclusive (events : BitVec 32) : Bool := events &&& epollexclusive ≠ 0

namespace Kernel

def register (k : Kernel) (fd : ℤ) (events : Option (BitVec 32)) : Kernel :=
  { k with interest := Function.update k.interest fd events }

/-- `EPOLL_CTL_ADD` of an open file that supports epoll. -/
def ctlAdd (k : Kernel) (fd : ℤ) (file : FileKind) (events : BitVec 32) : Except Errno Kernel :=
  if exclusive events ∧ (file.isEpoll ∨ events &&& ~~~exclusiveEvents ≠ 0) then .error .inval
  else if file = .epoll true then .error .loop
  else if k.interest fd ≠ none then .error .exist
  else if k.room then .ok (k.register fd (some events))
  else .error .nospc

def ctlMod (k : Kernel) (fd : ℤ) (events : BitVec 32) : Except Errno Kernel :=
  if exclusive events then .error .inval
  else
    match k.interest fd with
    | none => .error .noent
    | some registered =>
      if exclusive registered then .error .inval else .ok (k.register fd (some events))

def ctlDel (k : Kernel) (fd : ℤ) : Except Errno Kernel :=
  match k.interest fd with
  | none => .error .noent
  | some _ => .ok (k.register fd none)

def epollCtl (k : Kernel) (epfd : ℤ) (op : CtlOp) (fd : ℤ) (events : BitVec 32) :
    Except Errno Kernel :=
  match k.files epfd, k.files fd with
  | none, _ | _, none => .error .badf
  | some epoll, some file =>
    if file = .unpollable then .error .perm
    else if ¬epoll.isEpoll ∨ fd = epfd then .error .inval
    else
      match op with
      | .add => k.ctlAdd fd file events
      | .mod => k.ctlMod fd events
      | .del => k.ctlDel fd

/-- A closed descriptor leaves the interest set; a closed epoll instance has none. -/
def close (k : Kernel) (epfd fd : ℤ) : Kernel :=
  { k with
    files := Function.update k.files fd none
    interest := if fd = epfd then fun _ => none else Function.update k.interest fd none }

def opened (k : Kernel) (fd : ℤ) (file : FileKind) : Kernel :=
  { k with files := Function.update k.files fd (some file) }

/-- The operation is meant for a descriptor with this registration. -/
def Accepts (k : Kernel) (fd : ℤ) : CtlOp → Prop
  | .add => k.interest fd = none
  | .mod | .del => k.interest fd ≠ none

/-- The manual page lets a descriptor that is not in the interest set into it. -/
def Registrable (k : Kernel) (epfd fd : ℤ) (events : BitVec 32) : Prop :=
  fd ≠ epfd ∧ k.room ∧
    (k.files fd = some .pollable ∧ (exclusive events → events &&& ~~~exclusiveEvents = 0) ∨
      k.files fd = some (.epoll false) ∧ ¬exclusive events)

instance (k : Kernel) (epfd fd : ℤ) (events : BitVec 32) :
    Decidable (k.Registrable epfd fd events) :=
  inferInstanceAs (Decidable (_ ∧ _ ∧ (_ ∧ (_ → _) ∨ _ ∧ _)))

/-- A first event comes to a descriptor that can be registered. Events that replace others are
neither exclusive nor replace exclusive ones, unless the mask stays the same. -/
def Fits (k : Kernel) (epfd fd : ℤ) (origin event : Event) : Prop :=
  (origin = Event.none → event ≠ Event.none → k.Registrable epfd fd (event ||| epollet)) ∧
  (origin ≠ Event.none → event ≠ Event.none → event ||| epollet = origin ||| epollet ∨
    ¬exclusive (event ||| epollet) ∧ ¬exclusive (origin ||| epollet))

instance (k : Kernel) (epfd fd : ℤ) (origin event : Event) :
    Decidable (k.Fits epfd fd origin event) :=
  inferInstanceAs (Decidable ((_ → _ → _) ∧ (_ → _ → _ ∨ _ ∧ _)))

end Kernel

structure IOManager (κ : Type*) where
  epollFd : ℤ
  eventFd : ℤ
  fdEvents : ℤ → FdContext κ
  kernel : Kernel

namespace IOManager

/-- The operation that `stateSync` issues. -/
def syncOp (m : IOManager κ) (ctx : FdContext κ) (origin : Event) : Option CtlOp :=
  if ctx.event = origin ∨ ctx.fd = m.eventFd then none
  else if ctx.event = Event.none ∧ origin ≠ Event.none then some .del
  else if origin = Event.none ∧ ctx.event ≠ Event.none then some .add
  else some .mod

-- An error of `epoll_ctl` is logged and nothing else.
def stateSync (m : IOManager κ) (ctx : FdContext κ) (origin : Event) : IOManager κ :=
  match m.syncOp ctx origin with
  | none => m
  | some op =>
    match m.kernel.epollCtl m.epollFd op ctx.fd (ctx.event ||| epollet) with
    | .ok kernel => { m with kernel := kernel }
    | .error _ => m

end IOManager

-- `co_close`; without `CLOSE_TASK_NOCLOSEFD` it ends in `close`.
def closesFd : RegistedTask κ → Bool
  | .close _ => true
  | _ => false

def closeAfter (kernel : Kernel) (epfd fd : ℤ) (task : RegistedTask κ) : Kernel :=
  if closesFd task then kernel.close epfd fd else kernel

namespace IOManager

/-- The events of a descriptor after `task`. -/
def eventAfter (m : IOManager κ) (fd : ℤ) (task : RegistedTask κ) : Event :=
  (task.run (m.fdEvents fd)).1.event

/-- The operation issued while `task` is executed on `fd`. -/
def issued (m : IOManager κ) (fd : ℤ) (task : RegistedTask κ) : Option CtlOp :=
  m.syncOp (task.run (m.fdEvents fd)).1 (m.fdEvents fd).event

def execute (m : IOManager κ) (fd : ℤ) (task : RegistedTask κ) : IOManager κ :=
  let ctx := (task.run (m.fdEvents fd)).1
  let synced := stateSync { m with fdEvents := Function.update m.fdEvents fd ctx } ctx
    (m.fdEvents fd).event
  { synced with kernel := closeAfter synced.kernel m.epollFd fd task }

/-- The constructor registers the eventfd by itself. -/
def init (epollFd eventFd : ℤ) (files : ℤ → Option FileKind) (room : Bool) : IOManager κ where
  epollFd := epollFd
  eventFd := eventFd
  fdEvents := Function.update FdContext.new eventFd ((FdContext.new eventFd).addEvent Event.read none)
  kernel := ⟨Function.update (Function.update files epollFd (some (.epoll true))) eventFd
      (some .pollable),
    Function.update (fun _ => none) eventFd (some (Event.read ||| epollet)), room⟩

end IOManager

/-- `opened`: a call such as `socket` or `accept` returns `fd`. `nested`: an epoll instance is
registered in another one, or no longer. `room`: watches become scarce, or are free again. -/
inductive Action (κ : Type*) where
  | run (fd : ℤ) (task : RegistedTask κ)
  | opened (fd : ℤ) (file : FileKind)
  | nested (fd : ℤ) (loops : Bool)
  | room (room : Bool)

namespace IOManager

def step (m : IOManager κ) : Action κ → Option (IOManager κ)
  | .run fd task => some (m.execute fd task)
  | .opened fd file =>
    if m.kernel.files fd = none then some { m with kernel := m.kernel.opened fd file } else none
  | .nested fd loops =>
    match m.kernel.files fd with
    | some (.epoll _) => some { m with kernel := m.kernel.opened fd (.epoll loops) }
    | _ => none
  | .room room => some { m with kernel := { m.kernel with room := room } }

def Legal (m : IOManager κ) : Action κ → Prop
  | .run fd _ => fd ≠ m.eventFd
  | _ => True

instance (m : IOManager κ) : (a : Action κ) → Decidable (m.Legal a)
  | .run fd _ => inferInstanceAs (Decidable (fd ≠ m.eventFd))
  | .opened _ _ | .nested _ _ | .room _ => isTrue trivial

/-- What the kernel should hold for the events of a context. -/
def registration (event : Event) : Option (BitVec 32) :=
  if event = Event.none then none else some (event ||| epollet)

def Mirrors (m : IOManager κ) : Prop :=
  ∀ fd, m.kernel.interest fd = registration (m.fdEvents fd).event

/-- The task issues no operation that the registration of `fd` does not allow, and afterwards the
interest set mirrors the contexts. -/
def Synced (m : IOManager κ) : Action κ → Prop
  | .run fd task => (∀ op ∈ m.issued fd task, m.kernel.Accepts fd op) ∧ (m.execute fd task).Mirrors
  | _ => True

/-- The epoll instance is not closed, and the kernel takes the events that the task leads to. -/
def Admitted (m : IOManager κ) : Action κ → Prop
  | .run fd task => (closesFd task → fd ≠ m.epollFd) ∧
      m.kernel.Fits m.epollFd fd (m.fdEvents fd).event (m.eventAfter fd task)
  | _ => True

instance (m : IOManager κ) : (a : Action κ) → Decidable (m.Admitted a)
  | .run fd task => inferInstanceAs (Decidable ((closesFd task → fd ≠ m.epollFd) ∧
      m.kernel.Fits m.epollFd fd (m.fdEvents fd).event (m.eventAfter fd task)))
  | .opened _ _ | .nested _ _ | .room _ => isTrue trivial

end IOManager

/-! ### The kernel -/

namespace Kernel
variable {k : Kernel} {epfd fd : ℤ}

/-- The epoll instance is open, and what is registered is an open descriptor of a kind that it
takes. -/
structure Sound (k : Kernel) (epfd : ℤ) : Prop where
  epoll : ∃ loops, k.files epfd = some (.epoll loops)
  polled : ∀ fd, k.interest fd ≠ none →
    fd ≠ epfd ∧ ∃ file, k.files fd = some file ∧ file ≠ .unpollable

theorem Sound.epollCtl_eq (h : k.Sound epfd) {file : FileKind} (op : CtlOp) (events : BitVec 32)
    (hfile : k.files fd = some file) (hpoll : file ≠ .unpollable) (hfd : fd ≠ epfd) :
    k.epollCtl epfd op fd events = match op with
      | .add => k.ctlAdd fd file events
      | .mod => k.ctlMod fd events
      | .del => k.ctlDel fd := by
  obtain ⟨loops, hepoll⟩ := h.epoll
  have hgood : ¬(¬(FileKind.epoll loops).isEpoll ∨ fd = epfd) := by simp [FileKind.isEpoll, hfd]
  unfold epollCtl
  rw [hepoll, hfile]
  dsimp only
  rw [if_neg hpoll, if_neg hgood]

theorem Sound.add_cases (h : k.Sound epfd) (events : BitVec 32) (hin : k.interest fd = none) :
    (k.Registrable epfd fd events ∧
      k.epollCtl epfd .add fd events = .ok (k.register fd (some events))) ∨
    (¬k.Registrable epfd fd events ∧ ∃ e, k.epollCtl epfd .add fd events = .error e) := by
  obtain ⟨loops, hepoll⟩ := h.epoll
  by_cases hfd : fd = epfd
  · subst hfd
    refine .inr ⟨fun hreg => hreg.1 rfl, .inval, ?_⟩
    simp [epollCtl, hepoll]
  cases hfile : k.files fd with
  | none =>
    refine .inr ⟨fun hreg => ?_, .badf, ?_⟩
    · simp [Registrable, hfile] at hreg
    · simp [epollCtl, hepoll, hfile]
  | some file =>
    by_cases hpoll : file = .unpollable
    · subst hpoll
      refine .inr ⟨fun hreg => ?_, .perm, ?_⟩
      · simp [Registrable, hfile] at hreg
      · simp [epollCtl, hepoll, hfile]
    rw [h.epollCtl_eq .add events hfile hpoll hfd]
    dsimp only
    unfold ctlAdd Registrable
    rw [hin, hfile]
    cases file with
    | unpollable => exact absurd rfl hpoll
    | pollable =>
      by_cases hex : exclusive events <;> by_cases hok : events &&& ~~~exclusiveEvents = 0#32 <;>
        cases hroom : k.room <;> simp [FileKind.isEpoll, hfd, hex, hok]
    | epoll loops =>
      by_cases hex : exclusive events <;> cases loops <;>
        cases hroom : k.room <;> simp [FileKind.isEpoll, hfd, hex]

theorem Sound.mod_eq (h : k.Sound epfd) (events : BitVec 32) {registered : BitVec 32}
    (hin : k.interest fd = some registered) : k.epollCtl epfd .mod fd events =
      if exclusive events ∨ exclusive registered then .error .inval
      else .ok (k.register fd (some events)) := by
  obtain ⟨hfd, file, hfile, hpoll⟩ := h.polled fd (by simp [hin])
  rw [h.epollCtl_eq .mod events hfile hpoll hfd]
  dsimp only
  unfold ctlMod
  rw [hin]
  by_cases hex : exclusive events <;> simp [hex]

theorem Sound.del_eq (h : k.Sound epfd) (events : BitVec 32) {registered : BitVec 32}
    (hin : k.interest fd = some registered) :
    k.epollCtl epfd .del fd events = .ok (k.register fd none) := by
  obtain ⟨hfd, file, hfile, hpoll⟩ := h.polled fd (by simp [hin])
  rw [h.epollCtl_eq .del events hfile hpoll hfd]
  dsimp only
  unfold ctlDel
  rw [hin]

theorem registrable_file {events : BitVec 32} (h : k.Registrable epfd fd events) :
    fd ≠ epfd ∧ ∃ file, k.files fd = some file ∧ file ≠ .unpollable := by
  obtain ⟨hfd, -, ⟨hfile, -⟩ | ⟨hfile, -⟩⟩ := h
  · exact ⟨hfd, _, hfile, by decide⟩
  · exact ⟨hfd, _, hfile, by decide⟩

theorem Sound.register (h : k.Sound epfd) {events : Option (BitVec 32)}
    (hfile : events ≠ none → fd ≠ epfd ∧ ∃ file, k.files fd = some file ∧ file ≠ .unpollable) :
    (k.register fd events).Sound epfd := by
  refine ⟨h.epoll, fun other hin => ?_⟩
  rcases eq_or_ne other fd with rfl | hne
  · exact hfile (by simpa [Kernel.register] using hin)
  · exact h.polled other (by simpa [Kernel.register, hne] using hin)

theorem Sound.close (h : k.Sound epfd) (hfd : fd ≠ epfd) : (k.close epfd fd).Sound epfd := by
  obtain ⟨loops, hepoll⟩ := h.epoll
  refine ⟨⟨loops, ?_⟩, fun other hin => ?_⟩
  · simp only [Kernel.close]
    rw [Function.update_of_ne hfd.symm, hepoll]
  · simp only [Kernel.close, if_neg hfd] at hin ⊢
    rcases eq_or_ne other fd with rfl | hne
    · rw [Function.update_self] at hin
      exact absurd rfl hin
    · rw [Function.update_of_ne hne] at hin ⊢
      exact h.polled other hin

/-- A descriptor that was closed, or an epoll instance that stays one. -/
theorem Sound.opened (h : k.Sound epfd) {file : FileKind}
    (hfile : k.files fd = none ∨ ∃ loops loops', k.files fd = some (.epoll loops) ∧
      file = .epoll loops') : (k.opened fd file).Sound epfd := by
  obtain ⟨loops, hepoll⟩ := h.epoll
  refine ⟨?_, fun other hin => ?_⟩
  · simp only [Kernel.opened]
    rcases eq_or_ne epfd fd with rfl | hne
    · obtain hclosed | ⟨_, loops', -, rfl⟩ := hfile
      · rw [hepoll] at hclosed
        cases hclosed
      · exact ⟨loops', Function.update_self ..⟩
    · exact ⟨loops, by rw [Function.update_of_ne hne, hepoll]⟩
  · obtain ⟨hother, file', hfile', hpoll⟩ := h.polled other hin
    refine ⟨hother, ?_⟩
    simp only [Kernel.opened]
    rcases eq_or_ne other fd with rfl | hne
    · obtain hclosed | ⟨_, loops', -, rfl⟩ := hfile
      · rw [hfile'] at hclosed
        cases hclosed
      · exact ⟨_, Function.update_self .., by simp⟩
    · exact ⟨file', by rw [Function.update_of_ne hne, hfile'], hpoll⟩

end Kernel

/-! ### One task -/

theorem addEvent_event (ctx : FdContext κ) (event : Event) (task : Option κ) :
    (ctx.addEvent event task).event = ctx.event ||| event := by
  simp only [FdContext.addEvent]
  split_ifs <;> rfl

theorem run_closes_event {ctx : FdContext κ} {task : RegistedTask κ} (h : closesFd task = true) :
    (task.run ctx).1.event = Event.none := by
  cases task with
  | close event => rfl
  | _ => cases h

namespace IOManager
variable {m : IOManager κ} {fd : ℤ}

structure Inv (m : IOManager κ) : Prop where
  fd : ∀ fd, (m.fdEvents fd).fd = fd
  mirrors : m.Mirrors
  kernel : m.kernel.Sound m.epollFd
  watched : (m.fdEvents m.eventFd).event ≠ Event.none

theorem registration_eq_none_iff {event : Event} : registration event = none ↔ event = Event.none := by
  unfold registration
  split_ifs with h <;> simp [h]

theorem syncOp_cases {ctx : FdContext κ} (origin : Event) (hfd : ctx.fd ≠ m.eventFd) :
    (ctx.event = origin ∧ m.syncOp ctx origin = none) ∨
      (ctx.event = Event.none ∧ origin ≠ Event.none ∧ m.syncOp ctx origin = some .del) ∨
      (origin = Event.none ∧ ctx.event ≠ Event.none ∧ m.syncOp ctx origin = some .add) ∨
      (origin ≠ Event.none ∧ ctx.event ≠ Event.none ∧ m.syncOp ctx origin = some .mod) := by
  unfold syncOp
  by_cases hsame : ctx.event = origin
  · exact .inl ⟨hsame, if_pos (.inl hsame)⟩
  rw [if_neg (not_or.mpr ⟨hsame, hfd⟩)]
  by_cases hnew : ctx.event = Event.none
  · have horigin : origin ≠ Event.none := fun ho => hsame (hnew.trans ho.symm)
    exact .inr (.inl ⟨hnew, horigin, if_pos ⟨hnew, horigin⟩⟩)
  rw [if_neg fun hdel => hnew hdel.1]
  by_cases horigin : origin = Event.none
  · exact .inr (.inr (.inl ⟨horigin, hnew, if_pos ⟨horigin, hnew⟩⟩))
  · exact .inr (.inr (.inr ⟨horigin, hnew, if_neg fun hadd => horigin hadd.1⟩))

/-- The operation always fits the registration of the descriptor. -/
theorem syncOp_accepted {ctx : FdContext κ} {origin : Event} (hfd : ctx.fd ≠ m.eventFd)
    (hold : m.kernel.interest ctx.fd = registration origin) :
    ∀ op ∈ m.syncOp ctx origin, m.kernel.Accepts ctx.fd op := by
  obtain ⟨-, hop⟩ | ⟨-, horigin, hop⟩ | ⟨horigin, -, hop⟩ | ⟨horigin, -, hop⟩ :=
    syncOp_cases (m := m) origin hfd
  · simp [hop]
  all_goals
    rw [hop]
    simp [Kernel.Accepts, hold, registration_eq_none_iff, horigin]

/-- `stateSync` brings the registration up to date where the kernel takes the events, and leaves
it where it does not. -/
theorem stateSync_cases (hk : m.kernel.Sound m.epollFd) {ctx : FdContext κ} {origin : Event}
    (hfd : ctx.fd ≠ m.eventFd) (hold : m.kernel.interest ctx.fd = registration origin) :
    (m.kernel.Fits m.epollFd ctx.fd origin ctx.event ∧ m.stateSync ctx origin =
      { m with kernel := m.kernel.register ctx.fd (registration ctx.event) }) ∨
    (¬m.kernel.Fits m.epollFd ctx.fd origin ctx.event ∧ m.stateSync ctx origin = m ∧
      registration ctx.event ≠ registration origin) := by
  obtain ⟨hsame, hop⟩ | ⟨hnew, horigin, hop⟩ | ⟨horigin, hnew, hop⟩ | ⟨horigin, hnew, hop⟩ :=
    syncOp_cases (m := m) origin hfd
  · refine .inl ⟨⟨fun ho hn => absurd (hsame.trans ho) hn, fun _ _ => .inl (by rw [hsame])⟩, ?_⟩
    rw [stateSync, hop, hsame, ← hold, Kernel.register, Function.update_eq_self]
  · have hin : m.kernel.interest ctx.fd = some (origin ||| epollet) := by
      rw [hold, registration, if_neg horigin]
    refine .inl ⟨⟨fun ho => absurd ho horigin, fun _ hn => absurd hnew hn⟩, ?_⟩
    simp only [stateSync, hop, hk.del_eq _ hin, registration, hnew, if_true]
  · have hin : m.kernel.interest ctx.fd = none := by rw [hold, registration, if_pos horigin]
    rcases hk.add_cases (ctx.event ||| epollet) hin with ⟨hreg, hctl⟩ | ⟨hreg, e, hctl⟩
    · refine .inl ⟨⟨fun _ _ => hreg, fun ho => absurd horigin ho⟩, ?_⟩
      simp only [stateSync, hop, hctl, registration, hnew, if_false]
    · refine .inr ⟨fun hfits => hreg (hfits.1 horigin hnew), ?_, ?_⟩
      · simp only [stateSync, hop, hctl]
      · rw [← hold, hin, Ne, registration_eq_none_iff]
        exact hnew
  · have hin : m.kernel.interest ctx.fd = some (origin ||| epollet) := by
      rw [hold, registration, if_neg horigin]
    have hctl := hk.mod_eq (ctx.event ||| epollet) hin
    have hreg : registration ctx.event = some (ctx.event ||| epollet) := if_neg hnew
    by_cases hex : exclusive (ctx.event ||| epollet) ∨ exclusive (origin ||| epollet)
    · rw [if_pos hex] at hctl
      have hsync : m.stateSync ctx origin = m := by simp only [stateSync, hop, hctl]
      by_cases hmask : ctx.event ||| epollet = origin ||| epollet
      · refine .inl ⟨⟨fun ho => absurd ho horigin, fun _ _ => .inl hmask⟩, ?_⟩
        rw [hsync, hreg, hmask, ← hin, Kernel.register, Function.update_eq_self]
      · refine .inr ⟨fun hfits => ?_, hsync, ?_⟩
        · obtain hsame | ⟨hnot, hnot'⟩ := hfits.2 horigin hnew
          · exact hmask hsame
          · exact hex.elim hnot hnot'
        · rw [← hold, hin, hreg]
          exact fun hsame => hmask (Option.some.inj hsame)
    · rw [if_neg hex] at hctl
      refine .inl ⟨⟨fun ho => absurd ho horigin, fun _ _ => .inr (not_or.mp hex)⟩, ?_⟩
      simp only [stateSync, hop, hctl, hreg]

/-- A task on a descriptor, where the kernel takes what it leads to and where it does not. -/
theorem Inv.execute_cases (h : m.Inv) (hfd : fd ≠ m.eventFd) (task : RegistedTask κ) :
    (m.kernel.Fits m.epollFd fd (m.fdEvents fd).event (m.eventAfter fd task) ∧
      m.execute fd task = { m with
        fdEvents := Function.update m.fdEvents fd (task.run (m.fdEvents fd)).1
        kernel := closeAfter (m.kernel.register fd (registration (m.eventAfter fd task)))
          m.epollFd fd task }) ∨
    (¬m.kernel.Fits m.epollFd fd (m.fdEvents fd).event (m.eventAfter fd task) ∧
      m.execute fd task = { m with
        fdEvents := Function.update m.fdEvents fd (task.run (m.fdEvents fd)).1
        kernel := closeAfter m.kernel m.epollFd fd task } ∧
      registration (m.eventAfter fd task) ≠ registration (m.fdEvents fd).event) := by
  let ctx := (task.run (m.fdEvents fd)).1
  let m₁ : IOManager κ := { m with fdEvents := Function.update m.fdEvents fd ctx }
  have hctx : ctx.fd = fd := (task.run_fd _).trans (h.fd fd)
  have hcases := @stateSync_cases _ m₁ h.kernel ctx (m.fdEvents fd).event
    (by rw [hctx]; exact hfd) (by rw [hctx]; exact h.mirrors fd)
  rw [hctx] at hcases
  have hexecute : m.execute fd task = { m₁.stateSync ctx (m.fdEvents fd).event with
    kernel := closeAfter (m₁.stateSync ctx (m.fdEvents fd).event).kernel m.epollFd fd task } := rfl
  rw [hexecute]
  refine hcases.imp ?_ ?_
  · rintro ⟨hfits, hsync⟩
    refine ⟨hfits, ?_⟩
    rw [hsync]
    rfl
  · rintro ⟨hfits, hsync, hne⟩
    refine ⟨hfits, ?_, hne⟩
    rw [hsync]

theorem Inv.issued_accepted (h : m.Inv) (hfd : fd ≠ m.eventFd) (task : RegistedTask κ) :
    ∀ op ∈ m.issued fd task, m.kernel.Accepts fd op := by
  have hctx : (task.run (m.fdEvents fd)).1.fd = fd := (task.run_fd _).trans (h.fd fd)
  have haccepted := @syncOp_accepted _ m (task.run (m.fdEvents fd)).1 (m.fdEvents fd).event
    (by rw [hctx]; exact hfd) (by rw [hctx]; exact h.mirrors fd)
  rw [hctx] at haccepted
  exact haccepted

theorem Inv.execute {task : RegistedTask κ} (h : m.Inv) (hfd : fd ≠ m.eventFd)
    (hadd : m.Admitted (.run fd task)) : (m.execute fd task).Inv := by
  obtain ⟨hclose, hfits⟩ := hadd
  obtain ⟨-, heq⟩ | ⟨hnot, -⟩ := h.execute_cases hfd task
  swap
  · exact absurd hfits hnot
  have hregister : (m.kernel.register fd (registration (m.eventAfter fd task))).Sound m.epollFd := by
    refine h.kernel.register fun hne => ?_
    rw [Ne, registration_eq_none_iff] at hne
    by_cases horigin : (m.fdEvents fd).event = Event.none
    · exact Kernel.registrable_file (hfits.1 horigin hne)
    · refine h.kernel.polled fd ?_
      rw [h.mirrors fd, Ne, registration_eq_none_iff]
      exact horigin
  have hinterest : ∀ other, (closeAfter (m.kernel.register fd (registration (m.eventAfter fd task)))
      m.epollFd fd task).interest other =
      Function.update m.kernel.interest fd (registration (m.eventAfter fd task)) other := by
    intro other
    unfold closeAfter
    split
    · rename_i hcloses
      have hnone : registration (m.eventAfter fd task) = none :=
        registration_eq_none_iff.mpr (run_closes_event hcloses)
      simp only [Kernel.close, Kernel.register, if_neg (hclose hcloses), Function.update_idem, hnone]
    · rfl
  rw [heq]
  refine ⟨fun other => ?_, fun other => ?_, ?_, ?_⟩
  · rcases eq_or_ne other fd with rfl | hne
    · dsimp only
      rw [Function.update_self, task.run_fd, h.fd]
    · dsimp only
      rw [Function.update_of_ne hne, h.fd]
  · dsimp only
    rw [hinterest]
    rcases eq_or_ne other fd with rfl | hne
    · rw [Function.update_self, Function.update_self]
      rfl
    · rw [Function.update_of_ne hne, Function.update_of_ne hne, h.mirrors other]
  · dsimp only
    unfold closeAfter
    split
    · exact hregister.close (hclose ‹_›)
    · exact hregister
  · dsimp only
    rw [Function.update_of_ne hfd.symm]
    exact h.watched

theorem Inv.synced_iff (h : m.Inv) {a : Action κ} (hl : m.Legal a) : m.Synced a ↔ m.Admitted a := by
  cases a with
  | run fd task =>
    constructor
    · rintro ⟨-, hmirrors⟩
      have hkeep : closesFd task = true → fd ≠ m.epollFd := by
        rintro hcloses rfl
        -- the context of the eventfd has an event, and the closed instance holds nothing
        have hempty : (m.execute m.epollFd task).kernel.interest m.eventFd = none := by
          simp only [IOManager.execute, closeAfter, hcloses, if_true, Kernel.close]
        have hwatched := hmirrors m.eventFd
        have hsame : (m.execute m.epollFd task).fdEvents m.eventFd = m.fdEvents m.eventFd := by
          obtain ⟨-, heq⟩ | ⟨-, heq, -⟩ := h.execute_cases hl task
          all_goals
            rw [heq]
            exact Function.update_of_ne hl.symm _ _
        rw [hempty, hsame, eq_comm, registration_eq_none_iff] at hwatched
        exact h.watched hwatched
      refine ⟨hkeep, ?_⟩
      obtain ⟨hfits, -⟩ | ⟨hnot, heq, hne⟩ := h.execute_cases hl task
      · exact hfits
      · have hnew := hmirrors fd
        rw [heq] at hnew
        dsimp only at hnew
        rw [Function.update_self] at hnew
        by_cases hcloses : closesFd task = true
        · have hnone : m.eventAfter fd task = Event.none := run_closes_event hcloses
          exact ⟨fun _ hevent => absurd hnone hevent, fun _ hevent => absurd hnone hevent⟩
        · rw [closeAfter, if_neg hcloses, h.mirrors fd] at hnew
          exact absurd hnew.symm hne
    · intro hadd
      exact ⟨h.issued_accepted hl task, (h.execute hl hadd).mirrors⟩
  | _ => exact Iff.rfl

theorem Inv.step {a : Action κ} {m' : IOManager κ} (h : m.Inv) (hl : m.Legal a)
    (hadd : m.Admitted a) (hstep : m.step a = some m') : m'.Inv := by
  cases a with
  | run fd task => exact Option.some.inj hstep ▸ h.execute hl hadd
  | opened fd file =>
    simp only [IOManager.step] at hstep
    split at hstep
    · cases hstep
      exact ⟨h.fd, h.mirrors, h.kernel.opened (.inl ‹_›), h.watched⟩
    · cases hstep
  | nested fd loops =>
    simp only [IOManager.step] at hstep
    split at hstep
    · cases hstep
      exact ⟨h.fd, h.mirrors, h.kernel.opened (.inr ⟨_, loops, ‹_›, rfl⟩), h.watched⟩
    · cases hstep
  | room room =>
    cases hstep
    exact ⟨h.fd, h.mirrors, ⟨h.kernel.epoll, h.kernel.polled⟩, h.watched⟩

theorem init_inv {epollFd eventFd : ℤ} (hne : epollFd ≠ eventFd) (files : ℤ → Option FileKind)
    (room : Bool) : (init epollFd eventFd files room : IOManager κ).Inv where
  fd other := by
    rcases eq_or_ne other eventFd with rfl | hother
    · simp only [init, Function.update_self]
      rfl
    · simp only [init, Function.update_of_ne hother]
      rfl
  mirrors other := by
    rcases eq_or_ne other eventFd with rfl | hother
    · simp only [init, Function.update_self, addEvent_event]
      exact (by decide : some (Event.read ||| epollet) = registration (Event.none ||| Event.read))
    · simp only [init, Function.update_of_ne hother]
      rfl
  kernel := by
    refine ⟨⟨true, ?_⟩, fun other hin => ?_⟩
    · simp only [init]
      rw [Function.update_of_ne hne, Function.update_self]
    · rcases eq_or_ne other eventFd with rfl | hother
      · exact ⟨hne.symm, .pollable, Function.update_self .., by decide⟩
      · simp only [init, Function.update_of_ne hother] at hin
        exact absurd rfl hin
  watched := by
    simp only [init, Function.update_self, addEvent_event]
    exact (by decide : Event.none ||| Event.read ≠ Event.none)

end IOManager

/-- The interest set mirrors the contexts over a whole run exactly if the epoll instance is never
closed and the kernel takes the events that each task leads to. -/
theorem interest_mirrors_contexts_iff {epollFd eventFd : ℤ} (hne : epollFd ≠ eventFd)
    (files : ℤ → Option FileKind) (room : Bool) {acts : List (Action κ)}
    (hlegal : Guarded IOManager.step IOManager.Legal (.init epollFd eventFd files room) acts) :
    Guarded IOManager.step IOManager.Synced (.init epollFd eventFd files room) acts ↔
      Guarded IOManager.step IOManager.Admitted (.init epollFd eventFd files room) acts := by
  refine guarded_iff (fun m a hm hl => hm.synced_iff hl) ?_ (IOManager.init_inv hne files room) hlegal
  intro m a m' hm hl hs hstep
  exact hm.step hl ((hm.synced_iff hl).mp hs) hstep

def mirroredRun : List (Action Unit) :=
  [.opened 7 .pollable, .run 7 (.add Event.read (some ())), .run 7 (.add Event.write (some ())),
    .run 7 (.trigger Event.read), .run 7 (.del Event.read), .run 7 (.close Event.none),
    .opened 7 (.epoll true), .nested 7 false, .run 7 (.add Event.read (some ()))]

theorem reused_descriptor_mirrored :
    Guarded IOManager.step IOManager.Legal (.init 3 4 (fun _ => none) true) mirroredRun ∧
      Guarded IOManager.step IOManager.Synced (.init 3 4 (fun _ => none) true) mirroredRun :=
  have hlegal : Guarded IOManager.step IOManager.Legal (.init 3 4 (fun _ => none) true)
      mirroredRun := by decide
  ⟨hlegal, (interest_mirrors_contexts_iff (by decide) (fun _ => none) true hlegal).mpr (by decide)⟩

/-- A handler is added for a descriptor that `CLOSE_TASK` has closed. -/
def lateAdd : List (Action Unit) :=
  [.opened 7 .pollable, .run 7 (.add Event.read (some ())), .run 7 (.close Event.none),
    .run 7 (.add Event.read (some ()))]

/-- So does one for the epoll instance itself. -/
theorem closed_descriptor_out_of_sync :
    Guarded IOManager.step IOManager.Legal (.init 3 4 (fun _ => none) true) lateAdd ∧
    ¬ Guarded IOManager.step IOManager.Synced (.init 3 4 (fun _ => none) true) lateAdd ∧
    ¬ Guarded IOManager.step IOManager.Synced (.init 3 4 (fun _ => none) true)
      ([.run 3 (.add Event.read (some ()))] : List (Action Unit)) := by
  refine ⟨by decide, fun hsynced => ?_, fun hsynced => ?_⟩
  · have hlast := (((hsynced.2 _ rfl).2 _ rfl).2 _ rfl).1.2 7
    exact absurd hlast (by decide)
  · exact absurd (hsynced.1.2 3) (by decide)

end MSylar.Coro.StateSync
