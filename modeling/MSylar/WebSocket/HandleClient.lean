import MSylar.Lib.Calls
import MSylar.WebSocket.Server

/-!
# The life of a session (wsserver.tpp:54-188, wsserver.cc:253-288)

Any number of `registerUrl` loops over `handleClient`, each with its own session, on the server
of `getInstance`. A loop runs from one `co_await` to the next in one step. At every `co_await`
the ping timer, or a handler that calls `co_close`, may change the state of the session.
-/

namespace MSylar.WebSocket.HandleClient
open MSylar.Execution MSylar.Calls MSylar.Word MSylar.Basic

/-- `owner` is the number of the loop the session was created for. -/
structure WsSession where
  owner : ℕ
  sessionId : ℕ
  deriving DecidableEq

inductive State where
  | init
  | opened
  | closing
  | closed
  deriving DecidableEq

def getInstance : Option (WsServer WsSession) := WsServer.new 1024

def getSession (s : WsServer WsSession) (sessionId : ℤ) : Option (Option WsSession) :=
  if sessionId < 0 ∨ int32 s.sessions.length ≤ sessionId then some none
  else if s.sessionMutexs ≤ sessionId.toNat / 64 ∨ s.sessions.length ≤ sessionId.toNat then none
  else some (s.sessions[sessionId.toNat]?.join)

inductive After where
  | leave (nextId : ℤ)
  | remove
  deriving DecidableEq

inductive Point where
  -- `registerUrl`: before `handleClient`, after it, after the loop
  | start (sessionId : ℤ)
  | returned (nextId : ℤ)
  | ended
  | opening (id : ℕ)
  -- `co_recvFrame`: called, and past its test of the state
  | receiving (id loopCount : ℕ)
  | reading (id loopCount : ℕ)
  | routing (id loopCount opcode : ℕ)
  -- `co_close`: called, sending the close frame, done
  | closing (id : ℕ) (k : After)
  | sending (id : ℕ) (k : After)
  | closeDone (id : ℕ) (k : After)
  | badClosing (id : ℕ)
  | aborted
  deriving DecidableEq

/-- `created` is the id of the session created for the loop and `removed` counts its calls of
`removeSession`. -/
structure Conn where
  point : Point
  state : State
  created : Option ℕ
  removed : ℕ
  deriving DecidableEq

def Conn.new : Conn := ⟨.start (-1), .init, none, 0⟩

/-- The results of what a loop awaits: whether the timer of the session could be added and the
bitmap of the allocator resized, what `co_recvFrame`, `getFrame` and `co_Route` return, and
whether the socket is valid. -/
structure Results where
  init : Bool := true
  grows : Bool := true
  rt : ℤ := 1
  frame : Option ℕ := none
  routed : ℤ := 0
  valid : Bool := true

def wsOpClose : ℕ := 8

def Conn.finish (c : Conn) (nextId : ℤ) : Conn :=
  if nextId ≠ -1 ∨ c.state = .closed then { c with point := .returned nextId }
  else { c with point := .aborted }

-- Behind the loop (wsserver.tpp:147-162), up to its `co_await`.
def Conn.leave (c : Conn) (id : ℕ) (nextId : ℤ) : Conn :=
  if nextId = -1 ∨ c.state = .closed then
    if c.state ≠ .closed then { c with state := .closed, point := .badClosing id }
    else { c with point := .closing id .remove }
  else c.finish nextId

def Conn.loop (c : Conn) (id loopCount : ℕ) : Conn :=
  if loopCount < 1000 ∧ c.state ≠ .closed then { c with point := .receiving id (loopCount + 1) }
  else c.leave id id

def Conn.received (c : Conn) (id loopCount : ℕ) (rt : ℤ) (frame : Option ℕ) : Conn :=
  if rt = 0 then c.leave id (-1)
  else if rt = -1 then c.leave id (-1)
  else if rt = -2 then c.leave id (-1)
  else
    match frame with
    | none => { c with point := .closing id (.leave (-1)) }
    | some opcode => { c with point := .routing id loopCount opcode }

def Conn.routed (c : Conn) (id loopCount opcode : ℕ) (state : ℤ) : Conn :=
  if opcode = wsOpClose then { c with point := .closing id (.leave (-1)) }
  else if state ≠ 0 then { c with point := .closing id (.leave id) }
  else c.loop id loopCount

def removeAndFinish (s : WsServer WsSession) (c : Conn) (id : ℕ) :
    Option (WsServer WsSession × Conn) :=
  (s.removeSession id).map fun r => (r.2, Conn.finish { c with removed := c.removed + 1 } (-1))

-- After `createSession` (wsserver.tpp:63-74), up to the `co_await` of `co_onOpen`.
def Conn.begin (c : Conn) : Option WsSession → Conn
  | none => { c with point := .returned (-1) }
  | some session => { c with
      point := .opening session.sessionId
      state := .opened
      created := some session.sessionId }

def Conn.run (i : ℕ) (r : Results) (s : WsServer WsSession) (c : Conn) :
    Option (WsServer WsSession × Conn) :=
  match c.point with
  | .start sessionId =>
    if sessionId < 0 then
      (s.createSession (WsSession.mk i) r.init r.grows).map fun q => (q.2, c.begin q.1)
    else (getSession s sessionId).map fun session =>
      match session with
      | none => (s, { c with point := .returned (-1) })
      | some _ => (s, c.loop sessionId.toNat 0)
  | .returned nextId =>
    some (s, { c with point := if 0 ≤ nextId then .start nextId else .ended })
  | .opening id => some (s, c.loop id 0)
  | .receiving id n =>
    if c.state ≠ .opened then some (s, c.received id n (-1) none)
    else some (s, { c with point := .reading id n })
  | .reading id n => some (s, c.received id n r.rt r.frame)
  | .routing id n opcode => some (s, c.routed id n opcode r.routed)
  | .closing id k =>
    if c.state = .closed ∨ c.state = .closing then some (s, { c with point := .closeDone id k })
    else if !r.valid then some (s, { c with state := .closed, point := .closeDone id k })
    else some (s, { c with state := .closing, point := .sending id k })
  | .sending id k => some (s, { c with state := .closed, point := .closeDone id k })
  | .closeDone id (.leave nextId) => some (s, c.leave id nextId)
  | .closeDone id .remove => removeAndFinish s c id
  | .badClosing id => removeAndFinish s c id
  | .ended => none
  | .aborted => none

inductive Event where
  | closeBegins (valid : Bool)
  | closeSent
  | pingTimeout

/-- What happens to a session while its loop is at a `co_await`: another `co_close` is done as far as
its own `co_await`, with its test of the state and the store, so that others act at awaits only. -/
def State.on (s : State) : Event → State
  | .closeBegins valid =>
    if s = .closed ∨ s = .closing then s else if valid then .closing else .closed
  | .closeSent => .closed
  | .pingTimeout => .closed

inductive Action where
  | connect
  | event (i : ℕ) (e : Event)
  | resume (i : ℕ) (r : Results)

abbrev Clients := World (WsServer WsSession) Conn

def Clients.step (w : Clients) : Action → Option Clients
  | .connect => some (w.enter .new)
  | .event i e => w.advance (fun s c => some (s, { c with state := c.state.on e })) i
  | .resume i r => w.advance (Conn.run i r) i

/-! ### What is to hold -/

def Stored (s : WsServer WsSession) (i id : ℕ) : Prop := s.sessions[id]? = some (some ⟨i, id⟩)

def Released (s : WsServer WsSession) (id : ℕ) : Prop :=
  s.sessions[id]? = some none ∧ Bitmap.test s.sessionIdAllocator.bitMap id = false

/-- What `handleClient` has done when it returns `nextId` to loop `i`, whose session is `id`. -/
def ReturnsRight (s : WsServer WsSession) (c : Conn) (i id : ℕ) (nextId : ℤ) : Prop :=
  (0 ≤ nextId → nextId = id ∧ Stored s i id ∧ c.removed = 0) ∧
  (nextId < 0 → nextId = -1 ∧ Released s id ∧ c.state = .closed ∧ c.removed = 1)

/-- No loop fails its assertion, and one whose session was created ends only after it has
called `removeSession` once. -/
def EndsRight (c : Conn) : Prop :=
  c.point ≠ .aborted ∧ c.removed ≤ 1 ∧ ∀ id ∈ c.created, c.point = .ended → c.removed = 1

/-- All loops of a state, and any loop whose next step makes `handleClient` return. -/
def Clients.RemovesOnce (w : Clients) : Prop :=
  (∀ c ∈ w.calls, EndsRight c) ∧
  ∀ i r w' c id nextId, w.step (.resume i r) = some w' → w'.calls[i]? = some c →
    c.created = some id → c.point = .returned nextId → ReturnsRight w'.shared c i id nextId

/-! ### The invariant -/

structure Holds (s : WsServer WsSession) (i : ℕ) (c : Conn) (id : ℕ) : Prop where
  created : c.created = some id
  removed : c.removed = 0
  stored : Stored s i id

def NoSession (c : Conn) : Prop :=
  c.created = none ∧ c.removed = 0 ∨ c.removed = 1 ∧ c.state = .closed

def AfterOk (c : Conn) (id : ℕ) : After → Prop
  | .leave nextId => nextId = -1 ∨ nextId = id
  | .remove => c.state = .closed

def ConnOk (s : WsServer WsSession) (i : ℕ) (c : Conn) : Prop :=
  match c.point with
  | .start sessionId =>
    if 0 ≤ sessionId then Holds s i c sessionId.toNat else c.created = none ∧ c.removed = 0
  | .returned nextId =>
    if 0 ≤ nextId then Holds s i c nextId.toNat else nextId = -1 ∧ NoSession c
  | .ended => NoSession c
  | .opening id | .receiving id _ | .reading id _ | .routing id _ _ => Holds s i c id
  | .closing id k | .closeDone id k => Holds s i c id ∧ AfterOk c id k
  | .sending id k => Holds s i c id ∧ ∃ nextId, k = .leave nextId ∧ (nextId = -1 ∨ nextId = id)
  | .badClosing id => Holds s i c id ∧ c.state = .closed
  | .aborted => False

-- `handleClient` is not about to give up a session in this step.
def Keeping (c : Conn) : Prop := ∀ nextId, c.point = .returned nextId → 0 ≤ nextId ∨ c.created = none

structure Clients.Inv (w : Clients) : Prop where
  server : w.shared.Inv
  slots : w.shared.sessions.length = 65536
  size : w.shared.sessionIdAllocator.getSize ≤ 2 * w.shared.sessions.length
  calls : ∀ i c, w.calls[i]? = some c → ConnOk w.shared i c

theorem Holds.mono {s s' : WsServer WsSession} {i id : ℕ} {c : Conn} (h : Holds s i c id)
    (hs : ∀ id, Stored s i id → Stored s' i id) : Holds s' i c id :=
  ⟨h.created, h.removed, hs id h.stored⟩

theorem Holds.mono_or {s s' : WsServer WsSession} {i id : ℕ} {c : Conn} {p q : Prop} [Decidable p]
    (h : if p then Holds s i c id else q) (hs : ∀ id, Stored s i id → Stored s' i id) :
    if p then Holds s' i c id else q := by
  split
  · rename_i hp
    rw [if_pos hp] at h
    exact h.mono hs
  · rename_i hp
    rwa [if_neg hp] at h

theorem ConnOk.mono {s s' : WsServer WsSession} {i : ℕ} {c : Conn} (h : ConnOk s i c)
    (hs : ∀ id, Stored s i id → Stored s' i id) : ConnOk s' i c := by
  obtain ⟨point, state, created, removed⟩ := c
  cases point with
  | start sessionId => exact Holds.mono_or h hs
  | returned nextId => exact Holds.mono_or h hs
  | ended => exact h
  | aborted => exact h
  | opening id => exact Holds.mono h hs
  | receiving id n => exact Holds.mono h hs
  | reading id n => exact Holds.mono h hs
  | routing id n opcode => exact Holds.mono h hs
  | closing id k => exact ⟨h.1.mono hs, h.2⟩
  | sending id k => exact ⟨h.1.mono hs, h.2⟩
  | closeDone id k => exact ⟨h.1.mono hs, h.2⟩
  | badClosing id => exact ⟨h.1.mono hs, h.2⟩

/-! ### The stretches of code between two awaits -/

variable {s : WsServer WsSession} {i id : ℕ} {c : Conn}

theorem Conn.leave_ok (h : Holds s i c id) {nextId : ℤ} (hn : nextId = -1 ∨ nextId = id) :
    ConnOk s i (c.leave id nextId) ∧ Keeping (c.leave id nextId) := by
  unfold leave
  split
  · split
    · exact ⟨⟨⟨h.created, h.removed, h.stored⟩, rfl⟩, fun n hp => by cases hp⟩
    · rename_i hclosed
      exact ⟨⟨⟨h.created, h.removed, h.stored⟩, not_not.mp hclosed⟩, fun n hp => by cases hp⟩
  · rename_i hstay
    have hid : nextId = id := hn.resolve_left fun heq => hstay (.inl heq)
    have hne : nextId ≠ -1 := fun heq => hstay (.inl heq)
    have hpos : 0 ≤ nextId := by omega
    unfold finish
    rw [if_pos (.inl hne)]
    refine ⟨?_, fun n hp => .inl ?_⟩
    · subst hid
      simp only [ConnOk, if_pos hpos, Int.toNat_natCast]
      exact ⟨h.created, h.removed, h.stored⟩
    · cases hp
      exact hpos

theorem Conn.loop_ok (h : Holds s i c id) (n : ℕ) :
    ConnOk s i (c.loop id n) ∧ Keeping (c.loop id n) := by
  unfold loop
  split
  · exact ⟨⟨h.created, h.removed, h.stored⟩, fun n hp => by cases hp⟩
  · exact leave_ok h (.inr rfl)

theorem Conn.received_ok (h : Holds s i c id) (n : ℕ) (rt : ℤ) (frame : Option ℕ) :
    ConnOk s i (c.received id n rt frame) ∧ Keeping (c.received id n rt frame) := by
  have hleave := leave_ok h (.inl rfl)
  unfold received
  split
  · exact hleave
  · split
    · exact hleave
    · split
      · exact hleave
      · cases frame with
        | none => exact ⟨⟨⟨h.created, h.removed, h.stored⟩, .inl rfl⟩, fun n hp => by cases hp⟩
        | some opcode => exact ⟨⟨h.created, h.removed, h.stored⟩, fun n hp => by cases hp⟩

theorem Conn.routed_ok (h : Holds s i c id) (n opcode : ℕ) (state : ℤ) :
    ConnOk s i (c.routed id n opcode state) ∧ Keeping (c.routed id n opcode state) := by
  unfold routed
  split
  · exact ⟨⟨⟨h.created, h.removed, h.stored⟩, .inl rfl⟩, fun n hp => by cases hp⟩
  · split
    · exact ⟨⟨⟨h.created, h.removed, h.stored⟩, .inr rfl⟩, fun n hp => by cases hp⟩
    · exact loop_ok h n

theorem stored_live (h : Stored s i id) : id ∈ s.live := WsServer.mem_live.mpr ⟨_, h⟩

theorem getSession_stored (hinv : s.Inv) (h : Stored s i id) :
    getSession s id = some (some ⟨i, id⟩) := by
  have hlt := WsServer.live_lt (stored_live h)
  have hslots := hinv.slots
  have hsmall := int32_of_lt hinv.small
  rw [getSession, if_neg (by omega), if_neg (by omega), Int.toNat_natCast, h]
  rfl

theorem stored_set {j n : ℕ} {v x : Option WsSession} (h : Stored s j n)
    (hslot : s.sessions[id]? = some x) (hx : x ≠ some ⟨j, id⟩) {s' : WsServer WsSession}
    (hs : s'.sessions = s.sessions.set id v) : Stored s' j n := by
  unfold Stored at h ⊢
  have hne : id ≠ n := by
    rintro rfl
    rw [hslot] at h
    exact hx (Option.some.inj h)
  rw [hs, List.getElem?_set_ne hne, h]

/-! ### Steps and runs -/

structure StepOk (w : Clients) (i : ℕ) (s : WsServer WsSession) (c : Conn) : Prop where
  server : s.Inv
  slots : s.sessions.length = w.shared.sessions.length
  size : s.sessionIdAllocator.getSize ≤ 2 * w.shared.sessions.length
  others : ∀ j, j ≠ i → ∀ id, Stored w.shared j id → Stored s j id
  own : ConnOk s i c
  keeping : Keeping c ∨ ∃ id, c.created = some id ∧ Released s id

variable {w : Clients}

theorem Clients.Inv.stay (h : w.Inv) (hc : ConnOk w.shared i c ∧ Keeping c) :
    StepOk w i w.shared c :=
  ⟨h.server, rfl, h.size, fun _ _ _ hs => hs, hc.1, .inl hc.2⟩

theorem Clients.Inv.remove (h : w.Inv) (hold : Holds w.shared i c id) (hstate : c.state = .closed)
    {s' : WsServer WsSession} {c' : Conn} (hrun : removeAndFinish w.shared c id = some (s', c')) :
    StepOk w i s' c' := by
  have hslots := h.slots
  obtain ⟨t, hremove, hinv, hsize, hset, hbit⟩ :=
    h.server.remove_small (by omega) h.size (stored_live hold.stored)
  unfold removeAndFinish at hrun
  rw [hremove] at hrun
  simp only [Option.map_some, Option.some.injEq, Prod.mk.injEq] at hrun
  obtain ⟨rfl, rfl⟩ := hrun
  unfold Conn.finish
  rw [if_pos (.inr hstate)]
  refine ⟨hinv, ?_, hsize, ?_, ?_, .inr ⟨id, hold.created, ?_, hbit⟩⟩
  · rw [hset, List.length_set]
  · intro j hj n hn
    refine stored_set hn hold.stored ?_ hset
    intro heq
    cases heq
    exact hj rfl
  · refine ⟨rfl, .inr ⟨?_, hstate⟩⟩
    dsimp only
    rw [hold.removed]
  · rw [hset, List.getElem?_set_self (WsServer.live_lt (stored_live hold.stored))]

theorem Clients.Inv.create (h : w.Inv) (hfresh : c.created = none ∧ c.removed = 0)
    {init grows : Bool} {q : Option WsSession} {s' : WsServer WsSession}
    (hcreate : w.shared.createSession (WsSession.mk i) init grows = some (q, s')) :
    StepOk w i s' (c.begin q) := by
  have hslots := h.slots
  obtain ⟨hinv, hsize, ⟨rfl, hsame⟩ | ⟨id, rfl, hslot, hset⟩⟩ :=
    h.server.create_cases (by omega) h.size hcreate
  · refine ⟨hinv, by rw [hsame], hsize, fun j _ n hn => ?_, ⟨rfl, .inl hfresh⟩, ?_⟩
    · unfold Stored
      rw [hsame]
      exact hn
    · exact .inl fun n _ => .inr hfresh.1
  · have hlt := (List.getElem?_eq_some_iff.mp hslot).1
    refine ⟨hinv, by rw [hset, List.length_set], hsize, ?_, ⟨rfl, hfresh.2, ?_⟩, ?_⟩
    · exact fun j _ n hn => stored_set hn hslot (Option.some_ne_none _).symm hset
    · unfold Stored
      rw [hset, List.getElem?_set_self hlt]
    · exact .inl fun n hp => by cases hp

theorem Clients.Inv.run (h : w.Inv) (hc : w.calls[i]? = some c) {r : Results}
    {s' : WsServer WsSession} {c' : Conn} (hrun : c.run i r w.shared = some (s', c')) :
    StepOk w i s' c' := by
  have hok := h.calls i c hc
  obtain ⟨point, state, created, removed⟩ := c
  cases point with
  | start sessionId =>
    simp only [Conn.run] at hrun
    simp only [ConnOk] at hok
    split at hrun
    · rename_i hneg
      rw [if_neg (by omega)] at hok
      obtain ⟨⟨q, t⟩, hcreate, hpair⟩ := Option.map_eq_some_iff.mp hrun
      cases hpair
      exact h.create hok hcreate
    · rename_i hpos
      rw [if_pos (by omega)] at hok
      obtain ⟨n, rfl⟩ := Int.eq_ofNat_of_zero_le (not_lt.mp hpos)
      rw [Int.toNat_natCast] at hok
      rw [getSession_stored h.server hok.stored] at hrun
      cases hrun
      exact h.stay (Conn.loop_ok hok 0)
  | returned nextId =>
    simp only [Conn.run, Option.some.injEq, Prod.mk.injEq] at hrun
    simp only [ConnOk] at hok
    obtain ⟨rfl, rfl⟩ := hrun
    refine h.stay ?_
    split
    · rename_i hpos
      rw [if_pos hpos] at hok
      refine ⟨?_, fun n hp => by cases hp⟩
      simp only [ConnOk, if_pos hpos]
      exact ⟨hok.created, hok.removed, hok.stored⟩
    · rename_i hneg
      rw [if_neg hneg] at hok
      exact ⟨hok.2, fun n hp => by cases hp⟩
  | ended => cases hrun
  | opening id =>
    cases hrun
    exact h.stay (Conn.loop_ok hok 0)
  | receiving id n =>
    simp only [Conn.run] at hrun
    split at hrun
    · cases hrun
      exact h.stay (Conn.received_ok hok n (-1) none)
    · cases hrun
      exact h.stay ⟨⟨hok.created, hok.removed, hok.stored⟩, fun n hp => by cases hp⟩
  | reading id n =>
    cases hrun
    exact h.stay (Conn.received_ok hok n r.rt r.frame)
  | routing id n opcode =>
    cases hrun
    exact h.stay (Conn.routed_ok hok n opcode r.routed)
  | closing id k =>
    obtain ⟨hold, hafter⟩ := hok
    have hold' : ∀ t p, Holds w.shared i ⟨p, t, created, removed⟩ id := fun t p =>
      ⟨hold.created, hold.removed, hold.stored⟩
    simp only [Conn.run] at hrun
    split at hrun
    · cases hrun
      exact h.stay ⟨⟨hold' _ _, hafter⟩, fun n hp => by cases hp⟩
    · rename_i hopen
      -- the close before `removeSession` finds the session closed
      have hleave : ∃ nextId, k = .leave nextId ∧ (nextId = -1 ∨ nextId = id) := by
        cases k with
        | leave nextId => exact ⟨nextId, rfl, hafter⟩
        | remove => exact absurd (.inl hafter) hopen
      split at hrun
      · cases hrun
        obtain ⟨nextId, rfl, hn⟩ := hleave
        exact h.stay ⟨⟨hold' _ _, hn⟩, fun n hp => by cases hp⟩
      · cases hrun
        exact h.stay ⟨⟨hold' _ _, hleave⟩, fun n hp => by cases hp⟩
  | sending id k =>
    cases hrun
    obtain ⟨hold, nextId, rfl, hn⟩ := hok
    exact h.stay ⟨⟨⟨hold.created, hold.removed, hold.stored⟩, hn⟩, fun n hp => by cases hp⟩
  | closeDone id k =>
    cases k with
    | leave nextId =>
      cases hrun
      exact h.stay (Conn.leave_ok hok.1 hok.2)
    | remove => exact h.remove hok.1 hok.2 hrun
  | badClosing id => exact h.remove hok.1 hok.2 hrun
  | aborted => cases hrun

theorem State.on_closed (e : Event) : State.on .closed e = .closed := by
  cases e with
  | closeBegins valid => rfl
  | closeSent => rfl
  | pingTimeout => rfl

theorem ConnOk.on (h : ConnOk s i c) (e : Event) : ConnOk s i { c with state := c.state.on e } := by
  have hclosed : c.state = .closed → c.state.on e = .closed := fun hst => hst ▸ State.on_closed e
  have hold : ∀ id, Holds s i c id → Holds s i { c with state := c.state.on e } id := fun id hh =>
    ⟨hh.created, hh.removed, hh.stored⟩
  have hnone : NoSession c → NoSession { c with state := c.state.on e } := fun hh =>
    hh.imp_right fun hgone => ⟨hgone.1, hclosed hgone.2⟩
  have hafter : ∀ id k, AfterOk c id k → AfterOk { c with state := c.state.on e } id k := by
    intro id k hk
    cases k with
    | leave nextId => exact hk
    | remove => exact hclosed hk
  obtain ⟨point, state, created, removed⟩ := c
  cases point with
  | start sessionId =>
    simp only [ConnOk] at h ⊢
    split
    · rename_i hpos
      rw [if_pos hpos] at h
      exact hold _ h
    · rename_i hneg
      rwa [if_neg hneg] at h
  | returned nextId =>
    simp only [ConnOk] at h ⊢
    split
    · rename_i hpos
      rw [if_pos hpos] at h
      exact hold _ h
    · rename_i hneg
      rw [if_neg hneg] at h
      exact ⟨h.1, hnone h.2⟩
  | ended => exact hnone h
  | opening id => exact hold _ h
  | receiving id n => exact hold _ h
  | reading id n => exact hold _ h
  | routing id n opcode => exact hold _ h
  | closing id k => exact ⟨hold _ h.1, hafter _ _ h.2⟩
  | sending id k => exact ⟨hold _ h.1, h.2⟩
  | closeDone id k => exact ⟨hold _ h.1, hafter _ _ h.2⟩
  | badClosing id => exact ⟨hold _ h.1, hclosed h.2⟩
  | aborted => exact h

theorem Clients.step_inv {w' : Clients} {a : Action} (h : w.Inv) (hs : w.step a = some w') :
    w'.Inv := by
  cases a with
  | connect =>
    cases hs
    exact ⟨h.server, h.slots, h.size, forall_enter_idx h.calls ⟨rfl, rfl⟩⟩
  | event i e =>
    simp only [Clients.step] at hs
    obtain ⟨c, s, c', hc, hrun, rfl⟩ := advance_cases hs
    cases hrun
    exact ⟨h.server, h.slots, h.size,
      forall_set_idx h.calls (fun _ _ _ hd => hd) ((h.calls i c hc).on e)⟩
  | resume i r =>
    obtain ⟨c, s, c', hc, hrun, rfl⟩ := advance_cases hs
    have hok := h.run hc hrun
    refine ⟨hok.server, hok.slots.trans h.slots, ?_, ?_⟩
    · rw [hok.slots]
      exact hok.size
    · exact forall_set_idx h.calls (fun j d hj hd => hd.mono (hok.others j hj)) hok.own

theorem ConnOk.endsRight (h : ConnOk s i c) : EndsRight c := by
  have hheld : ∀ id, Holds s i c id → c.removed ≤ 1 := fun id hh => by
    rw [hh.removed]
    exact Nat.zero_le 1
  have hnone : NoSession c → c.removed ≤ 1 ∧ ∀ id ∈ c.created, c.removed = 1 := by
    rintro (⟨hcreated, hremoved⟩ | ⟨hremoved, -⟩)
    · rw [hcreated, hremoved]
      exact ⟨Nat.zero_le 1, fun id hid => by cases hid⟩
    · exact ⟨hremoved.le, fun _ _ => hremoved⟩
  obtain ⟨point, state, created, removed⟩ := c
  cases point with
  | start sessionId =>
    refine ⟨Point.noConfusion, ?_, fun _ _ => Point.noConfusion⟩
    simp only [ConnOk] at h
    split at h
    · exact hheld _ h
    · exact h.2.trans_le (Nat.zero_le 1)
  | returned nextId =>
    refine ⟨Point.noConfusion, ?_, fun _ _ => Point.noConfusion⟩
    simp only [ConnOk] at h
    split at h
    · exact hheld _ h
    · exact (hnone h.2).1
  | ended => exact ⟨Point.noConfusion, (hnone h).1, fun id hid _ => (hnone h).2 id hid⟩
  | opening id | receiving id n | reading id n | routing id n opcode =>
    exact ⟨Point.noConfusion, hheld id h, fun _ _ => Point.noConfusion⟩
  | closing id k | sending id k | closeDone id k | badClosing id =>
    exact ⟨Point.noConfusion, hheld id h.1, fun _ _ => Point.noConfusion⟩
  | aborted => exact h.elim

theorem Clients.Inv.removesOnce (h : w.Inv) : w.RemovesOnce := by
  refine ⟨fun c hc => ?_, fun i r w' c id nextId hs hc hcreated hpoint => ?_⟩
  · obtain ⟨i, hi⟩ := List.getElem?_of_mem hc
    exact (h.calls i c hi).endsRight
  · obtain ⟨b, s, c', hb, hrun, rfl⟩ := advance_cases hs
    have hok := h.run hb hrun
    obtain rfl : c' = c := by
      have hlt := (List.getElem?_eq_some_iff.mp hb).1
      rw [List.getElem?_set_self hlt] at hc
      exact Option.some.inj hc
    have hown := hok.own
    unfold ConnOk at hown
    rw [hpoint] at hown
    dsimp only at hown
    refine ⟨fun hpos => ?_, fun hneg => ?_⟩
    · rw [if_pos hpos] at hown
      have hid : nextId.toNat = id := Option.some.inj (hown.created.symm.trans hcreated)
      rw [hid] at hown
      exact ⟨by omega, hown.stored, hown.removed⟩
    · rw [if_neg (not_le.mpr hneg)] at hown
      obtain ⟨hminus, ⟨hnone, -⟩ | ⟨hremoved, hclosed⟩⟩ := hown
      · rw [hnone] at hcreated
        cases hcreated
      · refine ⟨hminus, ?_, hclosed, hremoved⟩
        rcases hok.keeping with hkeep | ⟨n, hn, hrel⟩
        · rcases hkeep nextId hpoint with hpos | hnone
          · omega
          · rw [hnone] at hcreated
            cases hcreated
        · obtain rfl : n = id := Option.some.inj (hn.symm.trans hcreated)
          exact hrel

theorem Clients.init_inv {s₀ : WsServer WsSession} (h : getInstance = some s₀) :
    Clients.Inv ⟨s₀, []⟩ := by
  have hinv := WsServer.new_inv (by norm_num) h
  unfold getInstance at h
  rw [WsServer.new_eq (by norm_num)] at h
  obtain rfl := Option.some.inj h
  refine ⟨hinv, List.length_replicate .., ?_, fun i c hc => by cases hc⟩
  simp only [PackedIDAllocator.getSize, PackedIDAllocator.new, List.length_replicate]
  norm_num

/-- In every run of any number of loops each session is removed once, and `handleClient`
returns accordingly. -/
theorem session_removed_once (s₀ : WsServer WsSession) (h₀ : getInstance = some s₀)
    (as : List Action) (w : Clients) (hw : exec Clients.step ⟨s₀, []⟩ as = some w) :
    w.RemovesOnce := by
  have hinv := exec_invariant (fun _ _ _ hi hst => Clients.step_inv hi hst)
    (Clients.init_inv h₀) hw
  exact hinv.removesOnce

theorem first_session : ∃ s₀ s₁ s₂, getInstance = some s₀ ∧
    s₀.createSession (WsSession.mk 0) true true = some (some ⟨0, 0⟩, s₁) ∧
    s₁.removeSession (0 : ℕ) = some (0, s₂) := by
  have h₀ : getInstance = some ⟨List.replicate (1024 * 64) none, 1024, .new 1024, 0⟩ :=
    WsServer.new_eq (by norm_num)
  obtain ⟨hserver, hslots, hsize, -⟩ := Clients.init_inv h₀
  obtain ⟨id, a, halloc, -, hid, hlt, hmutex, hslot, -⟩ :=
    hserver.alloc (by rw [WsServer.new_live, Finset.card_empty]; omega) le_rfl true
  obtain rfl : id = 0 := Int.natCast_eq_zero.mp hid
  obtain ⟨s₁, hcreate⟩ : ∃ s₁, WsServer.createSession _ (WsSession.mk 0) true true =
      some (some ⟨0, 0⟩, s₁) := ⟨_, WsServer.createSession_eq halloc hslot hmutex⟩
  obtain ⟨hinv, hsize₁, ⟨hnone, -⟩ | ⟨id, hid, -, hset⟩⟩ :=
    hserver.create_cases (by omega) hsize hcreate
  · cases hnone
  cases hid
  have hlive : 0 ∈ s₁.live := by
    rw [WsServer.mem_live, hset]
    exact ⟨_, List.getElem?_set_self hlt⟩
  have hlength : s₁.sessions.length = 65536 := by rw [hset, List.length_set, hslots]
  obtain ⟨s₂, hremove, -⟩ := hinv.remove_small (by omega) (by omega) hlive
  exact ⟨_, s₁, s₂, h₀, hcreate, hremove⟩

def timedOut : List Action :=
  [.connect, .resume 0 {}, .event 0 .pingTimeout, .resume 0 {}, .resume 0 {}, .resume 0 {},
    .resume 0 {}]

theorem timed_out_is_removed_once :
    ∃ s₀ w w', getInstance = some s₀ ∧
      exec Clients.step ⟨s₀, []⟩ (timedOut.take 6) = some w ∧
      w.calls = [⟨.returned (-1), .closed, some 0, 1⟩] ∧
      exec Clients.step ⟨s₀, []⟩ timedOut = some w' ∧
      w'.calls = [⟨.ended, .closed, some 0, 1⟩] ∧ w.RemovesOnce ∧ w'.RemovesOnce := by
  obtain ⟨s₀, s₁, s₂, h₀, hcreate, hremove⟩ := first_session
  have hopen : Conn.run 0 {} s₀ .new = some (s₁, ⟨.opening 0, .opened, some 0, 0⟩) := by
    show Option.map _ (s₀.createSession (WsSession.mk 0) true true) = _
    rw [hcreate]
    rfl
  have hfinish : Conn.run 0 {} s₁ ⟨.closeDone 0 .remove, .closed, some 0, 0⟩ =
      some (s₂, ⟨.returned (-1), .closed, some 0, 1⟩) := by
    simp only [Conn.run, removeAndFinish, hremove, Option.map_some]
    rfl
  have hremoved : Clients.step ⟨s₁, [⟨.closeDone 0 .remove, .closed, some 0, 0⟩]⟩ (.resume 0 {}) =
      some ⟨s₂, [⟨.returned (-1), .closed, some 0, 1⟩]⟩ := advance_eq rfl hfinish
  have hrun : exec Clients.step ⟨s₀, []⟩ (timedOut.take 6) =
      some ⟨s₂, [⟨.returned (-1), .closed, some 0, 1⟩]⟩ := by
    have hclose : exec Clients.step ⟨s₀, []⟩ (timedOut.take 5) =
        some ⟨s₁, [⟨.closeDone 0 .remove, .closed, some 0, 0⟩]⟩ := by
      simp only [timedOut, List.take, exec, Clients.step, World.enter, World.advance,
        List.nil_append, List.getElem?_cons_zero, Option.bind_some, hopen, Option.map_some,
        List.set_cons_zero]
      rfl
    have htake : timedOut.take 6 = timedOut.take 5 ++ [.resume 0 {}] := rfl
    rw [htake, exec_append, hclose, Option.bind_some, exec, hremoved]
    rfl
  have hend : exec Clients.step ⟨s₀, []⟩ timedOut =
      some ⟨s₂, [⟨.ended, .closed, some 0, 1⟩]⟩ := by
    have hsplit : timedOut = timedOut.take 6 ++ [.resume 0 {}] := rfl
    rw [hsplit, exec_append, hrun]
    rfl
  exact ⟨s₀, _, _, h₀, hrun, rfl, hend, rfl, session_removed_once s₀ h₀ _ _ hrun,
    session_removed_once s₀ h₀ _ _ hend⟩

end MSylar.WebSocket.HandleClient
