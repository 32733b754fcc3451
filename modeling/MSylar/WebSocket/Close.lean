import MSylar.WebSocket.FrameBuffer
import MSylar.WebSocket.HandleClient
import MSylar.WebSocket.SendFrame

/-!
# Sending and closing (wsserver.cc:205-271, session.cc:131-133)

Calls of `co_sendFrame` and `co_close` on one session run concurrently. `co_close` gives its frame to
`sendMessage` directly, past the queue of `co_sendFrame`; `co_sendFrame` takes a frame of any opcode.
`sendMessage` may take a part of a frame only, and neither function sends the rest.
-/

namespace MSylar.WebSocket
open MSylar.Calls MSylar.Execution HandleClient
variable {β : Type*}

/-- What `make` gives, with the opcode of the frame. -/
structure Encoding (β : Type*) where
  opcode : UInt8
  bytes : List β

/-- The wire carries four bits of the opcode. -/
def Encoding.close (e : Encoding β) : Bool := e.opcode &&& 0xF = opClose

abbrev Packet (β : Type*) := ℕ × Encoding β

/-- `written` records the packets of which the socket has taken bytes, and how many. -/
structure Outgoing (β : Type*) where
  sending : Sending (Encoding β)
  state : State
  written : List (Packet β × ℕ)
  failed : Bool

/-- `sent` is the number of bytes that are taken, or nothing for `-1`; after that nothing more is
written. -/
def Outgoing.sendMessage (s : Outgoing β) (p : Packet β) : Option ℕ → Option (Outgoing β)
  | none => some { s with failed := true }
  | some k =>
    if s.failed = false ∧ 0 < k ∧ k ≤ p.2.bytes.length then
      some { s with written := s.written ++ [(p, k)] }
    else none

def Outgoing.write (s : Outgoing β) (sent : Option ℕ) : Option (Packet β) → Option (Outgoing β)
  | none => some s
  | some p => s.sendMessage p sent

def Outgoing.pass (s : Outgoing β) (p : Packet β) : Outgoing β :=
  { s with sending := { s.sending with passed := s.sending.passed ++ [p] } }

/-- Where a call of `co_close` stands; each point is followed by one atomic step. -/
inductive ClosePoint where
  | check
  | update
  | send
  | finish
  | returned
  deriving DecidableEq

structure CloseCall (β : Type*) where
  id : ℕ
  data : List β
  point : ClosePoint

def CloseCall.packet (c : CloseCall β) : Packet β := (c.id, ⟨opClose, c.data⟩)

/-- The next step of `co_close`; `valid` is whether the socket is valid. -/
def CloseCall.coClose (sent : Option ℕ) (valid : Bool) (s : Outgoing β) (c : CloseCall β) :
    Option (Outgoing β × CloseCall β) :=
  match c.point with
  | .check =>
    if s.state = .closed ∨ s.state = .closing then some (s, { c with point := .returned })
    else some (s, { c with point := .update })
  | .update =>
    if valid then some ({ s with state := .closing }, { c with point := .send })
    else some ({ s with state := .closed }, { c with point := .returned })
  | .send => (s.sendMessage c.packet sent).map fun s => (s.pass c.packet, { c with point := .finish })
  | .finish => some ({ s with state := .closed }, { c with point := .returned })
  | .returned => none

inductive WsCall (β : Type*) where
  | send (c : SendCall (Encoding β))
  | close (c : CloseCall β)

/-- The packet that the next step gives to `sendMessage`. -/
def SendCall.passing (c : SendCall β) : Option (ℕ × β) :=
  match c.point with
  | .sendOwn => some c.packet
  | .drain (data :: _) => some data
  | _ => none

def WsCall.passing : WsCall β → Option (Packet β)
  | .send c => c.passing
  | .close c => if c.point = .send then some c.packet else none

def SendCall.run (sent : Option ℕ) (s : Outgoing β) (c : SendCall (Encoding β)) :
    Option (Outgoing β × SendCall (Encoding β)) :=
  (s.write sent c.passing).bind fun s =>
    (c.coSendFrame sent.isSome s.sending).map fun res => ({ s with sending := res.1 }, res.2)

def WsCall.run (sent : Option ℕ) (valid : Bool) (s : Outgoing β) :
    WsCall β → Option (Outgoing β × WsCall β)
  | .send c => (c.run sent s).map fun res => (res.1, .send res.2)
  | .close c => (c.coClose sent valid s).map fun res => (res.1, .close res.2)

abbrev WsCalls (β : Type*) := World (Outgoing β) (WsCall β)

/-- `clean` is any other code that sets the state to CLOSED. -/
inductive WsAction (β : Type*) where
  | sendFrame (opcode : UInt8) (data : List β)
  | close (data : List β)
  | next (i : ℕ) (sent : Option ℕ) (valid : Bool)
  | clean

namespace WsCalls

def init : WsCalls β := ⟨⟨⟨.ready, [], []⟩, .opened, [], false⟩, []⟩

def step (w : WsCalls β) : WsAction β → Option (WsCalls β)
  | .sendFrame opcode data => some (w.enter (.send ⟨w.calls.length, ⟨opcode, data⟩, .start⟩))
  | .close data => some (w.enter (.close ⟨w.calls.length, data, .check⟩))
  | .next i sent valid => w.advance (WsCall.run sent valid) i
  | .clean => some { w with shared := { w.shared with state := .closed } }

end WsCalls

/-! ### Whole frames on the wire -/

/-- The bytes of a packet, each with the number of its call. -/
def tagged (p : Packet β) : List (ℕ × β) := p.2.bytes.map fun x => (p.1, x)

def Outgoing.wire (s : Outgoing β) : List (ℕ × β) :=
  s.written.flatMap fun q => (tagged q.1).take q.2

/-- Whole frames, and then at most one that has been sent in part. -/
def Framed (frames : List (Packet β)) (wire : List (ℕ × β)) : Prop :=
  ∃ (whole : List (Packet β)) (part : List (ℕ × β)), (∀ p ∈ whole, p ∈ frames) ∧
    wire = whole.flatMap tagged ++ part ∧ (part = [] ∨ ∃ p ∈ frames, part <+: tagged p)

/-- Bytes are sent only behind a frame that has been sent completely. -/
def WsCalls.afterWhole (w : WsCalls β) : WsAction β → Prop
  | .next i (some _) _ => ∀ c ∈ w.calls[i]?, c.passing.isSome →
      ∀ q ∈ w.shared.written.getLast?, q.2 = q.1.2.bytes.length
  | _ => True

instance (w : WsCalls β) : ∀ a, Decidable (w.afterWhole a)
  | .next i (some _) _ => inferInstanceAs (Decidable (∀ c ∈ w.calls[i]?, c.passing.isSome →
      ∀ q ∈ w.shared.written.getLast?, q.2 = q.1.2.bytes.length))
  | .next _ none _ => isTrue trivial
  | .sendFrame _ _ => isTrue trivial
  | .close _ => isTrue trivial
  | .clean => isTrue trivial

theorem coSendFrame_passed {ok : Bool} {s s' : Sending β} {c c' : SendCall β}
    (h : c.coSendFrame ok s = some (s', c')) : s'.passed = s.passed ++ c.passing.toList := by
  obtain ⟨q, -, hnext⟩ := SendCall.next_of_coSendFrame h
  obtain ⟨number, data, point⟩ := c
  unfold SendCall.passing
  cases hnext with
  | take => exact (List.append_nil _).symm
  | wait => exact (List.append_nil _).symm
  | enqueue => exact (List.append_nil _).symm
  | sent => rfl
  | failed => rfl
  | release => exact (List.append_nil _).symm
  | swap => exact (List.append_nil _).symm
  | drained => exact (List.append_nil _).symm
  | drain => rfl

theorem sendMessage_cases {s s' : Outgoing β} {p : Packet β} {sent : Option ℕ}
    (h : s.sendMessage p sent = some s') : s'.sending = s.sending ∧ s'.state = s.state ∧
      (sent = none ∧ s'.written = s.written ∨
        ∃ k, sent = some k ∧ k ≤ p.2.bytes.length ∧ s'.written = s.written ++ [(p, k)]) := by
  cases sent with
  | none =>
    cases h
    exact ⟨rfl, rfl, .inl ⟨rfl, rfl⟩⟩
  | some k =>
    simp only [Outgoing.sendMessage, Option.ite_none_right_eq_some, Option.some.injEq] at h
    obtain ⟨⟨_, _, hle⟩, rfl⟩ := h
    exact ⟨rfl, rfl, .inr ⟨k, rfl, hle, rfl⟩⟩

/-- What a step adds to the packets passed on and to those of which bytes are written. -/
theorem run_passing {sent : Option ℕ} {valid : Bool} {s s' : Outgoing β} {c c' : WsCall β}
    (h : c.run sent valid s = some (s', c')) :
    s'.sending.passed = s.sending.passed ++ c.passing.toList ∧
      (s'.written = s.written ∨ ∃ p k, c.passing = some p ∧ sent = some k ∧
        k ≤ p.2.bytes.length ∧ s'.written = s.written ++ [(p, k)]) := by
  cases c with
  | send c =>
    obtain ⟨⟨s₂, c₂⟩, hrun, heq⟩ := Option.map_eq_some_iff.mp h
    cases heq
    obtain ⟨s₁, hwrite, hrun⟩ := Option.bind_eq_some_iff.mp hrun
    obtain ⟨⟨sending, c₃⟩, hsend, heq⟩ := Option.map_eq_some_iff.mp hrun
    cases heq
    have hpassed := coSendFrame_passed hsend
    show sending.passed = s.sending.passed ++ c.passing.toList ∧ (s₁.written = s.written ∨
      ∃ p k, c.passing = some p ∧ sent = some k ∧ k ≤ p.2.bytes.length ∧
        s₁.written = s.written ++ [(p, k)])
    cases hpassing : c.passing with
    | none =>
      rw [hpassing] at hwrite hpassed
      cases hwrite
      exact ⟨hpassed, .inl rfl⟩
    | some p =>
      rw [hpassing] at hwrite hpassed
      obtain ⟨hsending, _, hwritten⟩ := sendMessage_cases hwrite
      rw [hsending] at hpassed
      refine ⟨hpassed, ?_⟩
      rcases hwritten with ⟨_, hsame⟩ | ⟨k, hsent, hle, hwritten⟩
      · exact .inl hsame
      · exact .inr ⟨p, k, rfl, hsent, hle, hwritten⟩
  | close c =>
    obtain ⟨⟨s₂, c₂⟩, hrun, heq⟩ := Option.map_eq_some_iff.mp h
    cases heq
    obtain ⟨number, data, point⟩ := c
    cases point with
    | check =>
      simp only [CloseCall.coClose] at hrun
      split at hrun <;> cases hrun <;> exact ⟨(List.append_nil _).symm, .inl rfl⟩
    | update =>
      simp only [CloseCall.coClose] at hrun
      split at hrun <;> cases hrun <;> exact ⟨(List.append_nil _).symm, .inl rfl⟩
    | finish =>
      cases hrun
      exact ⟨(List.append_nil _).symm, .inl rfl⟩
    | returned => cases hrun
    | send =>
      obtain ⟨s₁, hsend, heq⟩ := Option.map_eq_some_iff.mp hrun
      cases heq
      obtain ⟨hsending, _, hwritten⟩ := sendMessage_cases hsend
      have hpassed : s₁.sending.passed ++ [CloseCall.packet ⟨number, data, .send⟩] =
          s.sending.passed ++ [CloseCall.packet ⟨number, data, .send⟩] := by rw [hsending]
      refine ⟨hpassed, ?_⟩
      rcases hwritten with ⟨_, hsame⟩ | ⟨k, hsent, hle, hwritten⟩
      · exact .inl hsame
      · exact .inr ⟨_, k, rfl, hsent, hle, hwritten⟩

/-- All packets but the last one have been written completely. -/
structure Outgoing.Whole (s : Outgoing β) : Prop where
  whole : ∀ q ∈ s.written.dropLast, q.2 = q.1.2.bytes.length
  passed : ∀ q ∈ s.written, q.1 ∈ s.sending.passed

theorem Outgoing.Whole.framed {s : Outgoing β} (h : s.Whole) : Framed s.sending.passed s.wire := by
  have hwhole : ∀ l : List (Packet β × ℕ), (∀ q ∈ l, q.2 = q.1.2.bytes.length) →
      (l.flatMap fun q => (tagged q.1).take q.2) = (l.map Prod.fst).flatMap tagged := by
    intro l hl
    rw [List.flatMap_map]
    refine List.flatMap_congr fun q hq => ?_
    refine List.take_of_length_le ?_
    rw [hl q hq, tagged, List.length_map]
  unfold Outgoing.wire
  rcases List.eq_nil_or_concat s.written with hnil | ⟨l, q, hwritten⟩
  · rw [hnil]
    refine ⟨[], [], fun p hp => ?_, rfl, .inl rfl⟩
    cases hp
  · have hlast := h.passed
    have hfirst := h.whole
    rw [List.concat_eq_append] at hwritten
    rw [hwritten] at hlast hfirst ⊢
    rw [List.dropLast_concat] at hfirst
    rw [List.flatMap_append, hwhole l hfirst, List.flatMap_singleton]
    refine ⟨l.map Prod.fst, _, fun p hp => ?_, rfl, .inr ⟨q.1, ?_, List.take_prefix _ _⟩⟩
    · obtain ⟨q', hq', rfl⟩ := List.mem_map.mp hp
      exact hlast q' (List.mem_append_left _ hq')
    · exact hlast q (List.mem_append_right _ (List.mem_singleton_self q))

theorem Outgoing.Whole.run {w : WsCalls β} (h : w.shared.Whole) {i : ℕ} {sent : Option ℕ}
    {valid : Bool} {c c' : WsCall β} {s : Outgoing β} (hc : w.calls[i]? = some c)
    (hg : w.afterWhole (.next i sent valid)) (hrun : c.run sent valid w.shared = some (s, c')) :
    s.Whole := by
  obtain ⟨hpassed, hwritten⟩ := run_passing hrun
  have hold : ∀ q ∈ w.shared.written, q.1 ∈ s.sending.passed := by
    intro q hq
    rw [hpassed]
    exact List.mem_append_left _ (h.passed q hq)
  rcases hwritten with hsame | ⟨p, k, hpassing, rfl, _, hwritten⟩
  · constructor
    · rw [hsame]
      exact h.whole
    · rw [hsame]
      exact hold
  · have hlast : ∀ q ∈ w.shared.written.getLast?, q.2 = q.1.2.bytes.length := by
      refine hg c hc ?_
      rw [hpassing]
      rfl
    refine ⟨fun q hq => ?_, fun q hq => ?_⟩
    · rw [hwritten, List.dropLast_concat] at hq
      rcases List.eq_nil_or_concat w.shared.written with hnil | ⟨l, r, hconcat⟩
      · rw [hnil] at hq
        cases hq
      · have hwhole := h.whole
        rw [List.concat_eq_append] at hconcat
        rw [hconcat, List.dropLast_concat] at hwhole
        rw [hconcat] at hq hlast
        rcases List.mem_append.mp hq with hq | hq
        · exact hwhole q hq
        · rw [List.mem_singleton.mp hq]
          exact hlast r (List.getLast?_concat ..)
    · rw [hwritten] at hq
      rcases List.mem_append.mp hq with hq | hq
      · exact hold q hq
      · rw [List.mem_singleton.mp hq, hpassed, hpassing]
        exact List.mem_append_right _ (List.mem_singleton_self p)

theorem WsCalls.whole_step {w w' : WsCalls β} {a : WsAction β} (h : w.shared.Whole)
    (hg : w.afterWhole a) (hs : w.step a = some w') : w'.shared.Whole := by
  cases a with
  | sendFrame opcode data =>
    cases hs
    exact h
  | close data =>
    cases hs
    exact h
  | clean =>
    cases hs
    exact ⟨h.whole, h.passed⟩
  | next i sent valid =>
    obtain ⟨c, s, c', hc, hrun, rfl⟩ := advance_cases hs
    exact h.run hc hg hrun

/-- In a run that never sends a byte behind a frame of which a part was sent, the bytes on the wire
are whole frames and at most one prefix of a frame. -/
theorem wire_holds_whole_frames {as : List (WsAction β)} {w : WsCalls β}
    (hg : Guarded WsCalls.step WsCalls.afterWhole WsCalls.init as)
    (hw : exec WsCalls.step WsCalls.init as = some w) :
    Framed w.shared.sending.passed w.shared.wire := by
  have hinit : (WsCalls.init : WsCalls β).shared.Whole := by
    refine ⟨fun q hq => ?_, fun q hq => ?_⟩ <;> cases hq
  have hwhole : w.shared.Whole :=
    @exec_guarded _ _ WsCalls.step WsCalls.afterWhole (fun v => v.shared.Whole)
      (fun _ _ _ => WsCalls.whole_step) _ _ _ hinit hg hw
  exact hwhole.framed

/-- Call 1 queues its frame behind call 0; the close frame of call 2 is sent in part. -/
def sendTwoAndClose (first : ℕ) : List (WsAction Char) :=
  [.sendFrame 1 ['a', 'b'], .next 0 none true, .sendFrame 1 ['c', 'd'], .next 1 none true,
    .next 1 none true, .next 0 (some first) true, .next 0 none true, .next 0 (some 2) true,
    .close ['x', 'y'], .next 2 none true, .next 2 none true, .next 2 (some 1) true]

theorem two_frames_and_part_of_third :
    ∃ w, exec WsCalls.step WsCalls.init (sendTwoAndClose 2) = some w ∧
      w.shared.wire = [(0, 'a'), (0, 'b'), (1, 'c'), (1, 'd'), (2, 'x')] ∧
      Framed w.shared.sending.passed w.shared.wire :=
  ⟨_, rfl, rfl, @wire_holds_whole_frames _ (sendTwoAndClose 2) _ (by decide) rfl⟩

/-- The rest of a frame that was sent in part is replaced by the next frame. -/
theorem frame_cut_short :
    ¬ ∀ (as : List (WsAction Char)) (w : WsCalls Char), exec WsCalls.step WsCalls.init as = some w →
      Framed w.shared.sending.passed w.shared.wire := by
  intro hall
  obtain ⟨w, hrun, hpassed, hwire⟩ : ∃ w : WsCalls Char,
      exec WsCalls.step WsCalls.init (sendTwoAndClose 1) = some w ∧
      w.shared.sending.passed.map tagged =
        [[(0, 'a'), (0, 'b')], [(1, 'c'), (1, 'd')], [(2, 'x'), (2, 'y')]] ∧
      w.shared.wire = [(0, 'a'), (1, 'c'), (1, 'd'), (2, 'x')] := ⟨_, rfl, rfl, rfl⟩
  obtain ⟨whole, part, hwhole, hsplit, hpart⟩ := hall _ w hrun
  have hframe : ∀ p ∈ w.shared.sending.passed, tagged p = [(0, 'a'), (0, 'b')] ∨
      tagged p = [(1, 'c'), (1, 'd')] ∨ tagged p = [(2, 'x'), (2, 'y')] := by
    intro p hp
    have hmem := List.mem_map_of_mem (f := tagged) hp
    rw [hpassed] at hmem
    simpa using hmem
  rw [hwire] at hsplit
  cases whole with
  | nil =>
    rw [List.flatMap_nil, List.nil_append] at hsplit
    rcases hpart with rfl | ⟨p, hp, hprefix⟩
    · cases hsplit
    · rw [← hsplit] at hprefix
      rcases hframe p hp with heq | heq | heq <;> rw [heq] at hprefix <;> revert hprefix <;> decide
  | cons p whole =>
    rw [List.flatMap_cons] at hsplit
    rcases hframe p (hwhole p List.mem_cons_self) with heq | heq | heq <;> rw [heq] at hsplit <;>
      simp at hsplit

/-! ### The close frame comes last -/

/-- A call that is going to pass on a frame, or to put one into the queue. -/
def WsCall.owes : WsCall β → Bool
  | .send c =>
    match c.point with
    | .start => true
    | .enqueue => true
    | .sendOwn => true
    | .drain (_ :: _) => true
    | _ => false
  | .close c => c.point = .update ∨ c.point = .send

def WsCall.sendsClose : WsCall β → Bool
  | .send _ => false
  | .close c => c.point = .send

/-- A close frame is sent by `co_close` alone, when no other call owes a frame and none is queued, and
`co_sendFrame` is not called any more then. -/
def WsCalls.settled (w : WsCalls β) : WsAction β → Prop
  | .sendFrame opcode _ => opcode &&& 0xF ≠ opClose ∧
      ∀ p ∈ w.shared.sending.passed, p.2.close = false
  | .next i _ _ => ∀ c ∈ w.calls[i]?, c.sendsClose = true →
      w.shared.sending.sendBuffer = [] ∧ ∀ d ∈ w.calls.eraseIdx i, d.owes = false
  | _ => True

instance (w : WsCalls β) : ∀ a, Decidable (w.settled a)
  | .next i _ _ => inferInstanceAs (Decidable (∀ c ∈ w.calls[i]?, c.sendsClose = true →
      w.shared.sending.sendBuffer = [] ∧ ∀ d ∈ w.calls.eraseIdx i, d.owes = false))
  | .sendFrame opcode _ => inferInstanceAs (Decidable (opcode &&& 0xF ≠ opClose ∧
      ∀ p ∈ w.shared.sending.passed, p.2.close = false))
  | .close _ => isTrue trivial
  | .clean => isTrue trivial

/-- The frames of `co_sendFrame` calls are not close frames. -/
def Outgoing.plain (s : Outgoing β) : Prop := ∀ p ∈ s.sending.sendBuffer, p.2.close = false

def WsCall.plain : WsCall β → Prop
  | .send c => c.data.close = false ∧ ∀ toSend, c.point = .drain toSend →
      ∀ p ∈ toSend, p.2.close = false
  | .close _ => True

def Outgoing.ending (s : Outgoing β) : Prop := s.state = .closing ∨ s.state = .closed

/-- A `co_close` that has set the state. -/
def WsCall.past : WsCall β → Prop
  | .send _ => False
  | .close c => c.point = .send ∨ c.point = .finish

/-- Nothing more is going to be sent. -/
structure WsCalls.Quiet (w : WsCalls β) : Prop where
  buffer : w.shared.sending.sendBuffer = []
  calls : ∀ c ∈ w.calls, c.owes = false
  ending : w.shared.ending

structure WsCalls.Inv (w : WsCalls β) : Prop where
  plain : w.shared.plain ∧ ∀ c ∈ w.calls, c.plain
  past : (∃ c ∈ w.calls, c.past) → w.shared.ending
  last : (∀ p ∈ w.shared.sending.passed, p.2.close = false) ∨
    w.Quiet ∧ ∃ l p, w.shared.sending.passed = l ++ [p] ∧ ∀ q ∈ l, q.2.close = false

theorem send_run_cases {sent : Option ℕ} {s s' : Outgoing β} {c c' : SendCall (Encoding β)}
    (h : c.run sent s = some (s', c')) :
    c.coSendFrame sent.isSome s.sending = some (s'.sending, c') ∧ s'.state = s.state := by
  obtain ⟨s₁, hwrite, hrun⟩ := Option.bind_eq_some_iff.mp h
  obtain ⟨⟨sending, c₁⟩, hsend, heq⟩ := Option.map_eq_some_iff.mp hrun
  cases heq
  have hsame : s₁.sending = s.sending ∧ s₁.state = s.state := by
    cases hpassing : c.passing with
    | none =>
      rw [hpassing] at hwrite
      cases hwrite
      exact ⟨rfl, rfl⟩
    | some p =>
      rw [hpassing] at hwrite
      obtain ⟨hsending, hstate, _⟩ := sendMessage_cases hwrite
      exact ⟨hsending, hstate⟩
  rw [hsame.1] at hsend
  exact ⟨hsend, hsame.2⟩

theorem coSendFrame_plain {ok : Bool} {s s' : Sending (Encoding β)} {c c' : SendCall (Encoding β)}
    (h : c.coSendFrame ok s = some (s', c')) (hs : ∀ p ∈ s.sendBuffer, p.2.close = false)
    (hc : (WsCall.send c).plain) :
    (∀ p ∈ s'.sendBuffer, p.2.close = false) ∧ (WsCall.send c').plain ∧
      ∀ p ∈ c.passing.toList, p.2.close = false := by
  obtain ⟨q, rfl, hnext⟩ := SendCall.next_of_coSendFrame h
  obtain ⟨number, data, point⟩ := c
  obtain ⟨hdata, hdrain⟩ := hc
  have hother : (∀ toSend, q ≠ .drain toSend) → (WsCall.send ⟨number, data, q⟩).plain :=
    fun hq => ⟨hdata, fun toSend heq => absurd heq (hq toSend)⟩
  have hnone : ∀ p ∈ (none : Option (Packet β)).toList, p.2.close = false := by
    intro p hp
    cases hp
  have hown : ∀ p ∈ [((number, data) : Packet β)], p.2.close = false := by
    intro p hp
    rw [List.mem_singleton.mp hp]
    exact hdata
  unfold SendCall.passing
  cases hnext with
  | take => exact ⟨hs, hother (by simp), hnone⟩
  | wait => exact ⟨hs, hother (by simp), hnone⟩
  | enqueue =>
    refine ⟨fun p hp => ?_, hother (by simp), hnone⟩
    rcases List.mem_append.mp hp with hp | hp
    · exact hs p hp
    · exact hown p hp
  | sent => exact ⟨hs, hother (by simp), hown⟩
  | failed => exact ⟨hs, hother (by simp), hown⟩
  | release => exact ⟨hs, hother (by simp), hnone⟩
  | swap =>
    refine ⟨fun p hp => ?_, ⟨hdata, fun toSend heq => ?_⟩, hnone⟩
    · cases hp
    · cases heq
      exact hs
  | drained => exact ⟨hs, hother (by simp), hnone⟩
  | drain p toSend =>
    have hplain := hdrain (p :: toSend) rfl
    refine ⟨hs, ⟨hdata, fun toSend' heq => ?_⟩, fun q hq => ?_⟩
    · cases heq
      exact fun q hq => hplain q (List.mem_cons_of_mem p hq)
    · rw [List.mem_singleton.mp hq]
      exact hplain p List.mem_cons_self

theorem coSendFrame_quiet {ok : Bool} {s s' : Sending (Encoding β)} {c c' : SendCall (Encoding β)}
    (h : c.coSendFrame ok s = some (s', c')) (hs : s.sendBuffer = [])
    (hc : (WsCall.send c).owes = false) :
    s'.sendBuffer = [] ∧ (WsCall.send c').owes = false ∧ c.passing = none := by
  obtain ⟨q, rfl, hnext⟩ := SendCall.next_of_coSendFrame h
  obtain ⟨number, data, point⟩ := c
  unfold SendCall.passing
  cases hnext with
  | take => cases hc
  | wait => cases hc
  | enqueue => cases hc
  | sent => cases hc
  | failed => cases hc
  | release => exact ⟨hs, rfl, rfl⟩
  | swap hqueued => exact absurd hs hqueued
  | drained => exact ⟨hs, rfl, rfl⟩
  | drain => cases hc

theorem coClose_spec {sent : Option ℕ} {valid : Bool} {s s' : Outgoing β} {c c' : CloseCall β}
    (h : c.coClose sent valid s = some (s', c')) :
    s'.sending.sendBuffer = s.sending.sendBuffer ∧ (s.ending → s'.ending) ∧
      ((WsCall.close c').past → (WsCall.close c).past ∨ s'.ending) ∧
      (s.ending → (WsCall.close c).owes = false → (WsCall.close c').owes = false) ∧
      (c.point = .send → (WsCall.close c').owes = false) := by
  obtain ⟨number, data, point⟩ := c
  cases point with
  | check =>
    simp only [CloseCall.coClose] at h
    split at h
    · cases h
      refine ⟨rfl, id, fun hp => ?_, fun _ _ => rfl, fun hp => ?_⟩
      · rcases hp with hp | hp <;> cases hp
      · cases hp
    · rename_i hopen
      cases h
      refine ⟨rfl, id, fun hp => ?_, fun hending _ => ?_, fun hp => ?_⟩
      · rcases hp with hp | hp <;> cases hp
      · exact absurd hending.symm hopen
      · cases hp
  | update =>
    simp only [CloseCall.coClose] at h
    split at h
    · cases h
      refine ⟨rfl, fun _ => .inl rfl, fun _ => .inr (.inl rfl), fun _ howes => ?_, fun hp => ?_⟩
      · cases howes
      · cases hp
    · cases h
      refine ⟨rfl, fun _ => .inr rfl, fun _ => .inr (.inr rfl), fun _ howes => ?_, fun hp => ?_⟩
      · cases howes
      · cases hp
  | send =>
    obtain ⟨s₁, hsend, heq⟩ := Option.map_eq_some_iff.mp h
    cases heq
    obtain ⟨hsending, hstate, _⟩ := sendMessage_cases hsend
    have hbuffer : s₁.sending.sendBuffer = s.sending.sendBuffer := by rw [hsending]
    refine ⟨hbuffer, fun hending => ?_, fun _ => .inl (.inl rfl),
      fun _ howes => ?_, fun _ => rfl⟩
    · rw [Outgoing.ending, Outgoing.pass, hstate]
      exact hending
    · cases howes
  | finish =>
    cases h
    refine ⟨rfl, fun _ => .inr rfl, fun hp => ?_, fun _ _ => rfl, fun hp => ?_⟩
    · exact .inr (.inr rfl)
    · cases hp
  | returned => cases h

theorem WsCalls.Inv.send {w : WsCalls β} (h : w.Inv) {i : ℕ} {c c' : SendCall (Encoding β)}
    (hc : w.calls[i]? = some (.send c)) {sent : Option ℕ} {s : Outgoing β}
    (hrun : c.run sent w.shared = some (s, c')) :
    WsCalls.Inv ⟨s, w.calls.set i (.send c')⟩ := by
  obtain ⟨hsend, hstate⟩ := send_run_cases hrun
  have hmem := List.mem_of_getElem? hc
  have hpassed := coSendFrame_passed hsend
  have hending : w.shared.ending → s.ending := by
    intro hending
    rw [Outgoing.ending, hstate]
    exact hending
  obtain ⟨hbuffer, hplain, hpassing⟩ := coSendFrame_plain hsend h.plain.1 (h.plain.2 _ hmem)
  refine ⟨⟨hbuffer, forall_set h.plain.2 (fun _ _ hd => hd) hplain⟩, fun hpast => ?_, ?_⟩
  · rcases exists_of_set hpast with hfalse | hpast
    · exact hfalse.elim
    · exact hending (h.past hpast)
  · rcases h.last with hall | ⟨hquiet, l, p, hlast, hall⟩
    · refine .inl fun q hq => ?_
      rw [hpassed] at hq
      rcases List.mem_append.mp hq with hq | hq
      · exact hall q hq
      · exact hpassing q hq
    · obtain ⟨hempty, howes, hnone⟩ := coSendFrame_quiet hsend hquiet.buffer (hquiet.calls _ hmem)
      refine .inr ⟨⟨hempty, forall_set hquiet.calls (fun _ _ hd => hd) howes,
        hending hquiet.ending⟩, l, p, ?_, hall⟩
      dsimp only
      rw [hpassed, hnone, hlast]
      exact List.append_nil _

theorem WsCalls.Inv.close {w : WsCalls β} (h : w.Inv) {i : ℕ} {c c' : CloseCall β}
    (hc : w.calls[i]? = some (.close c)) {sent : Option ℕ} {valid : Bool} {s : Outgoing β}
    (hg : w.settled (.next i sent valid)) (hrun : c.coClose sent valid w.shared = some (s, c')) :
    WsCalls.Inv ⟨s, w.calls.set i (.close c')⟩ := by
  have hmem := List.mem_of_getElem? hc
  obtain ⟨hbuffer, hending, hpast', howes, hsent⟩ := coClose_spec hrun
  have hrun' : (WsCall.close c).run sent valid w.shared = some (s, .close c') := by
    rw [WsCall.run, hrun]
    rfl
  have hpassed := (run_passing hrun').1
  have hplain : s.plain := by
    rw [Outgoing.plain, hbuffer]
    exact h.plain.1
  refine ⟨⟨hplain, forall_set h.plain.2 (fun _ _ hd => hd) trivial⟩, fun hpast => ?_, ?_⟩
  · rcases exists_of_set hpast with hpast | hpast
    · rcases hpast' hpast with hpast | hended
      · exact hending (h.past ⟨_, hmem, hpast⟩)
      · exact hended
    · exact hending (h.past hpast)
  · by_cases hpoint : c.point = .send
    · -- the close frame itself
      obtain ⟨hempty, hothers⟩ := hg _ hc (decide_eq_true hpoint)
      have hended : w.shared.ending := h.past ⟨_, hmem, .inl hpoint⟩
      have hnone : ∀ p ∈ w.shared.sending.passed, p.2.close = false := by
        rcases h.last with hall | ⟨hquiet, _⟩
        · exact hall
        · have hself := hquiet.calls _ hmem
          simp [WsCall.owes, hpoint] at hself
      refine .inr ⟨⟨hbuffer.trans hempty, fun d hd => ?_, hending hended⟩, _, c.packet, ?_, hnone⟩
      · rcases mem_erase_of_mem_set hd with rfl | hd
        · exact hsent hpoint
        · exact hothers d hd
      · dsimp only
        rw [hpassed, WsCall.passing, if_pos hpoint]
        rfl
    · have hsame : s.sending.passed = w.shared.sending.passed := by
        rw [hpassed, WsCall.passing, if_neg hpoint]
        exact List.append_nil _
      rcases h.last with hall | ⟨hquiet, l, p, hlast, hall⟩
      · exact .inl (hsame ▸ hall)
      · exact .inr ⟨⟨hbuffer.trans hquiet.buffer, forall_set hquiet.calls (fun _ _ hd => hd)
          (howes hquiet.ending (hquiet.calls _ hmem)), hending hquiet.ending⟩, l, p,
          hsame.trans hlast, hall⟩

theorem WsCalls.Inv.step {w w' : WsCalls β} {a : WsAction β} (h : w.Inv) (hg : w.settled a)
    (hs : w.step a = some w') : w'.Inv := by
  cases a with
  | sendFrame opcode data =>
    cases hs
    obtain ⟨hopcode, hpassed⟩ := hg
    refine ⟨⟨h.plain.1, forall_enter h.plain.2 ⟨decide_eq_false hopcode, fun toSend heq => ?_⟩⟩,
      fun hpast => ?_, .inl hpassed⟩
    · cases heq
    · exact h.past (exists_of_enter id hpast)
  | close data =>
    cases hs
    refine ⟨⟨h.plain.1, forall_enter h.plain.2 trivial⟩, fun hpast => ?_, ?_⟩
    · refine h.past (exists_of_enter (fun hpast => ?_) hpast)
      rcases hpast with hpast | hpast <;> cases hpast
    · rcases h.last with hall | ⟨hquiet, hlast⟩
      · exact .inl hall
      · exact .inr ⟨⟨hquiet.buffer, forall_enter hquiet.calls rfl, hquiet.ending⟩, hlast⟩
  | clean =>
    cases hs
    refine ⟨h.plain, fun _ => .inr rfl, ?_⟩
    rcases h.last with hall | ⟨hquiet, hlast⟩
    · exact .inl hall
    · exact .inr ⟨⟨hquiet.buffer, hquiet.calls, .inr rfl⟩, hlast⟩
  | next i sent valid =>
    obtain ⟨c, s, c', hc, hrun, rfl⟩ := advance_cases hs
    cases c with
    | send c =>
      obtain ⟨⟨s₁, c₁⟩, hcall, heq⟩ := Option.map_eq_some_iff.mp hrun
      cases heq
      exact h.send hc hcall
    | close c =>
      obtain ⟨⟨s₁, c₁⟩, hcall, heq⟩ := Option.map_eq_some_iff.mp hrun
      cases heq
      exact h.close hc hg hcall

end MSylar.WebSocket
