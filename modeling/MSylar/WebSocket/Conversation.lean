import MSylar.WebSocket.Delivery
import MSylar.WebSocket.Make

/-!
# A session and its handler (wsserver.tpp:6-51, 60-167, 180-183, wsserver.cc:29-74, 90-151, 163-266)

The loop of `handleClient` for one session, from the results of `recv` to the callbacks of the
handler and the frames that are sent. A callback of the handler sends frames and closes its session
(`co_sendFrame`, `co_close`) and returns. The session's timer does not pass through the loop; what is
not here is a timer that gives the session up, an exception of a callback, and code other than the loop
and its callbacks that uses the session.
-/

namespace MSylar.WebSocket
open MSylar.Server

def opText : UInt8 := 0x1
def opPing : UInt8 := 0x9
def opPong : UInt8 := 0xA

inductive Callback where
  | onOpen
  | onMessage (msg : List UInt8)
  | onBinary (data : List UInt8)
  | onClose (code : ℕ) (reason : List UInt8)
  | onPing (reason : List UInt8)
  | onPong (reason : List UInt8)
  | onError (error : String)
  | onBadClose
  deriving DecidableEq

/-- The result of `co_Route` and the callback that it awaits. -/
def coRoute (frame : Frame) : ℤ × Callback :=
  if frame.opcode = opText then (0, .onMessage frame.payloadText)
  else if frame.opcode = opBinary then (0, .onBinary frame.payloadBinary)
  else if frame.opcode = opClose then (0, .onClose frame.closeCode frame.closeReason)
  else if frame.opcode = opPing then (0, .onPing frame.payloadText)
  else if frame.opcode = opPong then (0, .onPong frame.payloadText)
  else (-1, .onError ("Unsupported frame type: " ++ toString frame.opcode.toNat))

/-- What a callback does with its session. -/
inductive Action where
  | sendFrame (frame : Frame)
  | close (code : ℤ) (reason : List UInt8)

/-- The callbacks of `WsHandler`: only `co_onPing` sends a frame. -/
def WsHandler.on : Callback → List Action
  | .onPing reason => [.sendFrame ((Frame.new.setOpcode opPong).setPongPayload reason)]
  | _ => []

def ascii (s : String) : List UInt8 := s.toList.map fun c => UInt8.ofNat c.toNat

/-- The frame that `co_close` sends. -/
def closeFrame (code : ℤ) (reason : List UInt8) : Frame :=
  (Frame.new.setOpcode opClose).setClosePayload (UInt16.ofInt code) reason

/-- `heard` lists the callbacks and `sent` the frames that were made for `sendMessage`; `finished`
says that the session has been removed. -/
structure Conversation where
  receiver : Receiver
  loopCount : ℕ
  heard : List Callback
  sent : List Frame
  finished : Bool

namespace Conversation

section Model
variable (handler : Callback → List Action) (valid : Bool)

/-- `valid` is `getSocket()->isValid()`. -/
def coClose (c : Conversation) (code : ℤ) (reason : List UInt8) : Conversation :=
  if c.receiver.state = .closed ∨ c.receiver.state = .closing then c
  else if !valid then { c with receiver := { c.receiver with state := .closed } }
  else { c with
    receiver := { c.receiver with state := .closed }
    sent := c.sent ++ [closeFrame code reason] }

def act (c : Conversation) : Action → Conversation
  | .sendFrame frame => { c with sent := c.sent ++ [frame] }
  | .close code reason => coClose valid c code reason

def hear (c : Conversation) (e : Callback) : Conversation :=
  (handler e).foldl (act valid) { c with heard := c.heard ++ [e] }

/-- What follows the loop where it does not return the id of the session. -/
def leave (c : Conversation) : Conversation :=
  if c.receiver.state ≠ .closed then
    let c := { c with receiver := { c.receiver with state := .closed } }
    { hear handler valid c .onBadClose with finished := true }
  else { c with finished := true }

/-- The head of the loop and the beginning of `co_recvFrame`. After 1000 rounds `handleClient` returns
the id, and `registerUrl` calls it again. -/
def loop (c : Conversation) : Conversation :=
  if c.receiver.state = .closed then leave handler valid c
  else { c with
    loopCount := (if c.loopCount < 1000 then c.loopCount else 0) + 1
    receiver := c.receiver.enter }

def route (c : Conversation) (f : Frame) : Conversation :=
  let state := (coRoute f).1
  let c := hear handler valid c (coRoute f).2
  if f.opcode = opClose then leave handler valid (coClose valid c f.closeCode f.closeReason)
  else if state ≠ 0 then leave handler valid (coClose valid c 1002 (ascii "Protocol Error"))
  else loop handler valid c

/-- The rest of a round, after `co_recvFrame` has returned. -/
def round (c : Conversation) (rt : ℤ) : Conversation :=
  if rt = 0 ∨ rt = -1 ∨ rt = -2 then leave handler valid c
  else
    let r := getFrame c.receiver.frames
    let c := { c with receiver := { c.receiver with frames := r.2 } }
    match r.1 with
    | none => leave handler valid (coClose valid c 1000 (ascii "Normal Closure"))
    | some f => route handler valid c f

/-- Rounds up to the next `recv`; `fuel` bounds their number. -/
def settle : ℕ → Conversation → Conversation
  | 0, c => c
  | fuel + 1, c =>
    if c.finished then c
    else
      match c.receiver.point with
      | .returned rt => settle fuel (round handler valid c rt)
      | _ => c

def start (session : Session) (memory : List UInt8) : Conversation :=
  loop handler valid (hear handler valid ⟨.start session memory, 0, [], [], false⟩ .onOpen)

/-- One result of `recv`. -/
def read (alloc : ℕ → Bool) (maxRequestSize : ℕ) (c : Conversation) (r : Recv UInt8) :
    Conversation :=
  if c.finished then c
  else if c.receiver.point = .receiving then
    let receiver := c.receiver.recvFrame alloc maxRequestSize r
    settle handler valid (receiver.frames.frames.length + 1) { c with receiver := receiver }
  else c

def run (alloc : ℕ → Bool) (maxRequestSize : ℕ) (session : Session) (memory : List UInt8)
    (rs : List (Recv UInt8)) : Conversation :=
  rs.foldl (read handler valid alloc maxRequestSize) (start handler valid session memory)

end Model

end Conversation

/-! ### What the peer is to see -/

/-- What the loop calls a callback for. -/
inductive Occasion where
  | opened
  | frame (f : Frame)

def Occasion.callback : Occasion → Callback
  | .opened => .onOpen
  | .frame f => (coRoute f).2

/-- What the loop itself does after the callback. -/
def Occasion.closing : Occasion → List Action
  | .opened => []
  | .frame f =>
    if f.opcode = opClose then [.close f.closeCode f.closeReason]
    else if (coRoute f).1 ≠ 0 then [.close 1002 (ascii "Protocol Error")]
    else []

def Action.closes : Action → Bool
  | .sendFrame _ => false
  | .close _ _ => true

def Action.frame : Action → Option Frame
  | .sendFrame frame => some frame
  | .close _ _ => none

/-- The frames that are sent on an open session: the first `co_close` sends a close frame, a later one
does nothing. -/
def answered (valid : Bool) : List Action → List Frame
  | [] => []
  | .sendFrame frame :: acts => frame :: answered valid acts
  | .close code reason :: acts =>
    (if valid then [closeFrame code reason] else []) ++ acts.filterMap Action.frame

section Spec
variable (handler : Callback → List Action)

def Occasion.acts (o : Occasion) : List Action := handler o.callback ++ o.closing

/-- The session is closed after this occasion. -/
def Occasion.ends (o : Occasion) : Bool := (o.acts handler).any Action.closes

/-- The frames that are sent on an occasion. -/
def Occasion.answers (valid : Bool) (o : Occasion) : List Frame := answered valid (o.acts handler)

/-- The occasions up to the first one that closes the session. -/
def untilEnd : List Occasion → List Occasion
  | [] => []
  | o :: os => if o.ends handler then [o] else o :: untilEnd os

/-- The session as its peer sees it: it is opened, and then come the frames. -/
def occasions (frames : List Frame) : List Occasion := .opened :: frames.map .frame

end Spec

variable {handler : Callback → List Action} {valid : Bool}

theorem untilEnd_initial (a : List Occasion) : untilEnd handler a <+: a := by
  induction a with
  | nil => exact List.prefix_rfl
  | cons o a ih =>
    rw [untilEnd]
    split_ifs
    · exact List.cons_prefix_cons.mpr ⟨rfl, List.nil_prefix⟩
    · exact List.cons_prefix_cons.mpr ⟨rfl, ih⟩

theorem untilEnd_append {a : List Occasion} (h : a.any (Occasion.ends handler) = true)
    (b : List Occasion) : untilEnd handler (a ++ b) = untilEnd handler a := by
  induction a with
  | nil => cases h
  | cons o a ih =>
    rw [List.cons_append, untilEnd, untilEnd]
    split_ifs with ho
    · rfl
    · rw [List.any_cons, Bool.or_eq_true] at h
      rw [ih (h.resolve_left ho)]

theorem untilEnd_append_of_not {a : List Occasion} (h : a.any (Occasion.ends handler) = false)
    (b : List Occasion) : untilEnd handler (a ++ b) = a ++ untilEnd handler b := by
  induction a with
  | nil => rfl
  | cons o a ih =>
    rw [List.any_cons, Bool.or_eq_false_iff] at h
    rw [List.cons_append, untilEnd, if_neg (by rw [h.1]; exact Bool.false_ne_true), ih h.2,
      List.cons_append]

theorem untilEnd_eq_self {a : List Occasion} (h : a.any (Occasion.ends handler) = false) :
    untilEnd handler a = a := by
  have happend := untilEnd_append_of_not h []
  rwa [List.append_nil, untilEnd, List.append_nil] at happend

theorem occasions_append (a b : List Frame) :
    occasions (a ++ b) = occasions a ++ b.map .frame := by
  rw [occasions, occasions, List.map_append, List.cons_append]

namespace Conversation

/-! ### Callbacks -/

/-- The loop goes on: nothing has closed the session. -/
structure Open (c : Conversation) : Prop where
  finished : c.finished = false
  state : c.receiver.state = .opened

theorem acts_closed {c : Conversation} (h : c.receiver.state = .closed) (acts : List Action) :
    acts.foldl (act valid) c = { c with sent := c.sent ++ acts.filterMap Action.frame } := by
  induction acts generalizing c with
  | nil => rw [List.filterMap_nil, List.append_nil, List.foldl_nil]
  | cons a acts ih =>
    cases a with
    | sendFrame frame =>
      rw [List.foldl_cons, act, @ih { c with sent := c.sent ++ [frame] } h]
      dsimp only
      rw [List.append_assoc]
      rfl
    | close code reason =>
      rw [List.foldl_cons, act, coClose, if_pos (.inl h), ih h]
      rfl

/-- What the actions of a callback do on an open session. -/
theorem acts_opened {c : Conversation} (h : c.receiver.state = .opened) (acts : List Action) :
    acts.foldl (act valid) c = { c with
      sent := c.sent ++ answered valid acts
      receiver := if acts.any Action.closes then { c.receiver with state := .closed }
        else c.receiver } := by
  induction acts generalizing c with
  | nil =>
    rw [answered, List.append_nil, List.foldl_nil]
    rfl
  | cons a acts ih =>
    cases a with
    | sendFrame frame =>
      rw [List.foldl_cons, act, @ih { c with sent := c.sent ++ [frame] } h, answered]
      dsimp only
      rw [List.append_assoc]
      rfl
    | close code reason =>
      have hopen : ¬ (c.receiver.state = .closed ∨ c.receiver.state = .closing) := by
        rw [h]
        decide
      rw [List.foldl_cons, act, coClose, if_neg hopen, answered]
      cases valid with
      | true =>
        rw [if_neg (by decide), acts_closed rfl]
        dsimp only
        rw [List.append_assoc]
        rfl
      | false =>
        rw [if_pos (by decide), acts_closed rfl]
        rfl

/-! ### Rounds -/

/-- A callback, what the loop does after it, and the head of the loop or its end. -/
def occur (handler : Callback → List Action) (valid : Bool) (c : Conversation) (o : Occasion) :
    Conversation :=
  (if o.closing = [] then loop handler valid else leave handler valid)
    ((o.acts handler).foldl (act valid) { c with heard := c.heard ++ [o.callback] })

theorem route_eq (c : Conversation) (f : Frame) :
    route handler valid c f = occur handler valid c (.frame f) := by
  unfold route occur Occasion.acts hear
  dsimp only
  by_cases hclose : f.opcode = opClose
  · have hclosing : (Occasion.frame f).closing = [.close f.closeCode f.closeReason] := if_pos hclose
    rw [if_pos hclose, hclosing, if_neg (List.cons_ne_nil _ _), List.foldl_append]
    rfl
  · by_cases hstate : (coRoute f).1 ≠ 0
    · have hclosing : (Occasion.frame f).closing = [.close 1002 (ascii "Protocol Error")] :=
        (if_neg hclose).trans (if_pos hstate)
      rw [if_neg hclose, if_pos hstate, hclosing, if_neg (List.cons_ne_nil _ _), List.foldl_append]
      rfl
    · have hclosing : (Occasion.frame f).closing = [] := (if_neg hclose).trans (if_neg hstate)
      rw [if_neg hclose, if_neg hstate, hclosing, if_pos rfl, List.append_nil]
      rfl

theorem start_eq (session : Session) (memory : List UInt8) :
    start handler valid session memory =
      occur handler valid ⟨.start session memory, 0, [], [], false⟩ .opened := by
  have hclosing : Occasion.opened.closing = [] := rfl
  unfold start occur Occasion.acts hear
  rw [hclosing, if_pos rfl, List.append_nil]
  rfl

theorem occur_ends {c : Conversation} (h : c.Open) {o : Occasion} (ho : o.ends handler = true) :
    occur handler valid c o = { c with
      heard := c.heard ++ [o.callback]
      sent := c.sent ++ o.answers handler valid
      receiver := { c.receiver with state := .closed }
      finished := true } := by
  have hacts := @acts_opened valid { c with heard := c.heard ++ [o.callback] } h.state
    (o.acts handler)
  rw [Occasion.ends] at ho
  rw [if_pos ho] at hacts
  have hleave : ∀ {d : Conversation}, d.receiver.state = .closed →
      leave handler valid d = { d with finished := true } := by
    intro d hd
    rw [leave, if_neg (not_not_intro hd)]
  rw [occur, hacts]
  split_ifs
  · rw [loop, if_pos rfl, hleave rfl]
    rfl
  · rw [hleave rfl]
    rfl

theorem occur_goes {c : Conversation} (h : c.Open) {o : Occasion} (ho : o.ends handler = false) :
    ∃ n, occur handler valid c o = ⟨c.receiver.enter, n, c.heard ++ [o.callback],
      c.sent ++ o.answers handler valid, c.finished⟩ := by
  have hacts := @acts_opened valid { c with heard := c.heard ++ [o.callback] } h.state
    (o.acts handler)
  rw [Occasion.ends] at ho
  rw [if_neg (by rw [ho]; exact Bool.false_ne_true)] at hacts
  have hclosing : o.closing = [] := by
    rw [Occasion.acts, List.any_append, Bool.or_eq_false_iff] at ho
    cases o with
    | opened => rfl
    | frame f =>
      have hnone := ho.2
      dsimp only [Occasion.closing] at hnone ⊢
      split_ifs at hnone ⊢
      · cases hnone
      · cases hnone
      · rfl
  have hstate : ¬ c.receiver.state = .closed := by
    rw [h.state]
    decide
  rw [occur, if_pos hclosing, hacts, loop]
  exact ⟨_, if_neg hstate⟩

theorem settle_over {c : Conversation} (h : c.finished = true) (fuel : ℕ) :
    settle handler valid fuel c = c := by
  cases fuel with
  | zero => rfl
  | succ fuel => exact if_pos h

theorem settle_receiving {c : Conversation} (h : c.receiver.point = .receiving) (fuel : ℕ) :
    settle handler valid fuel c = c := by
  cases fuel with
  | zero => rfl
  | succ fuel =>
    rw [settle, h]
    split_ifs <;> rfl

theorem enter_waiting {r : Receiver} (hstate : r.state = .opened) (hframes : r.frames.frames ≠ []) :
    r.enter = { r with point := .returned 1 } := by
  rw [Receiver.enter, if_neg (not_not_intro hstate),
    if_pos (List.length_pos_iff.mpr hframes)]

theorem enter_empty {r : Receiver} (hstate : r.state = .opened) (hframes : r.frames.frames = []) :
    r.enter = { r with totalLength := 0, point := .receiving, rounds := 0 } := by
  rw [Receiver.enter, if_neg (not_not_intro hstate), hframes]
  rfl

/-- The receiver after the frames that waited have been taken. -/
def emptied (r : Receiver) : Receiver :=
  { r with
    frames := { r.frames with frames := [] }
    totalLength := 0
    point := .receiving
    rounds := 0 }

/-- The frames that wait are taken one after the other, up to one that closes the session. -/
theorem settle_frames {frames : List Frame} (hne : frames ≠ []) {c : Conversation} (h : c.Open)
    (hpoint : c.receiver.point = .returned 1) (hframes : c.receiver.frames.frames = frames)
    {fuel : ℕ} (hfuel : frames.length < fuel) :
    (settle handler valid fuel c).heard =
        c.heard ++ (untilEnd handler (frames.map .frame)).map Occasion.callback ∧
      (settle handler valid fuel c).sent = c.sent ++
        (untilEnd handler (frames.map .frame)).flatMap (Occasion.answers handler valid) ∧
      ((frames.map .frame).any (Occasion.ends handler) = true →
        (settle handler valid fuel c).finished = true) ∧
      ((frames.map .frame).any (Occasion.ends handler) = false →
        (settle handler valid fuel c).finished = false ∧
        (settle handler valid fuel c).receiver = emptied c.receiver) := by
  induction frames generalizing c fuel with
  | nil => exact absurd rfl hne
  | cons f rest ih =>
    obtain ⟨fuel, rfl⟩ : ∃ n, fuel = n + 1 := ⟨fuel - 1, by omega⟩
    rw [List.length_cons, Nat.add_lt_add_iff_right] at hfuel
    let r : Receiver := { c.receiver with frames := { c.receiver.frames with frames := rest } }
    have hr : Open { c with receiver := r } := ⟨h.finished, h.state⟩
    have hround : settle handler valid (fuel + 1) c =
        settle handler valid fuel (occur handler valid { c with receiver := r } (.frame f)) := by
      rw [settle, if_neg (by rw [h.finished]; exact Bool.false_ne_true), hpoint]
      dsimp only
      rw [round, if_neg (by decide), getFrame, hframes, ← route_eq]
    rw [hround, List.map_cons]
    by_cases hf : (Occasion.frame f).ends handler = true
    · have hends := @occur_ends handler valid _ hr _ hf
      rw [hends, settle_over rfl, untilEnd, if_pos hf, List.any_cons, hf]
      refine ⟨rfl, ?_, fun _ => rfl, fun hnot => ?_⟩
      · rw [List.flatMap_singleton]
      · cases hnot
    · rw [Bool.not_eq_true] at hf
      obtain ⟨n, hgoes⟩ := @occur_goes handler valid _ hr _ hf
      dsimp only at hgoes
      have huntil : untilEnd handler (.frame f :: rest.map .frame) =
          .frame f :: untilEnd handler (rest.map .frame) :=
        if_neg (by rw [hf]; exact Bool.false_ne_true)
      have hany : (Occasion.frame f :: rest.map .frame).any (Occasion.ends handler) =
          (rest.map .frame).any (Occasion.ends handler) := by
        rw [List.any_cons, hf, Bool.false_or]
      rw [hgoes, huntil, hany, List.map_cons, List.flatMap_cons]
      have hstate : r.state = .opened := h.state
      by_cases hrest : rest = []
      · subst hrest
        rw [enter_empty hstate rfl, settle_receiving rfl]
        refine ⟨rfl, ?_, fun hends => ?_, fun _ => ⟨h.finished, rfl⟩⟩
        · rw [List.map_nil, untilEnd, List.flatMap_nil, List.append_nil]
        · cases hends
      · rw [enter_waiting hstate hrest]
        obtain ⟨hheard, hsent, hends, hgo⟩ := @ih hrest ⟨{ r with point := .returned 1 }, n,
          c.heard ++ [(Occasion.frame f).callback],
          c.sent ++ (Occasion.frame f).answers handler valid, c.finished⟩
          ⟨h.finished, h.state⟩ rfl rfl fuel hfuel
        refine ⟨hheard.trans ?_, hsent.trans ?_, hends, hgo⟩
        · exact List.append_assoc _ _ _
        · exact List.append_assoc _ _ _

/-! ### Reads -/

/-- Everything that was read has been parsed, and the buffer takes `room` more bytes. -/
structure Roomy (room : ℕ) (b : Buffered UInt8) : Prop where
  cleared : b.Cleared
  room : room ≤ b.session.bufferSize
  size : b.session.bufferSize ≤ b.session.allocated

/-- The bytes `x` have been read. The frames in `x` up to one that closes the session have been heard
and answered, and `v` has been read by the present call of `co_recvFrame`. -/
structure Hears (handler : Callback → List Action) (valid : Bool) (alloc : ℕ → Bool) (room : ℕ)
    (x : List UInt8) (c : Conversation) : Prop where
  heard : c.heard =
    (untilEnd handler (occasions (parsed alloc x).frames)).map Occasion.callback
  sent : c.sent = (untilEnd handler (occasions (parsed alloc x).frames)).flatMap
    (Occasion.answers handler valid)
  ended : (occasions (parsed alloc x).frames).any (Occasion.ends handler) = true →
    c.finished = true
  goes : (occasions (parsed alloc x).frames).any (Occasion.ends handler) = false →
    c.Open ∧ c.receiver.point = .receiving ∧ Roomy room c.receiver.buffer ∧
    c.receiver.frames = { parsed alloc x with frames := [] } ∧
    ∃ u v, x = u ++ v ∧ c.receiver.totalLength = v.length ∧
      (parsed alloc u).frames.length = (parsed alloc x).frames.length

variable {alloc : ℕ → Bool} {maxRequestSize room : ℕ}

theorem Roomy.region {b : Buffered UInt8} (h : Roomy room b) (hpos : 0 < room) :
    b.session.recvRegion = some (0, b.session.bufferSize) := by
  have hroom := h.room
  rw [Session.recvRegion, h.cleared.endPos, if_pos (by omega), Nat.sub_zero]

theorem Roomy.fits {b : Buffered UInt8} (h : Roomy room b) (hpos : 0 < room) {r : Recv UInt8}
    (hr : r.bytes.length ≤ room) : ¬ b.Overruns r := by
  have hroom := h.room
  have hsize := h.size
  rintro ⟨region, hmem, hlong⟩
  rw [h.region hpos, Option.mem_some_iff] at hmem
  subst hmem
  dsimp only at hlong
  omega

/-- A round of `co_recvFrame` that takes all it is given. -/
theorem recvFrame_data {r : Receiver} {y : List UInt8} (hne : y ≠ []) (hroom : y.length ≤ room)
    (hbuffer : Roomy room r.buffer) (hpoint : r.point = .receiving) (hmax : maxRequestSize < 2^32)
    (htotal : r.totalLength + y.length ≤ maxRequestSize)
    (hdone : (consume alloc r.frames y).exit = .done)
    (hparsed : (consume alloc r.frames y).nparsed = y.length) :
    ∃ b, Roomy room b ∧ r.recvFrame alloc maxRequestSize (.data y) =
      { r with
        buffer := b
        rounds := r.rounds + 1
        totalLength := r.totalLength + y.length
        frames := (consume alloc r.frames y).buffer
        fed := r.fed ++ y
        point := if (consume alloc r.frames y).buffer.frames = [] then .receiving
          else .returned 1 } := by
  have hpos := List.length_pos_iff.mpr hne
  have hnonzero : ¬ (y.length : ℤ) = 0 := Int.natCast_ne_zero.mpr hpos.ne'
  have hnonneg : ¬ (y.length : ℤ) < 0 := not_lt.mpr (Int.natCast_nonneg _)
  have hwithin : ¬ maxRequestSize < r.totalLength + y.length := not_lt.mpr htotal
  have hsize := hroom.trans hbuffer.room
  have hfit : y.length ≤ r.buffer.session.allocated := hsize.trans hbuffer.size
  have hfits : ¬ r.buffer.Overruns (.data y) := hbuffer.fits (hpos.trans_le hroom) hroom
  obtain ⟨b, hrecv, hexposed, hcleared, hsame, harray⟩ :=
    hbuffer.cleared.received (hbuffer.region (hpos.trans_le hroom)) hsize hfit hne
  have hsmall := hbuffer.cleared.allocated
  have hadd : Word.add64 r.totalLength y.length = r.totalLength + y.length :=
    Word.add64_of_lt (by omega)
  have hcount : Word.int32 (consume alloc r.frames y).nparsed = y.length := by
    rw [hparsed]
    exact Word.int32_of_lt (by omega)
  refine ⟨(b.consume y.length).2, ⟨hcleared, hsame ▸ hbuffer.room, ?_⟩, ?_⟩
  · rw [hsame, harray]
    exact hbuffer.size
  have hread : ¬ (consume alloc r.frames y).exit = .threw := by
    rw [hdone]
    decide
  unfold Receiver.recvFrame Receiver.received Receiver.parse
  dsimp only
  rw [if_neg hfits, hrecv, Option.elim_some]
  dsimp only
  rw [if_neg hnonzero, if_neg hnonneg, Int.toNat_natCast, hadd, if_neg hwithin, hexposed,
    if_neg hread, hcount, if_neg hnonneg, Int.toNat_natCast]
  by_cases hframes : (consume alloc r.frames y).buffer.frames = []
  · simp only [hframes, List.length_nil, Nat.lt_irrefl, if_false, if_true, hpoint]
  · simp only [List.length_pos_iff.mpr hframes, hframes, if_false, if_true]

theorem Hears.read {fs : List WireFrame} {x y : List UInt8} {c : Conversation}
    (h : Hears handler valid alloc room x c) (hb : Begins alloc fs (x ++ y)) (hne : y ≠ [])
    (hroom : y.length ≤ room) (hmax : maxRequestSize < 2^32)
    (hfit : ∀ f ∈ fs, f.encode.length + y.length ≤ maxRequestSize) :
    Hears handler valid alloc room (x ++ y)
      (c.read handler valid alloc maxRequestSize (.data y)) := by
  obtain ⟨hdone, hparsed, hafter⟩ := hb.next
  have hgrown : occasions (parsed alloc (x ++ y)).frames = occasions (parsed alloc x).frames ++
      (consume alloc { parsed alloc x with frames := [] } y).buffer.frames.map .frame := by
    rw [← occasions_append]
    exact congrArg (fun fb => occasions fb.frames) hafter
  cases hany : (occasions (parsed alloc x).frames).any (Occasion.ends handler) with
  | true =>
    have hover := h.ended hany
    have hsame : c.read handler valid alloc maxRequestSize (.data y) = c := if_pos hover
    have hstill : (occasions (parsed alloc (x ++ y)).frames).any (Occasion.ends handler) = true := by
      rw [hgrown, List.any_append, hany, Bool.true_or]
    have huntil : untilEnd handler (occasions (parsed alloc (x ++ y)).frames) =
        untilEnd handler (occasions (parsed alloc x).frames) := by
      rw [hgrown]
      exact untilEnd_append hany _
    rw [hsame]
    refine ⟨by rw [huntil]; exact h.heard, by rw [huntil]; exact h.sent, fun _ => hover,
      fun hnot => ?_⟩
    rw [hstill] at hnot
    cases hnot
  | false =>
    obtain ⟨hopen, hpoint, hbuffer, hframes, u, v, hx, htotal, hsame⟩ := h.goes hany
    have hwhole : x ≠ encodeAll fs := by
      rintro rfl
      have hle := hb.starts.length_le
      rw [List.length_append] at hle
      exact hne (List.length_eq_zero_iff.mp (by omega))
    have hfits : c.receiver.totalLength + y.length ≤ maxRequestSize := by
      have hu : Begins alloc fs (u ++ v) := hx ▸ hb.shorter
      obtain ⟨f, hf, hlt⟩ := hu.within_frame (by rw [hsame, hx]) (by rw [← hx]; exact hwhole)
      have hle := hfit f hf
      omega
    obtain ⟨b, hroomy, hrecv⟩ := @recvFrame_data alloc maxRequestSize room _ _ hne hroom hbuffer hpoint
      hmax hfits (by rw [hframes]; exact hdone) (by rw [hframes]; exact hparsed)
    rw [hframes] at hrecv
    generalize hr : c.receiver.recvFrame alloc maxRequestSize (.data y) = r at hrecv
    generalize ho : consume alloc { parsed alloc x with frames := [] } y = o at *
    have hread : c.read handler valid alloc maxRequestSize (.data y) =
        settle handler valid (o.buffer.frames.length + 1) { c with receiver := r } := by
      rw [Conversation.read, if_neg (by rw [hopen.finished]; decide), if_pos hpoint, hr, hrecv]
    have hopen' : Open { c with receiver := r } := ⟨hopen.finished, by rw [hrecv]; exact hopen.state⟩
    have hroomy' : Roomy room r.buffer := by rw [hrecv]; exact hroomy
    have hbehind : r.frames = o.buffer := by rw [hrecv]
    have hwaits : ({ o.buffer with frames := [] } : FrameBuffer) =
        { parsed alloc (x ++ y) with frames := [] } := by rw [hafter]; rfl
    have hanyof : (occasions (parsed alloc (x ++ y)).frames).any (Occasion.ends handler) =
        (o.buffer.frames.map .frame).any (Occasion.ends handler) := by
      rw [hgrown, List.any_append, hany, Bool.false_or]
    have huntil : untilEnd handler (occasions (parsed alloc (x ++ y)).frames) =
        untilEnd handler (occasions (parsed alloc x).frames) ++
          untilEnd handler (o.buffer.frames.map .frame) := by
      rw [hgrown, untilEnd_append_of_not hany, untilEnd_eq_self hany]
    by_cases hnone : o.buffer.frames = []
    · have hpoint' : r.point = .receiving := by rw [hrecv]; exact if_pos hnone
      have hstill : (parsed alloc (x ++ y)).frames = (parsed alloc x).frames := by
        have hbehindFrames : (parsed alloc (x ++ y)).frames =
            (parsed alloc x).frames ++ o.buffer.frames := congrArg FrameBuffer.frames hafter
        rw [hbehindFrames, hnone, List.append_nil]
      rw [hread, settle_receiving hpoint']
      refine ⟨by rw [hstill]; exact h.heard, by rw [hstill]; exact h.sent, fun hends => ?_,
        fun _ => ⟨hopen', hpoint', hroomy', ?_, u, v ++ y, ?_, ?_, ?_⟩⟩
      · rw [hstill, hany] at hends
        cases hends
      · rw [← hwaits]
        exact hbehind.trans (by rw [← hnone])
      · rw [hx, List.append_assoc]
      · dsimp only
        rw [hrecv, List.length_append, ← htotal]
      · rw [hstill]
        exact hsame
    · have hpoint' : r.point = .returned 1 := by rw [hrecv]; exact if_neg hnone
      obtain ⟨hheard, hsent, hends, hgoes⟩ := @settle_frames handler valid _ hnone
        { c with receiver := r } hopen' hpoint' (congrArg _ hbehind) _ (Nat.lt_succ_self _)
      rw [← hread] at hheard hsent hends hgoes
      rw [← hanyof] at hends hgoes
      refine ⟨?_, ?_, hends, fun hgo => ?_⟩
      · rw [hheard, huntil, List.map_append]
        exact congrArg (· ++ _) h.heard
      · rw [hsent, huntil, List.flatMap_append]
        exact congrArg (· ++ _) h.sent
      · obtain ⟨hfinished, hreceiver⟩ := hgoes hgo
        rw [hreceiver]
        refine ⟨⟨hfinished, ?_⟩, rfl, hroomy', ?_, x ++ y, [], (List.append_nil _).symm, rfl, rfl⟩
        · rw [hreceiver]
          exact hopen'.state
        · rw [← hwaits, emptied, hbehind]

theorem start_hears {config : Config} {session : Session}
    (hnew : Session.new config .websocket = some session)
    (hsize : config.websocket.toNat ≤ config.basic.toNat) {memory : List UInt8}
    (hmemory : memory.length = session.allocated) :
    Hears handler valid alloc config.websocket.toNat [] (start handler valid session memory) := by
  have hs := Session.new_eq hnew
  have hopen : Open ⟨.start session memory, 0, [], [], false⟩ := ⟨rfl, rfl⟩
  have hroomy : Roomy config.websocket.toNat (.start session memory : Buffered UInt8) := by
    refine ⟨Buffered.start_cleared hnew hmemory, ?_, ?_⟩
    · rw [hs]
      exact le_rfl
    · rw [hs]
      exact hsize
  have hnone : (parsed alloc []).frames = [] := rfl
  rw [start_eq]
  by_cases ho : Occasion.opened.ends handler = true
  · have hends := @occur_ends handler valid _ hopen _ ho
    have huntil : untilEnd handler (occasions []) = [.opened] := if_pos ho
    rw [hends]
    refine ⟨?_, ?_, fun _ => rfl, fun hnot => ?_⟩
    · rw [hnone, huntil]
      rfl
    · rw [hnone, huntil, List.flatMap_singleton]
      exact List.nil_append _
    · rw [hnone, occasions, List.map_nil, List.any_cons, ho, Bool.true_or] at hnot
      cases hnot
  · obtain ⟨n, hgoes⟩ := @occur_goes handler valid _ hopen _ (Bool.not_eq_true _ ▸ ho)
    have huntil : untilEnd handler (occasions []) = [.opened] := (if_neg ho).trans rfl
    rw [hgoes]
    refine ⟨?_, ?_, fun hends => ?_, fun _ => ⟨⟨rfl, rfl⟩, rfl, hroomy, rfl, [], [], rfl, rfl, rfl⟩⟩
    · rw [hnone, huntil]
      rfl
    · rw [hnone, huntil, List.flatMap_singleton]
      exact List.nil_append _
    · rw [hnone, occasions, List.map_nil, List.any_cons, List.any_nil, Bool.or_false] at hends
      exact absurd hends ho

/-- The reads of a stream, one after the other. -/
theorem run_hears {fs : List WireFrame} (hmax : maxRequestSize < 2^32) {chunks : List (List UInt8)}
    (hpieces : ∀ y ∈ chunks, y ≠ [] ∧ y.length ≤ room)
    (hfit : ∀ f ∈ fs, ∀ y ∈ chunks, f.encode.length + y.length ≤ maxRequestSize) {x : List UInt8}
    {c : Conversation} (h : Hears handler valid alloc room x c)
    (hb : Begins alloc fs (x ++ chunks.flatten)) :
    Hears handler valid alloc room (x ++ chunks.flatten)
      ((chunks.map Recv.data).foldl (read handler valid alloc maxRequestSize) c) := by
  induction chunks generalizing x c with
  | nil =>
    rw [List.flatten_nil, List.append_nil]
    exact h
  | cons y chunks ih =>
    rw [List.flatten_cons, ← List.append_assoc] at hb ⊢
    obtain ⟨hne, hroom⟩ := hpieces y List.mem_cons_self
    have hread := h.read hb.shorter hne hroom hmax fun f hf => hfit f hf y List.mem_cons_self
    exact ih (fun z hz => hpieces z (List.mem_cons_of_mem y hz))
      (fun f hf z hz => hfit f hf z (List.mem_cons_of_mem y hz)) hread hb

/-- At the end of the stream of a session that is still open, `co_onBadClose` is called on a closed
session. -/
theorem read_closed {c : Conversation} (h : c.Open) (hpoint : c.receiver.point = .receiving)
    (hbuffer : Roomy room c.receiver.buffer) (hroom : 0 < room) :
    (c.read handler valid alloc maxRequestSize .closed).heard = c.heard ++ [.onBadClose] ∧
      (c.read handler valid alloc maxRequestSize .closed).sent =
        c.sent ++ (handler .onBadClose).filterMap Action.frame ∧
      (c.read handler valid alloc maxRequestSize .closed).finished = true := by
  have hover : ¬ c.finished = true := by
    rw [h.finished]
    exact Bool.false_ne_true
  have hfits : ¬ c.receiver.buffer.Overruns .closed := hbuffer.fits hroom (Nat.zero_le _)
  have hrecv : ∃ b, c.receiver.recvFrame alloc maxRequestSize .closed =
      { c.receiver with buffer := b, rounds := c.receiver.rounds + 1, point := .returned 0 } := by
    refine ⟨c.receiver.buffer.receive c.receiver.buffer.session .closed, ?_⟩
    unfold Receiver.recvFrame
    dsimp only
    rw [if_neg hfits, Buffered.recvMessage, Session.recvMessage, hbuffer.region hroom]
    rfl
  obtain ⟨b, hrecv⟩ := hrecv
  rw [Conversation.read, if_neg hover, if_pos hpoint, hrecv]
  dsimp only
  rw [settle, if_neg hover]
  dsimp only
  rw [round, if_pos (.inl rfl), leave]
  have hstate : c.receiver.state ≠ .closed := by
    rw [h.state]
    decide
  dsimp only
  rw [if_pos hstate, settle_over rfl, hear, acts_closed rfl]
  exact ⟨rfl, rfl, rfl⟩

/-- A whole stream and the end of the connection. -/
theorem run_whole (handler : Callback → List Action) (valid : Bool) (hmax : maxRequestSize < 2^32)
    {config : Config} {session : Session} (hnew : Session.new config .websocket = some session)
    (hpos : 0 < config.websocket.toNat) (hsize : config.websocket.toNat ≤ config.basic.toNat)
    {memory : List UInt8} (hmemory : memory.length = session.allocated) {fs : List WireFrame}
    (halloc : ∀ f ∈ fs, alloc f.payload.length = true) {chunks : List (List UInt8)}
    (hchunks : chunks.flatten = fs.flatMap WireFrame.encode)
    (hpieces : ∀ y ∈ chunks, y ≠ [] ∧ y.length ≤ config.websocket.toNat)
    (hfit : ∀ f ∈ fs, ∀ y ∈ chunks, f.encode.length + y.length ≤ maxRequestSize) :
    let os := occasions (seenFrames (fun _ => 0) fs)
    let c := run handler valid alloc maxRequestSize session memory (chunks.map .data ++ [.closed])
    c.finished = true ∧
      c.heard = (untilEnd handler os).map Occasion.callback ++
        (if os.any (Occasion.ends handler) then [] else [.onBadClose]) ∧
      c.sent = (untilEnd handler os).flatMap (Occasion.answers handler valid) ++
        if os.any (Occasion.ends handler) then []
        else (handler .onBadClose).filterMap Action.frame := by
  intro os c
  have hbegins : Begins alloc fs ([] ++ chunks.flatten) := by
    refine ⟨halloc, ?_⟩
    rw [List.nil_append, hchunks]
    exact List.prefix_rfl
  have hrun := run_hears hmax hpieces hfit (@start_hears handler valid alloc _ _ hnew hsize _ hmemory)
    hbegins
  rw [List.nil_append, hchunks] at hrun
  have hframes : (parsed alloc (fs.flatMap WireFrame.encode)).frames = seenFrames (fun _ => 0) fs :=
    (parsed_whole halloc).2
  have hc : c = read handler valid alloc maxRequestSize
      ((chunks.map Recv.data).foldl (read handler valid alloc maxRequestSize)
        (start handler valid session memory)) .closed := by
    change List.foldl _ _ _ = _
    rw [List.foldl_append]
    rfl
  obtain ⟨hheard, hsent, hended, hgoes⟩ := hrun
  rw [hframes] at hheard hsent hended hgoes
  rw [hc]
  cases hany : os.any (Occasion.ends handler) with
  | true =>
    rw [read, if_pos (hended hany), if_pos rfl, if_pos rfl, List.append_nil, List.append_nil]
    exact ⟨hended hany, hheard, hsent⟩
  | false =>
    obtain ⟨hopen, hpoint, hbuffer, -⟩ := hgoes hany
    obtain ⟨hheard', hsent', hover⟩ := @read_closed handler valid alloc maxRequestSize _ _
      hopen hpoint hbuffer hpos
    rw [if_neg Bool.false_ne_true, if_neg Bool.false_ne_true]
    refine ⟨hover, ?_, ?_⟩
    · rw [hheard', hheard]
    · rw [hsent', hsent]

end Conversation

def helloPing : List WireFrame :=
  [⟨0x81, some fun i => [1, 2, 3, 4].getD i 0, [0x68, 0x69], by decide⟩,
    ⟨0x89, some fun i => [5, 6, 7, 8].getD i 0, [0x70], by decide⟩]

/-- Greets, answers a message with itself and closes the session at a ping. -/
def Parrot.on : Callback → List Action
  | .onOpen => [.sendFrame ((Frame.new.setOpcode opText).setTextPayload [0x6F])]
  | .onMessage msg => [.sendFrame ((Frame.new.setOpcode opText).setTextPayload msg)]
  | .onPing _ => [.close 1000 [0x62], .close 1001 []]
  | _ => []

end MSylar.WebSocket
