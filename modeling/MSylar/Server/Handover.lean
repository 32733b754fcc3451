import MSylar.Server.Http

/-!
# Changes of the session object (httpServer.cc:281-330, wsserver.cc:163-203, 387-422,
wsserver.tpp:52-188)

`handleClient` starts again with a new `HttpSession` after 1000 responses, and the handler that
`registerUrl` installs makes a `WsSession` for the connection. Both constructors begin with an empty
buffer on the same socket. The loop over WebSocket frames starts again with the session it had.
-/

namespace MSylar.Server
open MSylar.Execution MSylar.Word MSylar.Server.Http
variable {β σ φ : Type*}

/-- The frame buffer; a negative result of `consume` is an error. -/
structure FrameParser (β φ : Type*) where
  init : φ
  consume : φ → List β → ℤ × φ
  frameCount : φ → ℕ
  getFrame : φ → φ

structure WsClient (β φ : Type*) where
  buffered : Buffered β
  frames : φ
  totalLength : ℕ
  point : Point

namespace WsClient

def start (F : FrameParser β φ) (b : Buffered β) : WsClient β φ := ⟨b, F.init, 0, .receiving⟩

def parse (F : FrameParser β φ) (maxRequestSize : ℕ) (c : WsClient β φ) (bytes : List β) :
    WsClient β φ :=
  if maxRequestSize < c.totalLength then { c with point := .closed }
  else if (F.consume c.frames bytes).1 < 0 then { c with point := .closed }
  else
    let c := { c with
      buffered := (c.buffered.consume (F.consume c.frames bytes).1.toNat).2
      frames := (F.consume c.frames bytes).2 }
    if 0 < F.frameCount c.frames then { c with point := .handling } else c

/-- One round of the loop in `co_recvFrame`; `none` is a failed assertion. -/
def recvFrame (F : FrameParser β φ) (maxRequestSize : ℕ) (c : WsClient β φ) (r : Recv β) :
    Option (WsClient β φ) :=
  (c.buffered.recvMessage r uint64Max).map fun res =>
    let c := { c with buffered := res.2.2 }
    if res.1 ≤ 0 then { c with point := .closed }
    else
      { c with totalLength := c.totalLength + res.1.toNat }.parse F maxRequestSize
        (c.buffered.exposed res.2.1 res.1)

/-- A frame is taken out and routed. The next call of `co_recvFrame` returns at once if there is
another one; `keep` says whether the loop goes on. -/
def route (F : FrameParser β φ) (c : WsClient β φ) (keep : Bool) : WsClient β φ :=
  let c := { c with frames := F.getFrame c.frames }
  if keep then
    if 0 < F.frameCount c.frames then c else { c with totalLength := 0, point := .receiving }
  else { c with point := .closed }

end WsClient

inductive Stage (β σ φ : Type*) where
  | http (c : Client β σ)
  | websocket (c : WsClient β φ)

def Stage.buffered : Stage β σ φ → Buffered β
  | .http c => c.buffered
  | .websocket c => c.buffered

/-- `network` is what the peer is still going to send, and `offered` what it was going to send when
the session was made. -/
structure Connection (β σ φ : Type*) where
  stage : Stage β σ φ
  network : List β
  offered : List β

structure HttpServer (β σ φ : Type*) where
  config : Config
  request : Parser β σ
  frames : FrameParser β φ
  maxRequestSize : ℕ
  wsMaxRequestSize : ℕ

inductive Arrival where
  | bytes (k : ℕ)
  | closed
  | error (timeout critical : Bool)

/-- The result of a `recv` into `region` and what is left to send. -/
def arrive (network : List β) (region : Option (ℕ × ℕ)) : Arrival → Option (Recv β × List β)
  | .bytes k =>
    match region with
    | none => some (.closed, network)
    | some region =>
      if 0 < k ∧ k ≤ region.2 ∧ k ≤ network.length then
        some (.data (network.take k), network.drop k)
      else none
  | .closed => if network = [] then some (.closed, network) else none
  | .error timeout critical => some (.error timeout critical, network)

/-- The constructors; the contents of the new array are arbitrary. -/
def newSession (c : Config) (kind : Kind) (memory : List β) : Option (Buffered β) :=
  (Session.new c kind).bind fun s =>
    if memory.length = s.allocated then some (.start s memory) else none

inductive ConnectionAction (β : Type*) where
  | recv (a : Arrival)
  | check (errno : ℤ)
  | respond (keep : Bool)
  | route (keep : Bool)
  | reschedule (memory : List β)
  | createSession (memory : List β)

namespace Connection

def start (S : HttpServer β σ φ) (b : Buffered β) (network : List β) : Connection β σ φ :=
  ⟨.http (.start S.request b), network, network⟩

def window (w : Connection β σ φ) : List β := w.stage.buffered.window

/-- The bytes that the parser of the present session has used. -/
def parsed (w : Connection β σ φ) : List β :=
  w.stage.buffered.received.take w.stage.buffered.consumed

def step (S : HttpServer β σ φ) (w : Connection β σ φ) :
    ConnectionAction β → Option (Connection β σ φ)
  | .recv a =>
    (arrive w.network w.stage.buffered.session.recvRegion a).bind fun res =>
      match w.stage with
      | .http c => (c.step S.request S.maxRequestSize (.recv res.1)).map fun c =>
          { w with stage := .http c, network := res.2 }
      | .websocket c =>
        if c.point = .receiving then
          (c.recvFrame S.frames S.wsMaxRequestSize res.1).map fun c =>
            { w with stage := .websocket c, network := res.2 }
        else none
  | .check errno =>
    match w.stage with
    | .http c => (c.step S.request S.maxRequestSize (.check errno)).map fun c =>
        { w with stage := .http c }
    | .websocket _ => none
  | .respond keep =>
    match w.stage with
    | .http c => (c.step S.request S.maxRequestSize (.respond keep)).map fun c =>
        { w with stage := .http c }
    | .websocket _ => none
  | .route keep =>
    match w.stage with
    | .http _ => none
    | .websocket c =>
      if c.point = .handling then some { w with stage := .websocket (c.route S.frames keep) } else none
  | .reschedule memory =>
    match w.stage with
    | .http c =>
      if c.point = .rescheduled then
        (newSession S.config .http memory).map fun b => .start S b w.network
      else none
    | .websocket _ => none
  | .createSession memory =>
    match w.stage with
    | .http c =>
      if c.point = .handling then
        (newSession S.config .websocket memory).map fun b =>
          ⟨.websocket (.start S.frames b), w.network, w.network⟩
      else none
    | .websocket _ => none

/-- A new session is going to parse the unread bytes of the old one first. -/
def Carried (S : HttpServer β σ φ) (w : Connection β σ φ) (a : ConnectionAction β) : Prop :=
  match a with
  | .reschedule _ | .createSession _ => ∀ w', w.step S a = some w' →
      w'.window ++ w'.network = w.window ++ w.network
  | _ => True

def NothingLeft (S : HttpServer β σ φ) (w : Connection β σ φ) (a : ConnectionAction β) : Prop :=
  match a with
  | .reschedule _ | .createSession _ => (w.step S a).isSome → w.window = []
  | _ => True

/-! ### Bytes at a change -/

theorem newSession_eq {c : Config} {kind : Kind} {memory : List β} {b : Buffered β}
    (h : newSession c kind memory = some b) :
    ∃ s, Session.new c kind = some s ∧ memory.length = s.allocated ∧ b = .start s memory := by
  obtain ⟨s, hnew, hb⟩ := Option.bind_eq_some_iff.mp h
  rw [Option.ite_none_right_eq_some, Option.some.injEq] at hb
  exact ⟨s, hnew, hb.1, hb.2.symm⟩

theorem newSession_window {c : Config} {kind : Kind} {memory : List β} {b : Buffered β}
    (h : newSession c kind memory = some b) : b.window = [] := by
  obtain ⟨s, hnew, _, rfl⟩ := newSession_eq h
  rw [Session.new_eq hnew]
  rfl

/-- A step to a new session. -/
structure Renewed (S : HttpServer β σ φ) (w w' : Connection β σ φ) : Prop where
  buffer : ∃ kind memory, newSession S.config kind memory = some w'.stage.buffered
  network : w'.network = w.network
  offered : w'.offered = w.network

theorem reschedule_renewed {S : HttpServer β σ φ} {w w' : Connection β σ φ} {memory : List β}
    (h : w.step S (.reschedule memory) = some w') : Renewed S w w' := by
  cases hstage : w.stage with
  | websocket c =>
    simp only [step, hstage] at h
    cases h
  | http c =>
    simp only [step, hstage, Option.ite_none_right_eq_some, Option.map_eq_some_iff] at h
    obtain ⟨_, b, hb, rfl⟩ := h
    exact ⟨⟨.http, memory, hb⟩, rfl, rfl⟩

theorem createSession_renewed {S : HttpServer β σ φ} {w w' : Connection β σ φ} {memory : List β}
    (h : w.step S (.createSession memory) = some w') : Renewed S w w' := by
  cases hstage : w.stage with
  | websocket c =>
    simp only [step, hstage] at h
    cases h
  | http c =>
    simp only [step, hstage, Option.ite_none_right_eq_some, Option.map_eq_some_iff] at h
    obtain ⟨_, b, hb, rfl⟩ := h
    exact ⟨⟨.websocket, memory, hb⟩, rfl, rfl⟩

/-- The new session has none of the bytes in the buffer of the old one. -/
theorem Renewed.kept_iff {S : HttpServer β σ φ} {w w' : Connection β σ φ} (h : Renewed S w w') :
    w'.window ++ w'.network = w.window ++ w.network ↔ w.window = [] := by
  obtain ⟨kind, memory, hb⟩ := h.buffer
  have hwindow : w'.window = [] := newSession_window hb
  rw [hwindow, h.network, List.nil_append]
  exact List.self_eq_append_left

theorem carried_iff (S : HttpServer β σ φ) (w : Connection β σ φ) (a : ConnectionAction β) :
    w.Carried S a ↔ w.NothingLeft S a := by
  have hchange : (∀ w', w.step S a = some w' → Renewed S w w') →
      ((∀ w', w.step S a = some w' → w'.window ++ w'.network = w.window ++ w.network) ↔
        ((w.step S a).isSome → w.window = [])) := by
    intro hnew
    cases hstep : w.step S a with
    | none => simp
    | some w' =>
      simp only [Option.some.injEq, forall_eq', Option.isSome_some, forall_const]
      exact (hnew w' hstep).kept_iff
  cases a with
  | reschedule memory => exact hchange fun _ => reschedule_renewed
  | createSession memory => exact hchange fun _ => createSession_renewed
  | _ => exact Iff.rfl

/-! ### What a session parses -/

/-- The parsers use at most the bytes that they are given, and the buffers are large enough. -/
structure Sound (S : HttpServer β σ φ) : Prop where
  request : ∀ s bytes n, (S.request.consume s bytes).1 = some n → n ≤ bytes.length
  frames : ∀ s bytes, (S.frames.consume s bytes).1 ≤ bytes.length
  positive : ∀ kind, 0 < S.config.bufferSize kind
  size : ∀ kind, S.config.bufferSize kind ≤ S.config.basic.toNat

structure Inv (w : Connection β σ φ) : Prop where
  buffer : w.stage.buffered.Inv
  stream : w.stage.buffered.received ++ w.network = w.offered

theorem Inv.parsed_window {w : Connection β σ φ} (h : Inv w) :
    w.parsed ++ w.window ++ w.network = w.offered := by
  rw [window, h.buffer.held, parsed, Buffered.unread, List.take_append_drop, h.stream]

theorem arrive_spec {b : Buffered β} {network : List β} {a : Arrival} {res : Recv β × List β}
    (h : arrive network b.session.recvRegion a = some res) :
    b.Legal (.recvMessage res.1) ∧ network = b.got res.1 ++ res.2 := by
  have hempty : ∀ r : Recv β, r.bytes = [] →
      b.Legal (.recvMessage r) ∧ network = b.got r ++ network := by
    intro r hr
    have hgot : b.got r = [] := by
      unfold Buffered.got
      rw [hr, ite_self]
    refine ⟨fun region _ => ?_, by rw [hgot, List.nil_append]⟩
    rw [hr]
    exact Nat.zero_le _
  cases a with
  | bytes k =>
    cases hregion : b.session.recvRegion with
    | none =>
      simp only [arrive, hregion, Option.some.injEq] at h
      exact h ▸ hempty .closed rfl
    | some region =>
      simp only [arrive, hregion, Option.ite_none_right_eq_some, Option.some.injEq] at h
      obtain ⟨⟨_, hroom, hle⟩, rfl⟩ := h
      have hgot : b.got (.data (network.take k)) = network.take k := by
        refine if_neg ?_
        rw [hregion]
        exact Option.some_ne_none _
      refine ⟨fun region' hregion' => ?_, by rw [hgot, List.take_append_drop]⟩
      rw [hregion, Option.mem_some_iff] at hregion'
      rw [← hregion', Recv.bytes, List.length_take, Nat.min_eq_left hle]
      exact hroom
  | closed =>
    simp only [arrive, Option.ite_none_right_eq_some, Option.some.injEq] at h
    exact h.2 ▸ hempty .closed rfl
  | error timeout critical =>
    simp only [arrive, Option.some.injEq] at h
    exact h ▸ hempty (.error timeout critical) rfl

/-- The bytes that a parser may use are as many as an `int` can count. -/
theorem consume_keeps {b : Buffered β} (h : b.Inv) {n : ℕ} (hn : n ≤ b.unread.length) :
    (b.consume n).2.Inv ∧ (b.consume n).2.received = b.received := by
  have hlen := h.window_length
  have hend := h.bounds.received
  have hsmall := h.small
  obtain ⟨hinv, _, hreceived, _⟩ := h.consume (n := n) (by omega)
  exact ⟨hinv, hreceived⟩

theorem request_parse_keeps {P : Parser β σ}
    (hP : ∀ s bytes n, (P.consume s bytes).1 = some n → n ≤ bytes.length) {c : Client β σ}
    (h : c.buffered.Inv) (maxRequestSize : ℕ) :
    (c.parse P maxRequestSize c.buffered.unread).buffered.Inv ∧
      (c.parse P maxRequestSize c.buffered.unread).buffered.received = c.buffered.received := by
  have hused := hP c.request c.buffered.unread
  unfold Client.parse
  rcases hconsume : P.consume c.request c.buffered.unread with ⟨_ | solved, request⟩
  · exact ⟨h, rfl⟩
  · rw [hconsume] at hused
    have hkeeps := consume_keeps h (hused solved rfl)
    dsimp only
    split_ifs
    · exact hkeeps
    · unfold Client.updateSession
      split <;> exact hkeeps
    · exact hkeeps

theorem recvRequest_keeps {P : Parser β σ}
    (hP : ∀ s bytes n, (P.consume s bytes).1 = some n → n ≤ bytes.length) {maxRequestSize : ℕ}
    {c c' : Client β σ} {r : Recv β} (h : c.buffered.Inv) (hl : c.buffered.Legal (.recvMessage r))
    (hrecv : c.recvRequest P maxRequestSize r = some c') :
    c'.buffered.Inv ∧ c'.buffered.received = c.buffered.received ++ c.buffered.got r := by
  obtain ⟨rt, pos, b, hb, hinv, hreceived, _, _, _, hcase⟩ := h.recvMessage hl
  rw [Client.recvRequest, hb, Option.map_some, Option.some.injEq] at hrecv
  subst hrecv
  dsimp only
  split_ifs with hzero hneg
  · exact ⟨hinv, hreceived⟩
  · exact ⟨hinv, hreceived⟩
  · obtain ⟨hle, _⟩ | ⟨_, rfl, rfl⟩ := hcase
    · omega
    · rw [Buffered.window_exposed hinv, ← hreceived]
      exact request_parse_keeps hP (c := { c with buffered := b }) hinv maxRequestSize

theorem frame_parse_keeps {F : FrameParser β φ}
    (hF : ∀ s bytes, (F.consume s bytes).1 ≤ bytes.length) {c : WsClient β φ}
    (h : c.buffered.Inv) (maxRequestSize : ℕ) :
    (c.parse F maxRequestSize c.buffered.unread).buffered.Inv ∧
      (c.parse F maxRequestSize c.buffered.unread).buffered.received = c.buffered.received := by
  have hused := hF c.frames c.buffered.unread
  have hkeeps := consume_keeps h (Int.toNat_le.mpr hused)
  unfold WsClient.parse
  dsimp only
  split_ifs
  · exact ⟨h, rfl⟩
  · exact ⟨h, rfl⟩
  · exact hkeeps
  · exact hkeeps

theorem recvFrame_keeps {F : FrameParser β φ}
    (hF : ∀ s bytes, (F.consume s bytes).1 ≤ bytes.length) {maxRequestSize : ℕ}
    {c c' : WsClient β φ} {r : Recv β} (h : c.buffered.Inv)
    (hl : c.buffered.Legal (.recvMessage r))
    (hrecv : c.recvFrame F maxRequestSize r = some c') :
    c'.buffered.Inv ∧ c'.buffered.received = c.buffered.received ++ c.buffered.got r := by
  obtain ⟨rt, pos, b, hb, hinv, hreceived, _, _, _, hcase⟩ := h.recvMessage hl
  rw [WsClient.recvFrame, hb, Option.map_some, Option.some.injEq] at hrecv
  subst hrecv
  dsimp only
  split_ifs with hneg
  · exact ⟨hinv, hreceived⟩
  · obtain ⟨hle, _⟩ | ⟨_, rfl, rfl⟩ := hcase
    · omega
    · rw [Buffered.window_exposed hinv, ← hreceived]
      exact frame_parse_keeps hF
        (c := ⟨b, c.frames, c.totalLength + ((b.unread.length : ℤ)).toNat, c.point⟩) hinv
        maxRequestSize

theorem check_buffered (c : Client β σ) (o : Outcome) (errno : ℤ) :
    (c.check o errno).buffered = c.buffered := by
  unfold Client.check Client.finish
  split_ifs <;> rfl

theorem respond_buffered (P : Parser β σ) (c : Client β σ) (keep : Bool) :
    (c.respond P keep).buffered = c.buffered := by
  unfold Client.respond Client.finish
  dsimp only
  split_ifs <;> rfl

theorem route_buffered (F : FrameParser β φ) (c : WsClient β φ) (keep : Bool) :
    (c.route F keep).buffered = c.buffered := by
  unfold WsClient.route
  dsimp only
  split_ifs <;> rfl

theorem newSession_inv {S : HttpServer β σ φ} (hS : Sound S) {kind : Kind} {memory : List β}
    {b : Buffered β} (h : newSession S.config kind memory = some b) : b.Inv ∧ b.received = [] := by
  obtain ⟨s, hnew, hmemory, rfl⟩ := newSession_eq h
  exact ⟨Buffered.start_inv hnew (hS.positive kind) (hS.size kind) hmemory, rfl⟩

theorem Renewed.inv {S : HttpServer β σ φ} (hS : Sound S) {w w' : Connection β σ φ}
    (h : Renewed S w w') : Inv w' := by
  obtain ⟨kind, memory, hb⟩ := h.buffer
  obtain ⟨hinv, hreceived⟩ := newSession_inv hS hb
  refine ⟨hinv, ?_⟩
  rw [hreceived, List.nil_append, h.network, h.offered]

theorem Inv.stage {w : Connection β σ φ} (h : Inv w) {stage : Stage β σ φ}
    (hstage : stage.buffered = w.stage.buffered) : Inv { w with stage := stage } := by
  refine ⟨?_, ?_⟩
  · dsimp only
    rw [hstage]
    exact h.buffer
  · dsimp only
    rw [hstage]
    exact h.stream

theorem Inv.received {w : Connection β σ φ} (h : Inv w) {stage : Stage β σ φ} {network got : List β}
    (hnetwork : w.network = got ++ network)
    (hstage : stage.buffered.Inv ∧ stage.buffered.received = w.stage.buffered.received ++ got) :
    Inv { w with stage := stage, network := network } := by
  refine ⟨hstage.1, ?_⟩
  dsimp only
  rw [hstage.2, List.append_assoc, ← hnetwork, h.stream]

theorem Inv.step {S : HttpServer β σ φ} (hS : Sound S) {w w' : Connection β σ φ} (h : Inv w)
    {a : ConnectionAction β} (hstep : w.step S a = some w') : Inv w' := by
  cases a with
  | recv arrival =>
    obtain ⟨res, harrive, hrecv⟩ := Option.bind_eq_some_iff.mp hstep
    obtain ⟨hlegal, hnetwork⟩ := arrive_spec harrive
    have hbuffer := h.buffer
    cases hstage : w.stage with
    | http c =>
      simp only [hstage, Option.map_eq_some_iff, Client.step, Option.ite_none_right_eq_some] at hrecv
      obtain ⟨c', ⟨_, hc'⟩, rfl⟩ := hrecv
      rw [hstage] at hlegal hbuffer hnetwork
      refine h.received hnetwork ?_
      rw [hstage]
      exact recvRequest_keeps hS.request hbuffer hlegal hc'
    | websocket c =>
      simp only [hstage, Option.ite_none_right_eq_some, Option.map_eq_some_iff] at hrecv
      obtain ⟨_, c', hc', rfl⟩ := hrecv
      rw [hstage] at hlegal hbuffer hnetwork
      refine h.received hnetwork ?_
      rw [hstage]
      exact recvFrame_keeps hS.frames hbuffer hlegal hc'
  | check errno =>
    cases hstage : w.stage with
    | websocket c =>
      simp only [Connection.step, hstage] at hstep
      cases hstep
    | http c =>
      simp only [Connection.step, hstage, Option.map_eq_some_iff] at hstep
      obtain ⟨c', hc', rfl⟩ := hstep
      refine h.stage ?_
      rw [hstage]
      cases hpoint : c.point with
      | checking o =>
        simp only [Client.step, hpoint, Option.some.injEq] at hc'
        exact hc' ▸ check_buffered c o errno
      | _ =>
        simp only [Client.step, hpoint] at hc'
        cases hc'
  | respond keep =>
    cases hstage : w.stage with
    | websocket c =>
      simp only [Connection.step, hstage] at hstep
      cases hstep
    | http c =>
      simp only [Connection.step, hstage, Option.map_eq_some_iff, Client.step,
        Option.ite_none_right_eq_some, Option.some.injEq] at hstep
      obtain ⟨c', ⟨_, rfl⟩, rfl⟩ := hstep
      refine h.stage ?_
      rw [hstage]
      exact respond_buffered S.request c keep
  | route keep =>
    cases hstage : w.stage with
    | http c =>
      simp only [Connection.step, hstage] at hstep
      cases hstep
    | websocket c =>
      simp only [Connection.step, hstage, Option.ite_none_right_eq_some, Option.some.injEq] at hstep
      obtain ⟨_, rfl⟩ := hstep
      refine h.stage ?_
      rw [hstage]
      exact route_buffered S.frames c keep
  | reschedule memory => exact (reschedule_renewed hstep).inv hS
  | createSession memory => exact (createSession_renewed hstep).inv hS

instance (S : HttpServer β σ φ) (w : Connection β σ φ) :
    (a : ConnectionAction β) → Decidable (w.NothingLeft S a)
  | .reschedule _ => inferInstanceAs (Decidable (_ → w.window = []))
  | .createSession _ => inferInstanceAs (Decidable (_ → w.window = []))
  | .recv _ => isTrue trivial
  | .check _ => isTrue trivial
  | .respond _ => isTrue trivial
  | .route _ => isTrue trivial

end Connection

/-- Over every run, the unread bytes of a session that is given up come first in what the next
session parses exactly if there are none whenever a session is given up. Each session parses, in
order, what the peer had not yet delivered when it was made. -/
theorem session_change_keeps_bytes_iff (S : HttpServer β σ φ) {memory : List β} {b : Buffered β}
    (hnew : newSession S.config .http memory = some b) (network : List β)
    (actions : List (ConnectionAction β)) :
    (Guarded (Connection.step S) (Connection.Carried S) (.start S b network) actions ↔
      Guarded (Connection.step S) (Connection.NothingLeft S) (.start S b network) actions) ∧
    ∀ w, exec (Connection.step S) (.start S b network) actions = some w → Connection.Sound S →
      w.parsed ++ w.window ++ w.network = w.offered := by
  refine ⟨guarded_congr (Connection.carried_iff S) _ _, fun w hrun hS => ?_⟩
  obtain ⟨hinv, hreceived⟩ := Connection.newSession_inv hS hnew
  have hstart : (Connection.start S b network).Inv := ⟨hinv, congrArg (· ++ network) hreceived⟩
  exact (exec_invariant (fun _ _ _ h hstep => h.step hS hstep) hstart hrun).parsed_window

def handshake : List Char := "GET /ws HTTP/1.1\r\nHost: a\r\nUpgrade: websocket\r\n\r\n".toList

/-- A masked text frame without payload. -/
def emptyFrame : List Char := "\x81\x80\x00\x00\x00\x00".toList

/-- Counts frames of the length of `emptyFrame`. -/
def frameCounter : FrameParser Char ℕ :=
  ⟨0, fun n bytes => (bytes.length, n + bytes.length / 6), id, fun n => n - 1⟩

def upgradeServer : HttpServer Char (List Char) ℕ :=
  ⟨⟨64, 64, 64⟩, scanner, frameCounter, 4096, 4096⟩

theorem scan_le (head bytes : List Char) (n : ℕ) (h : (scan head bytes).1 = some n) :
    n ≤ bytes.length := by
  induction bytes generalizing head n with
  | nil =>
    rw [← Option.some.inj h]
    exact le_rfl
  | cons x bytes ih =>
    rw [scan] at h
    split_ifs at h
    · rw [← Option.some.inj h]
      exact Nat.zero_le _
    · obtain ⟨m, hm, rfl⟩ := Option.map_eq_some_iff.mp h
      exact Nat.succ_le_succ (ih _ m hm)

theorem upgradeServer_sound : Connection.Sound upgradeServer := by
  refine ⟨scan_le, fun _ _ => le_rfl, fun kind => ?_, fun kind => ?_⟩
  · cases kind <;> decide
  · cases kind <;> decide

def upgradeStart : Connection Char (List Char) ℕ :=
  .start upgradeServer (.start ⟨64, 64, 0, 0, 0⟩ (List.replicate 64 ' ')) (handshake ++ emptyFrame)

def upgradeRun (k : ℕ) : List (ConnectionAction Char) :=
  [.recv (.bytes k), .check 0, .createSession (List.replicate 64 ' '), .recv (.bytes 6)]

theorem frame_after_handshake_kept :
    Guarded (Connection.step upgradeServer) (Connection.Carried upgradeServer) upgradeStart
        (upgradeRun 49) ∧
      ∃ w, exec (Connection.step upgradeServer) upgradeStart (upgradeRun 49) = some w ∧
        w.parsed ++ w.window ++ w.network = emptyFrame := by
  have hnew : newSession upgradeServer.config .http (List.replicate 64 ' ') =
      some (.start ⟨64, 64, 0, 0, 0⟩ (List.replicate 64 ' ')) := by
    rw [newSession, Session.new_of_lt .http (by decide), Option.bind_some]
    exact if_pos List.length_replicate
  obtain ⟨hcarried, hparsed⟩ := session_change_keeps_bytes_iff upgradeServer hnew
    (handshake ++ emptyFrame) (upgradeRun 49)
  have hleft : Guarded (Connection.step upgradeServer) (Connection.NothingLeft upgradeServer)
      upgradeStart (upgradeRun 49) := by decide
  obtain ⟨w, hrun, hoffered⟩ : ∃ w, exec (Connection.step upgradeServer) upgradeStart
      (upgradeRun 49) = some w ∧ w.offered = emptyFrame := ⟨_, rfl, rfl⟩
  exact ⟨hcarried.mpr hleft, w, hrun, (hparsed w hrun upgradeServer_sound).trans hoffered⟩

/-- A frame that arrives together with the handshake is lost. -/
theorem frame_with_handshake_lost :
    ¬ ∀ actions, Guarded (Connection.step upgradeServer) (Connection.Carried upgradeServer)
      upgradeStart actions := by
  intro hall
  have hleft := (guarded_congr (Connection.carried_iff upgradeServer) _ _).mp (hall (upgradeRun 55))
  exact absurd hleft (by decide)

end MSylar.Server
