import MSylar.WebSocket.Conversation

/-!
# The answers of `WsHandler` at the client (wsserver.cc:29-63, 90-114, wsserver.tpp:60-167)

What the client of a session with the callbacks of `WsHandler` reads. The frames on the wire are those
of the loop, with the PINGs of the session's timer between them.
-/

namespace MSylar.WebSocket
open MSylar.Server

/-- What `WsHandler` answers: a ping with its own payload, and a frame that closes the session with a
close frame, which is the frame itself where it has a code. -/
def replies : Occasion → List Frame
  | .opened => []
  | .frame f =>
    if f.opcode = opPing then [.carrying opPong f.payloadText]
    else if f.opcode = opClose then
      [if 2 ≤ f.payloadLength then f else .carrying opClose [0x03, 0xE8]]
    else if (coRoute f).1 ≠ 0 then [.carrying opClose ([0x03, 0xEA] ++ ascii "Protocol Error")]
    else []

/-- The frame that the timer of a session sends at `now`. -/
def pingFrame (now : UInt64) : Frame :=
  (Frame.new.setOpcode opPing).setPingPayload (ascii (toString now.toNat))

/-- The frames on the wire: those of the loop in their order, with PINGs of the timer anywhere between
them. (Each PING is sent while the loop does not send; a frame that waits for it would be overtaken by
`co_close`.) -/
inductive WithPings : List Frame → List Frame → Prop
  | nil : WithPings [] []
  | sent (f : Frame) {sent wire : List Frame} (h : WithPings sent wire) :
    WithPings (f :: sent) (f :: wire)
  | ping (now : UInt64) {sent wire : List Frame} (h : WithPings sent wire) :
    WithPings sent (pingFrame now :: wire)

/-- A frame that is made for its opcode. -/
def Made (f : Frame) : Prop := ∃ m : Message, f = m.frame

theorem pong_made {text : List UInt8} (h : text.length < 2^63) :
    Made (.carrying opPong text) := by
  have hgoes : opPong ≠ opBinary ∧ opPong ≠ opClose := by decide
  exact ⟨⟨opPong, ⟨.setPongPayload text, h⟩, by decide, hgoes⟩, (setText_carrying text hgoes).symm⟩

theorem ping_made (now : UInt64) : Made (pingFrame now) := by
  have hgoes : opPing ≠ opBinary ∧ opPing ≠ opClose := by decide
  have hlength : (ascii (toString now.toNat)).length ≤ 20 := by
    rw [ascii, List.length_map]
    exact (Nat.length_repr_le_iff (by decide)).mpr (now.toNat_lt.trans (by norm_num))
  exact ⟨⟨opPing, ⟨.setPingPayload (ascii (toString now.toNat)), hlength.trans_lt (by norm_num)⟩,
    by decide, hgoes⟩, rfl⟩

theorem close_made (code : ℤ) {reason : List UInt8} (h : 2 + reason.length < 2^63) :
    Made (closeFrame code reason) :=
  ⟨⟨opClose, ⟨.setClosePayload (UInt16.ofInt code) reason, h⟩, by decide, rfl⟩, rfl⟩

theorem close_opcode (code : ℤ) (reason : List UInt8) : (closeFrame code reason).opcode ≠ opPing := by
  have hop : (closeFrame code reason).opcode = opClose := rfl
  rw [hop]
  decide

theorem closeFrame_eq {hi lo : UInt8} {reason : List UInt8} :
    closeFrame ((hi.toNat * 256 + lo.toNat : ℕ) : ℤ) reason =
      .carrying opClose (hi :: lo :: reason) := by
  have hhi := hi.toNat_lt
  have hlo := lo.toNat_lt
  have hcast : UInt16.ofInt ((hi.toNat * 256 + lo.toNat : ℕ) : ℤ) =
      UInt16.ofNat (hi.toNat * 256 + lo.toNat) := by
    rw [UInt16.ofInt]
    congr 1
    omega
  have hcode : (UInt16.ofNat (hi.toNat * 256 + lo.toNat)).toNat = hi.toNat * 256 + lo.toNat := by
    rw [UInt16.toNat_ofNat', Nat.mod_eq_of_lt (by omega)]
  have hhigh : (UInt16.ofNat (hi.toNat * 256 + lo.toNat) >>> 8).toUInt8 = hi := by
    apply UInt8.toNat.inj
    have hshift : UInt16.toNat 8 % 16 = 8 := rfl
    rw [UInt16.toNat_toUInt8, UInt16.toNat_shiftRight, hcode, hshift, Nat.shiftRight_eq_div_pow]
    omega
  have hlow : (UInt16.ofNat (hi.toNat * 256 + lo.toNat)).toUInt8 = lo := by
    apply UInt8.toNat.inj
    rw [UInt16.toNat_toUInt8, hcode]
    omega
  rw [closeFrame, hcast, setClose_carrying, memBytes_byteSwap, hhigh, hlow]
  rfl

/-- A close frame with a code is answered with itself. -/
theorem close_echoed (f : WireFrame) (hop : f.frame.opcode = opClose) :
    closeFrame f.frame.closeCode f.frame.closeReason =
        (if 2 ≤ f.frame.payloadLength then f.frame else .carrying opClose [0x03, 0xE8]) ∧
      Made (closeFrame f.frame.closeCode f.frame.closeReason) := by
  have hshort := f.short
  have hf : f.opcode = opClose := (carrying_spec f.opcode f.payload).1.symm.trans hop
  have hlength : f.frame.payloadLength = f.payload.length :=
    (carrying_spec f.opcode f.payload).2.1
  have hbinary : opClose ≠ opBinary := by decide
  rw [hlength]
  by_cases hcode : 2 ≤ f.payload.length
  · obtain ⟨hi, lo, reason, hpayload⟩ : ∃ hi lo reason, f.payload = hi :: lo :: reason := by
      match f.payload, hcode with
      | hi :: lo :: reason, _ => exact ⟨hi, lo, reason, rfl⟩
    rw [hpayload, List.length_cons, List.length_cons] at hshort
    have hframe : f.frame = .carrying opClose (hi :: lo :: reason) := by
      rw [WireFrame.frame, hf, hpayload]
    have hclose : f.frame.closeCode = hi.toNat * 256 + lo.toNat ∧ f.frame.closeReason = reason := by
      rw [hframe]
      exact ⟨rfl, rfl⟩
    rw [if_pos hcode, hclose.1, hclose.2]
    exact ⟨closeFrame_eq.trans hframe.symm, close_made _ (by omega)⟩
  · have hclose : f.frame.closeCode = 1000 ∧ f.frame.closeReason = [] := by
      rw [WireFrame.frame, hf, Frame.carrying, if_neg hbinary, Frame.ofContext,
        if_neg fun hand => hcode hand.2]
      exact ⟨rfl, rfl⟩
    rw [if_neg hcode, hclose.1, hclose.2]
    exact ⟨@closeFrame_eq 0x03 0xE8 [], close_made _ (by decide)⟩

/-- What `WsHandler` and the loop send for a frame; they send no PING. -/
theorem answers_eq_replies (f : WireFrame) :
    (Occasion.frame f.frame).answers WsHandler.on true = replies (.frame f.frame) ∧
      ∀ g ∈ replies (.frame f.frame), Made g ∧ g.opcode ≠ opPing := by
  unfold Occasion.answers Occasion.acts replies
  dsimp only [Occasion.callback, Occasion.closing]
  by_cases hping : f.frame.opcode = opPing
  · have hroute : coRoute f.frame = (0, .onPing f.frame.payloadText) := by
      simp [coRoute, hping, opPing, opText, opBinary, opClose]
    have hnot : ¬ f.frame.opcode = opClose := by
      rw [hping]
      decide
    have hgoes : opPong ≠ opBinary ∧ opPong ≠ opClose := by decide
    have hpong : (Frame.new.setOpcode opPong).setPongPayload f.frame.payloadText =
        .carrying opPong f.frame.payloadText := setText_carrying _ hgoes
    have hshort : f.frame.payloadText.length < 2^63 := by
      have hop := (carrying_spec f.opcode f.payload).1.symm.trans hping
      have htext : f.frame.payloadText = f.payload := by
        rw [WireFrame.frame, hop]
        rfl
      rw [htext]
      exact f.short
    rw [hroute, if_neg hnot, if_neg (not_not_intro rfl), if_pos hping]
    dsimp only [WsHandler.on]
    rw [hpong]
    refine ⟨rfl, List.forall_mem_singleton.mpr ⟨pong_made hshort, ?_⟩⟩
    rw [(carrying_spec opPong f.frame.payloadText).1]
    decide
  · rw [if_neg hping]
    by_cases hclose : f.frame.opcode = opClose
    · have hroute : coRoute f.frame = (0, .onClose f.frame.closeCode f.frame.closeReason) := by
        simp [coRoute, hclose, opText, opBinary, opClose]
      obtain ⟨hecho, hmade⟩ := close_echoed f hclose
      rw [hroute, if_pos hclose, if_pos hclose, ← hecho]
      exact ⟨rfl, List.forall_mem_singleton.mpr ⟨hmade, close_opcode _ _⟩⟩
    · have hquiet : WsHandler.on (coRoute f.frame).2 = [] := by
        unfold coRoute
        split_ifs <;> rfl
      rw [hquiet, if_neg hclose, if_neg hclose, List.nil_append]
      by_cases hstate : (coRoute f.frame).1 ≠ 0
      · have herror : closeFrame 1002 (ascii "Protocol Error") =
            .carrying opClose ([0x03, 0xEA] ++ ascii "Protocol Error") :=
          @closeFrame_eq 0x03 0xEA (ascii "Protocol Error")
        rw [if_pos hstate, if_pos hstate, ← herror]
        exact ⟨rfl, List.forall_mem_singleton.mpr ⟨close_made _ (by decide), close_opcode _ _⟩⟩
      · rw [if_neg hstate, if_neg hstate]
        exact ⟨rfl, fun g hg => by cases hg⟩

/-- Frames that are made for their opcodes are read as they are. -/
theorem made_received {client : ℕ → Bool} {frames : List Frame} (hmade : ∀ f ∈ frames, Made f)
    (hclient : ∀ f ∈ frames, client f.payloadLength = true) {chunks : List (List UInt8)}
    (hchunks : chunks.flatten = (frames.map fun f => f.make none).flatten) :
    getFrames (frames.length + 1) (consumeAll client .new chunks).1 = frames.map some ++ [none] := by
  obtain ⟨ms, rfl⟩ : ∃ ms : List Message, frames = ms.map Message.frame := by
    clear hclient hchunks
    induction frames with
    | nil => exact ⟨[], rfl⟩
    | cons f frames ih =>
      obtain ⟨m, hm⟩ := hmade f List.mem_cons_self
      obtain ⟨ms, hms⟩ := ih fun g hg => hmade g (List.mem_cons_of_mem f hg)
      exact ⟨m :: ms, by rw [List.map_cons, ← hm, ← hms]⟩
  have halloc : ∀ f ∈ ms.map Message.wire, client f.payload.length = true := by
    intro f hf
    obtain ⟨m, hm, rfl⟩ := List.mem_map.mp hf
    have hlength : m.wire.payload.length = m.frame.payloadLength :=
      (wire_length m.frame none m.short).trans m.spec.2.1.symm
    rw [hlength]
    exact hclient m.frame (List.mem_map_of_mem hm)
  have hbytes : chunks.flatten = encodeAll (ms.map Message.wire) := by
    rw [hchunks, List.map_map, encodeAll, List.flatMap_map, List.flatMap_def]
    exact congrArg List.flatten (List.map_congr_left fun m _ => m.make_eq)
  have hplain : ∀ f ∈ ms.map Message.wire, f.key = none := by
    intro f hf
    obtain ⟨m, _, rfl⟩ := List.mem_map.mp hf
    rfl
  have hframes : (consumeAll client .new chunks).1.frames = ms.map Message.frame := by
    have hnew : Ready .new := trivial
    rw [(consumeAll_eq_consume hnew chunks).1, hbytes]
    refine (parsed_whole halloc).2.trans ?_
    rw [(seenFrames_eq_iff _ _).mpr (noStaleKey_plain hplain), List.map_map]
    exact List.map_congr_left fun m _ => m.wire_frame
  rw [← hframes]
  exact getFrames_all _

theorem WithPings.made {sent wire : List Frame} (h : WithPings sent wire) (hsent : ∀ f ∈ sent, Made f) :
    ∀ f ∈ wire, Made f := by
  induction h with
  | nil => exact hsent
  | sent f h ih =>
    rw [List.forall_mem_cons] at hsent ⊢
    exact ⟨hsent.1, ih hsent.2⟩
  | ping now h ih => exact List.forall_mem_cons.mpr ⟨ping_made now, ih hsent⟩

theorem WithPings.without {sent wire : List Frame} (h : WithPings sent wire)
    (hsent : ∀ f ∈ sent, f.opcode ≠ opPing) : wire.filter (fun f => f.opcode ≠ opPing) = sent := by
  induction h with
  | nil => rfl
  | sent f h ih =>
    rw [List.forall_mem_cons] at hsent
    rw [List.filter_cons, if_pos (decide_eq_true hsent.1), ih hsent.2]
  | ping now h ih =>
    rw [List.filter_cons, if_neg (by rw [decide_eq_true_eq]; exact not_not_intro rfl), ih hsent]

/-- With the callbacks of `WsHandler`, a client that reads what the server sends, however it is cut,
gets a pong with the payload of each ping and the answer to the frame that closes the session, in the
order of its own frames, and besides only the PINGs of the session's timer. -/
theorem replies_received {alloc client : ℕ → Bool} {maxRequestSize : ℕ}
    (hmax : maxRequestSize < 2^32) {config : Config} {session : Session}
    (hnew : Session.new config .websocket = some session)
    (hpos : 0 < config.websocket.toNat) (hsize : config.websocket.toNat ≤ config.basic.toNat)
    {memory : List UInt8} (hmemory : memory.length = session.allocated) {fs : List WireFrame}
    (halloc : ∀ f ∈ fs, alloc f.payload.length = true) (hkeys : NoStaleKey (fun _ => 0) fs)
    {chunks : List (List UInt8)} (hchunks : chunks.flatten = fs.flatMap WireFrame.encode)
    (hpieces : ∀ y ∈ chunks, y ≠ [] ∧ y.length ≤ config.websocket.toNat)
    (hfit : ∀ f ∈ fs, ∀ y ∈ chunks, f.encode.length + y.length ≤ maxRequestSize)
    {wire : List Frame}
    (hwire : WithPings (Conversation.run WsHandler.on true alloc maxRequestSize session memory
      (chunks.map .data ++ [.closed])).sent wire)
    (hclient : ∀ f ∈ wire, client f.payloadLength = true) {received : List (List UInt8)}
    (hreceived : received.flatten = (wire.map fun f => f.make none).flatten) :
    getFrames (wire.length + 1) (consumeAll client .new received).1 = wire.map some ++ [none] ∧
      wire.filter (fun f => f.opcode ≠ opPing) =
        (untilEnd WsHandler.on (occasions (fs.map WireFrame.frame))).flatMap replies := by
  have hframes := (seenFrames_eq_iff _ fs).mpr hkeys
  have hsub : ∀ o ∈ untilEnd WsHandler.on (occasions (fs.map WireFrame.frame)),
      o = .opened ∨ ∃ g : WireFrame, o = .frame g.frame := by
    intro o ho
    rcases List.mem_cons.mp ((untilEnd_initial _).subset ho) with rfl | hframe
    · exact .inl rfl
    · obtain ⟨f, hf, rfl⟩ := List.mem_map.mp hframe
      obtain ⟨g, _, rfl⟩ := List.mem_map.mp hf
      exact .inr ⟨g, rfl⟩
  obtain ⟨-, -, hsent⟩ := Conversation.run_whole WsHandler.on true hmax hnew hpos hsize hmemory halloc
    hchunks hpieces hfit
  have hreplies : (untilEnd WsHandler.on (occasions (fs.map WireFrame.frame))).flatMap
      (Occasion.answers WsHandler.on true) =
      (untilEnd WsHandler.on (occasions (fs.map WireFrame.frame))).flatMap replies := by
    rw [List.flatMap_def, List.flatMap_def]
    refine congrArg List.flatten (List.map_congr_left fun o ho => ?_)
    obtain rfl | ⟨g, rfl⟩ := hsub o ho
    · rfl
    · exact (answers_eq_replies g).1
  have hquiet : (WsHandler.on .onBadClose).filterMap Action.frame = [] := rfl
  rw [hframes, hreplies, hquiet, ite_self, List.append_nil] at hsent
  rw [hsent] at hwire
  have hgood : ∀ f ∈ (untilEnd WsHandler.on (occasions (fs.map WireFrame.frame))).flatMap replies,
      Made f ∧ f.opcode ≠ opPing := by
    intro f hf
    obtain ⟨o, ho, hmem⟩ := List.mem_flatMap.mp hf
    obtain rfl | ⟨g, rfl⟩ := hsub o ho
    · cases hmem
    · exact (answers_eq_replies g).2 f hmem
  exact ⟨made_received (hwire.made fun f hf => (hgood f hf).1) hclient hreceived,
    hwire.without fun f hf => (hgood f hf).2⟩

theorem helloPing_received :
    getFrames 3 (consumeAll (fun _ => true) .new [[0x89, 0x01], [0x37, 0x8A], [0x01, 0x70]]).1 =
      [some (pingFrame 7), some (.carrying opPong [0x70]), none] := by
  have hkeys : NoStaleKey (fun _ => 0) helloPing :=
    ⟨fun h => (by cases h), fun h => (by cases h), trivial⟩
  let bytes := helloPing.flatMap WireFrame.encode
  have hcut : [bytes.take 5, bytes.drop 5].flatten = bytes := by
    simp only [List.flatten_cons, List.flatten_nil, List.append_nil, List.take_append_drop]
  have hnew : Session.new ⟨16, 16, 16⟩ .websocket = some ⟨16, 16, 0, 0, 0⟩ :=
    Session.new_of_lt .websocket (by decide)
  have hsent : (Conversation.run WsHandler.on true (fun _ => true) 4096 ⟨16, 16, 0, 0, 0⟩
      (List.replicate 16 0) ([bytes.take 5, bytes.drop 5].map .data ++ [.closed])).sent =
      [.carrying opPong [0x70]] := by decide +kernel
  have hwire : WithPings (Conversation.run WsHandler.on true (fun _ => true) 4096 ⟨16, 16, 0, 0, 0⟩
      (List.replicate 16 0) ([bytes.take 5, bytes.drop 5].map .data ++ [.closed])).sent
      [pingFrame 7, .carrying opPong [0x70]] := by
    rw [hsent]
    exact .ping 7 (.sent _ .nil)
  exact (@replies_received (fun _ => true) (fun _ => true) 4096 (by decide) ⟨16, 16, 16⟩ _ hnew
    (by decide) (by decide) (List.replicate 16 0) List.length_replicate helloPing (fun _ _ => rfl)
    hkeys [bytes.take 5, bytes.drop 5] hcut (by decide) (by decide) _ hwire (fun _ _ => rfl)
    [[0x89, 0x01], [0x37, 0x8A], [0x01, 0x70]] (by decide +kernel)).1

end MSylar.WebSocket
