import MSylar.WebSocket.FrameBuffer

/-!
# Cutting the received bytes

However a byte string is cut into pieces, feeding the pieces to `consume` one after
the other does what feeding the whole string does. `consume` is split after its first
byte (`consume_cons`); every state resumes because what is left to read is in
`require`, and `payload_received` moves along with it (`Ready`).
-/

namespace MSylar.WebSocket

variable {alloc : ℕ → Bool}

def Context.payload (c : Context) : List UInt8 :=
  if c.opcode = opBinary then c.payloadBinary else c.payloadText

/-- Between two turns: something is left to read in the states that count down, and in the
body the callbacks' counter and the parser's add up to the payload length. -/
def Ready (fb : FrameBuffer) : Prop :=
  match fb.parser.state with
  | .start => True
  | .head => True
  | .length => 0 < fb.parser.require ∧ fb.parser.require ≤ 8
  | .mask => 0 < fb.parser.require ∧ fb.parser.require ≤ 4
  | .body => 0 < fb.parser.require ∧
      fb.context.payloadReceived + fb.parser.require = fb.context.payloadLength ∧
      fb.context.payload.length = fb.context.payloadLength

/-- No callback has returned -1, and an exception came from a payload length that cannot be
allocated. -/
def Settled (alloc : ℕ → Bool) (fb : FrameBuffer) (exit : Exit) : Prop :=
  exit = .done ∧ Ready fb ∨ exit = .threw ∧ alloc fb.context.payloadLength = false

/-! ### Single bytes -/

theorem Context.opened_spec (opcode : UInt8) (n : ℕ) :
    (Context.opened opcode n).opcode = opcode ∧ (Context.opened opcode n).payloadLength = n ∧
      (Context.opened opcode n).payloadReceived = 0 ∧
      (Context.opened opcode n).payload = List.replicate n 0 := by
  unfold Context.opened
  split
  · rename_i h
    exact ⟨rfl, rfl, rfl, if_pos h⟩
  · rename_i h
    exact ⟨rfl, rfl, rfl, if_neg h⟩

theorem onFrameHeader_of_alloc {fb : FrameBuffer} (h : alloc fb.parser.length = true) :
    onFrameHeader alloc fb = (fb.openFrame, .done) := if_pos h

theorem onFrameHeader_of_not_alloc {fb : FrameBuffer} (h : ¬ alloc fb.parser.length = true) :
    onFrameHeader alloc fb =
      ({ fb with context := ⟨fb.parser.getOpcode, fb.parser.length, [], [], 0⟩ }, .threw) := if_neg h

theorem onFrameEnd_of_eq {fb : FrameBuffer}
    (h : fb.context.payloadReceived = fb.context.payloadLength) :
    onFrameEnd fb = (fb.deliver, .done) := if_neg (not_not_intro h)

theorem beginBody_body {fb : FrameBuffer} (hpos : fb.parser.length ≠ 0)
    (ha : alloc fb.parser.length = true) :
    beginBody alloc fb = ((fb.goto .body fb.parser.length).openFrame, .done) := by
  rw [beginBody, if_pos hpos]
  exact onFrameHeader_of_alloc ha

theorem beginBody_empty {fb : FrameBuffer} (hzero : fb.parser.length = 0)
    (ha : alloc fb.parser.length = true) :
    beginBody alloc fb = ((fb.goto .start fb.parser.require).openFrame.deliver, .done) := by
  obtain ⟨-, hlen, hrec, -⟩ := Context.opened_spec fb.parser.getOpcode fb.parser.length
  have hheader : onFrameHeader alloc (fb.goto .start fb.parser.require) =
      ((fb.goto .start fb.parser.require).openFrame, .done) := onFrameHeader_of_alloc ha
  rw [beginBody, if_neg (not_not_intro hzero), emptyFrame, hheader]
  exact onFrameEnd_of_eq (hrec.trans (hzero.symm.trans hlen.symm))

theorem beginBody_threw {fb : FrameBuffer} (ha : ¬ alloc fb.parser.length = true) :
    (beginBody alloc fb).2 = .threw ∧
      (beginBody alloc fb).1.context.payloadLength = fb.parser.length := by
  have hheader : ∀ state require, onFrameHeader alloc (fb.goto state require) =
      ({ fb.goto state require with context := ⟨fb.parser.getOpcode, fb.parser.length, [], [], 0⟩ },
        .threw) := fun _ _ => onFrameHeader_of_not_alloc ha
  unfold beginBody
  split
  · rw [hheader]
    exact ⟨rfl, rfl⟩
  · rw [emptyFrame, hheader]
    exact ⟨rfl, rfl⟩

theorem beginBody_settled (fb : FrameBuffer) :
    Settled alloc (beginBody alloc fb).1 (beginBody alloc fb).2 := by
  obtain ⟨-, hlen, hrec, hpay⟩ := Context.opened_spec fb.parser.getOpcode fb.parser.length
  by_cases ha : alloc fb.parser.length = true
  · by_cases hzero : fb.parser.length = 0
    · rw [beginBody_empty hzero ha]
      exact .inl ⟨rfl, trivial⟩
    · rw [beginBody_body hzero ha]
      refine .inl ⟨rfl, Nat.pos_of_ne_zero hzero, ?_, ?_⟩
      · exact (congrArg₂ _ hrec rfl).trans ((Nat.zero_add _).trans hlen.symm)
      · exact (congrArg _ hpay).trans (List.length_replicate.trans hlen.symm)
  · obtain ⟨hexit, hl⟩ := beginBody_threw ha
    exact .inr ⟨hexit, by simpa [hl] using ha⟩

theorem afterLength_settled (fb : FrameBuffer) :
    Settled alloc (afterLength alloc fb).1 (afterLength alloc fb).2 := by
  unfold afterLength
  split
  · exact .inl ⟨rfl, Nat.succ_pos 3, Nat.le_refl 4⟩
  · exact beginBody_settled fb

theorem takeBytes_zero (read : Parser → UInt8 → Parser) {p : Parser} (h : p.require = 0)
    (cs : List UInt8) : takeBytes read p cs = (p, 0) := by
  cases cs with
  | nil => rfl
  | cons c cs => exact if_pos h

theorem takeBytes_cons (read : Parser → UInt8 → Parser) {p : Parser} (h : p.require ≠ 0)
    (c : UInt8) (cs : List UInt8) :
    takeBytes read p (c :: cs) =
      ((takeBytes read (read p c) cs).1, (takeBytes read (read p c) cs).2 + 1) := if_neg h

theorem readTurn_single (read : Parser → UInt8 → Parser) (next : FrameBuffer → FrameBuffer × Exit)
    {fb : FrameBuffer} (h : fb.parser.require ≠ 0) (c : UInt8) :
    readTurn read next fb [c] =
      if (read fb.parser c).require = 0 then
        ⟨(next { fb with parser := read fb.parser c }).1,
          (next { fb with parser := read fb.parser c }).2, 0⟩
      else ⟨{ fb with parser := read fb.parser c }, .done, 0⟩ := by
  have htake : takeBytes read fb.parser [c] = (read fb.parser c, 1) := takeBytes_cons read h c []
  simp only [readTurn, htake, Nat.sub_self]

/-! ### Body callbacks -/

theorem decode_length (p : Parser) (src : List UInt8) : (p.decode src).length = src.length :=
  List.length_mapIdx

theorem decode_append (p : Parser) (a b : List UInt8) :
    p.decode (a ++ b) =
      p.decode a ++ { p with maskOffset := (a.length + p.maskOffset) % 4 }.decode b := by
  have hidx : ∀ i, Fin.ofNat 4 (i + a.length + p.maskOffset) =
      Fin.ofNat 4 (i + (a.length + p.maskOffset) % 4) := by
    intro i
    apply Fin.ext
    simp only [Fin.ofNat]
    omega
  simp only [Parser.decode, List.mapIdx_append, hidx]

theorem writeAt_length {buffer : List UInt8} {pos : ℕ} {bytes : List UInt8}
    (h : pos + bytes.length ≤ buffer.length) :
    (writeAt buffer pos bytes).length = buffer.length := by
  simp only [writeAt, List.length_append, List.length_take, List.length_drop]
  omega

theorem writeAt_append {buffer : List UInt8} {pos : ℕ} (h : pos ≤ buffer.length)
    (a b : List UInt8) :
    writeAt (writeAt buffer pos a) (pos + a.length) b = writeAt buffer pos (a ++ b) := by
  have hlen : pos + a.length = (buffer.take pos ++ a).length := by
    rw [List.length_append, List.length_take, Nat.min_eq_left h]
  have htake : (writeAt buffer pos a).take (pos + a.length) = buffer.take pos ++ a := by
    rw [writeAt, hlen, List.take_left]
  have hdrop : (writeAt buffer pos a).drop (pos + a.length + b.length) =
      buffer.drop (pos + (a ++ b).length) := by
    rw [← List.drop_drop, writeAt, hlen, List.drop_left, ← hlen, List.drop_drop,
      List.length_append, Nat.add_assoc]
  rw [writeAt, htake, hdrop, writeAt, List.append_assoc (buffer.take pos)]

theorem Context.receive_spec (c : Context) (bytes : List UInt8) :
    (c.receive bytes).opcode = c.opcode ∧ (c.receive bytes).payloadLength = c.payloadLength ∧
      (c.receive bytes).payloadReceived = c.payloadReceived + bytes.length ∧
      (c.receive bytes).payload = writeAt c.payload c.payloadReceived bytes := by
  by_cases h : c.opcode = opBinary <;> simp [Context.receive, Context.payload, h]

theorem Context.receive_append {c : Context} (h : c.payloadReceived ≤ c.payload.length)
    (a b : List UInt8) : (c.receive a).receive b = c.receive (a ++ b) := by
  unfold Context.payload at h
  by_cases hop : c.opcode = opBinary
  · rw [if_pos hop] at h
    simp only [Context.receive, hop, if_true, writeAt_append h, List.length_append, Nat.add_assoc]
  · rw [if_neg hop] at h
    simp only [Context.receive, hop, if_false, writeAt_append h, List.length_append, Nat.add_assoc]

theorem FrameBuffer.receive_append {fb : FrameBuffer}
    (h : fb.context.payloadReceived ≤ fb.context.payload.length) (a b : List UInt8) :
    (fb.receive a).receive b = fb.receive (a ++ b) := by
  have hoff : (b.length + (a.length + fb.parser.maskOffset) % 4) % 4 =
      ((a ++ b).length + fb.parser.maskOffset) % 4 := by
    rw [List.length_append]
    omega
  simp only [FrameBuffer.receive, hoff, decode_append, ← Context.receive_append h]

theorem onFrameBody_of_le {fb : FrameBuffer} {src : List UInt8}
    (h : fb.context.payloadReceived + src.length ≤ fb.context.payloadLength) :
    onFrameBody fb src = (fb.receive src, .done) := if_neg (Nat.not_lt.mpr h)

/-- The counters of a frame buffer inside a body. -/
structure InBody (fb : FrameBuffer) : Prop where
  state : fb.parser.state = .body
  pos : 0 < fb.parser.require
  count : fb.context.payloadReceived + fb.parser.require = fb.context.payloadLength
  size : fb.context.payload.length = fb.context.payloadLength

theorem Ready.inBody {fb : FrameBuffer} (h : Ready fb) (hs : fb.parser.state = .body) :
    InBody fb := by
  simp only [Ready, hs] at h
  exact ⟨hs, h.1, h.2.1, h.2.2⟩

theorem InBody.ready {fb : FrameBuffer} (h : InBody fb) : Ready fb := by
  simp only [Ready, h.state]
  exact ⟨h.pos, h.count, h.size⟩

theorem InBody.part {fb : FrameBuffer} (h : InBody fb) {src : List UInt8}
    (hlt : src.length < fb.parser.require) :
    InBody ((fb.receive src).goto .body (fb.parser.require - src.length)) := by
  obtain ⟨-, hlen, hrec, hpay⟩ := fb.context.receive_spec (fb.parser.decode src)
  have hcount := h.count
  refine ⟨rfl, Nat.sub_pos_of_lt hlt, ?_, ?_⟩
  · show (fb.context.receive _).payloadReceived + _ = (fb.context.receive _).payloadLength
    rw [hrec, hlen, decode_length]
    simp only [FrameBuffer.goto]
    omega
  · show (fb.context.receive _).payload.length = (fb.context.receive _).payloadLength
    rw [hpay, hlen, writeAt_length, h.size]
    rw [decode_length, h.size]
    omega

theorem InBody.bodyTurn_partial {fb : FrameBuffer} (h : InBody fb) {data : List UInt8}
    (hlt : data.length < fb.parser.require) :
    bodyTurn fb data = ⟨(fb.receive data).goto .body (fb.parser.require - data.length), .done,
      data.length - 1⟩ := by
  have hcount := h.count
  have hbody : onFrameBody fb data = (fb.receive data, .done) := onFrameBody_of_le (by omega)
  rw [bodyTurn, if_neg (Nat.ne_of_gt h.pos), if_neg (Nat.not_le.mpr hlt), hbody]
  rfl

theorem InBody.bodyTurn_last {fb : FrameBuffer} (h : InBody fb) {data : List UInt8}
    (hle : fb.parser.require ≤ data.length) :
    bodyTurn fb data =
      ⟨(fb.receive (data.take fb.parser.require)).deliver.goto .start 0, .done,
        fb.parser.require - 1⟩ := by
  have hcount := h.count
  have htake : (data.take fb.parser.require).length = fb.parser.require :=
    List.length_take_of_le hle
  obtain ⟨src, hsrc⟩ : ∃ src, data.take fb.parser.require = src := ⟨_, rfl⟩
  rw [hsrc] at htake
  have hbody : onFrameBody fb src = (fb.receive src, .done) := onFrameBody_of_le (by omega)
  have hend : onFrameEnd ((fb.receive src).goto .body 0) =
      (((fb.receive src).goto .body 0).deliver, .done) := by
    obtain ⟨-, hlen, hrec, -⟩ := fb.context.receive_spec (fb.parser.decode src)
    refine onFrameEnd_of_eq ?_
    show (fb.context.receive _).payloadReceived = (fb.context.receive _).payloadLength
    rw [hrec, hlen, decode_length, htake, hcount]
  have hturn : endTurn ((fb.receive src).goto .body 0) (fb.parser.require - 1) =
      ⟨(fb.receive src).deliver.goto .start 0, .done, fb.parser.require - 1⟩ := by
    rw [endTurn, hend]
    rfl
  rw [bodyTurn, if_neg (Nat.ne_of_gt h.pos), if_pos hle, hsrc, hbody]
  exact hturn

theorem turn_settled {fb : FrameBuffer} (h : Ready fb) (c : UInt8) :
    Settled alloc (turn alloc fb c []).buffer (turn alloc fb c []).exit := by
  cases hs : fb.parser.state with
  | start =>
    simp only [turn, hs]
    exact .inl ⟨rfl, trivial⟩
  | head =>
    simp only [turn, hs, headTurn]
    split
    · refine .inl ⟨rfl, ?_⟩
      simp only [Ready, FrameBuffer.goto]
      split <;> decide
    · exact afterLength_settled _
  | length =>
    simp only [Ready, hs] at h
    simp only [turn, hs, readTurn_single readLength _ (Nat.ne_of_gt h.1)]
    split
    · exact afterLength_settled _
    · rename_i hne
      refine .inl ⟨rfl, ?_⟩
      simp only [readLength] at hne
      simp only [Ready, readLength, hs]
      omega
  | mask =>
    simp only [Ready, hs] at h
    simp only [turn, hs, readTurn_single readMask _ (Nat.ne_of_gt h.1)]
    split
    · exact beginBody_settled _
    · rename_i hne
      refine .inl ⟨rfl, ?_⟩
      simp only [readMask] at hne
      simp only [Ready, readMask, hs]
      omega
  | body =>
    have hb := h.inBody hs
    simp only [turn, hs]
    rcases Nat.lt_or_ge [c].length fb.parser.require with hlt | hge
    · rw [hb.bodyTurn_partial hlt]
      exact .inl ⟨rfl, (hb.part hlt).ready⟩
    · rw [hb.bodyTurn_last hge]
      exact .inl ⟨rfl, trivial⟩

/-! ### Splitting the data -/

/-- A second call after one that has read everything. -/
def Outcome.andThen (o : Outcome) (next : FrameBuffer → Outcome) : Outcome :=
  if o.exit = .done then (next o.buffer).after o.nparsed else o

theorem Outcome.after_after (o : Outcome) (m n : ℕ) : (o.after m).after n = o.after (n + m) := by
  simp only [Outcome.after, Nat.add_assoc]

theorem Outcome.after_zero (o : Outcome) : o.after 0 = o := by
  simp only [Outcome.after, Nat.zero_add]

theorem execute_skip (fb : FrameBuffer) (skip : ℕ) (data : List UInt8) :
    execute alloc fb skip data =
      (consume alloc fb (data.drop skip)).after (min skip data.length) := by
  induction data generalizing skip with
  | nil => simp [execute, consume, Outcome.after]
  | cons c rest ih =>
    cases skip with
    | zero => simp [consume, Outcome.after_zero]
    | succ skip =>
      rw [execute, ih skip, Outcome.after_after, List.drop_succ_cons, List.length_cons,
        Nat.succ_min_succ, Nat.add_comm]

theorem consume_of_turn {fb fb' : FrameBuffer} {c : UInt8} {rest : List UInt8} {extra : ℕ}
    (h : turn alloc fb c rest = ⟨fb', .done, extra⟩) :
    consume alloc fb (c :: rest) =
      (consume alloc fb' (rest.drop extra)).after (min extra rest.length + 1) := by
  rw [consume, execute, h]
  dsimp only
  rw [if_pos rfl, execute_skip, Outcome.after_after, Nat.add_comm]

theorem consume_of_turn_ne {fb : FrameBuffer} {c : UInt8} {rest : List UInt8}
    (h : (turn alloc fb c rest).exit ≠ .done) :
    consume alloc fb (c :: rest) = ⟨(turn alloc fb c rest).buffer, (turn alloc fb c rest).exit,
      (turn alloc fb c rest).extra⟩ := by
  rw [consume, execute, if_neg h]

theorem consume_nil (fb : FrameBuffer) : consume alloc fb [] = ⟨fb, .done, 0⟩ := rfl

theorem consume_cons_same {fb : FrameBuffer} {c : UInt8} {rest : List UInt8}
    (h : turn alloc fb c rest = turn alloc fb c []) (hx : (turn alloc fb c []).extra = 0) :
    consume alloc fb (c :: rest) = (consume alloc fb [c]).andThen fun b => consume alloc b rest := by
  obtain ⟨fb', exit, extra, ht⟩ : ∃ fb' exit extra, turn alloc fb c [] = ⟨fb', exit, extra⟩ :=
    ⟨_, _, _, rfl⟩
  rw [ht] at h hx
  dsimp only at hx
  subst hx
  by_cases hexit : exit = .done
  · subst hexit
    rw [consume_of_turn h, consume_of_turn ht]
    simp [consume_nil, Outcome.andThen, Outcome.after]
  · rw [consume_of_turn_ne (by rw [h]; exact hexit), consume_of_turn_ne (by rw [ht]; exact hexit), h, ht,
      Outcome.andThen, if_neg hexit]

/-- The turn reads on after its first byte, as a turn that starts there would. -/
theorem consume_cons_on {fb fb₁ : FrameBuffer} {c d : UInt8} {ds : List UInt8}
    (h₁ : turn alloc fb c [] = ⟨fb₁, .done, 0⟩)
    (h : turn alloc fb c (d :: ds) =
      ⟨(turn alloc fb₁ d ds).buffer, (turn alloc fb₁ d ds).exit, (turn alloc fb₁ d ds).extra + 1⟩) :
    consume alloc fb (c :: d :: ds) =
      (consume alloc fb [c]).andThen fun b => consume alloc b (d :: ds) := by
  have hone : consume alloc fb [c] = ⟨fb₁, .done, 1⟩ := by
    rw [consume_of_turn h₁]
    rfl
  rw [hone, Outcome.andThen, if_pos rfl]
  dsimp only
  obtain ⟨fb', exit, extra, ht⟩ :
      ∃ fb' exit extra, turn alloc fb₁ d ds = ⟨fb', exit, extra⟩ := ⟨_, _, _, rfl⟩
  rw [ht] at h
  by_cases hexit : exit = .done
  · subst hexit
    rw [consume_of_turn h, consume_of_turn ht, Outcome.after_after, List.drop_succ_cons,
      List.length_cons, Nat.succ_min_succ, Nat.add_comm]
  · rw [consume_of_turn_ne (by rw [h]; exact hexit), consume_of_turn_ne (by rw [ht]; exact hexit), h,
      ht, Outcome.after, Nat.add_comm]

theorem readTurn_last (read : Parser → UInt8 → Parser) (next : FrameBuffer → FrameBuffer × Exit)
    {fb : FrameBuffer} (h : fb.parser.require ≠ 0) {c : UInt8}
    (hlast : (read fb.parser c).require = 0) (rest : List UInt8) :
    readTurn read next fb (c :: rest) = readTurn read next fb [c] := by
  simp only [readTurn, takeBytes_cons read h, takeBytes_zero read hlast]

theorem readTurn_on (read : Parser → UInt8 → Parser) (next : FrameBuffer → FrameBuffer × Exit)
    {fb : FrameBuffer} (h : fb.parser.require ≠ 0) {c d : UInt8} {ds : List UInt8}
    (hon : (read fb.parser c).require ≠ 0) :
    readTurn read next fb (c :: d :: ds) =
      ⟨(readTurn read next { fb with parser := read fb.parser c } (d :: ds)).buffer,
        (readTurn read next { fb with parser := read fb.parser c } (d :: ds)).exit,
        (readTurn read next { fb with parser := read fb.parser c } (d :: ds)).extra + 1⟩ := by
  simp only [readTurn, takeBytes_cons read h, takeBytes_cons read hon]
  split
  · rfl
  · rfl

theorem InBody.bodyTurn_on {fb : FrameBuffer} (h : InBody fb) {c d : UInt8} {ds : List UInt8}
    (hlt : 1 < fb.parser.require) :
    bodyTurn fb (c :: d :: ds) =
      ⟨(bodyTurn ((fb.receive [c]).goto .body (fb.parser.require - 1)) (d :: ds)).buffer,
        (bodyTurn ((fb.receive [c]).goto .body (fb.parser.require - 1)) (d :: ds)).exit,
        (bodyTurn ((fb.receive [c]).goto .body (fb.parser.require - 1)) (d :: ds)).extra + 1⟩ := by
  have hfb₁ : InBody ((fb.receive [c]).goto .body (fb.parser.require - 1)) := h.part hlt
  have hcount := h.count
  have hrec : ∀ src, ((fb.receive [c]).goto .body (fb.parser.require - 1)).receive src =
      (fb.receive (c :: src)).goto .body (fb.parser.require - 1) := by
    intro src
    have hle : fb.context.payloadReceived ≤ fb.context.payload.length := by
      rw [h.size]
      omega
    exact congrArg (fun b => b.goto .body (fb.parser.require - 1))
      (FrameBuffer.receive_append hle [c] src)
  have hreq : ((fb.receive [c]).goto .body (fb.parser.require - 1)).parser.require =
      fb.parser.require - 1 := rfl
  rcases Nat.lt_or_ge (c :: d :: ds).length fb.parser.require with hpart | hlast
  · have hpart₁ : (d :: ds).length < fb.parser.require - 1 := by
      simp only [List.length_cons] at hpart ⊢
      omega
    have hsub : fb.parser.require - 1 - (d :: ds).length =
        fb.parser.require - (c :: d :: ds).length := by
      simp only [List.length_cons]
      omega
    rw [h.bodyTurn_partial hpart, hfb₁.bodyTurn_partial hpart₁, hrec, hreq, hsub]
    rfl
  · have hlast₁ : fb.parser.require - 1 ≤ (d :: ds).length := by
      simp only [List.length_cons] at hlast ⊢
      omega
    have htake : (c :: d :: ds).take fb.parser.require =
        c :: (d :: ds).take (fb.parser.require - 1) := by
      conv_lhs => rw [← Nat.sub_add_cancel h.pos, List.take_succ_cons]
    rw [h.bodyTurn_last hlast, hfb₁.bodyTurn_last hlast₁, hreq, hrec, htake]
    simp only [Turn.mk.injEq, true_and]
    exact ⟨rfl, by omega⟩

theorem Outcome.andThen_congr {o : Outcome} {f g : FrameBuffer → Outcome}
    (h : o.exit = .done → f o.buffer = g o.buffer) : o.andThen f = o.andThen g := by
  unfold Outcome.andThen
  split
  · rename_i hdone
    rw [h hdone]
  · rfl

theorem Outcome.andThen_assoc (o : Outcome) (f g : FrameBuffer → Outcome) :
    (o.andThen f).andThen g = o.andThen fun b => (f b).andThen g := by
  obtain ⟨b, exit, n⟩ := o
  by_cases h : exit = .done
  · subst h
    simp only [Outcome.andThen, if_true]
    by_cases hf : (f b).exit = .done
    · simp only [Outcome.after, hf, if_true, Nat.add_assoc]
    · simp only [Outcome.after, hf, if_false]
  · simp only [Outcome.andThen, h, if_false]

theorem Outcome.andThen_nil (o : Outcome) : (o.andThen fun b => consume alloc b []) = o := by
  obtain ⟨b, exit, n⟩ := o
  by_cases h : exit = .done
  · subst h
    rfl
  · rw [Outcome.andThen, if_neg h]

theorem consume_cons_read (read : Parser → UInt8 → Parser) (next : FrameBuffer → FrameBuffer × Exit)
    {fb : FrameBuffer} (hturn : ∀ b e es, b.parser.state = fb.parser.state →
      turn alloc b e es = readTurn read next b (e :: es))
    (hread : ∀ p c, (read p c).state = p.state) (hne : fb.parser.require ≠ 0) (c d : UInt8)
    (ds : List UInt8) :
    consume alloc fb (c :: d :: ds) =
      (consume alloc fb [c]).andThen fun b => consume alloc b (d :: ds) := by
  have hone : turn alloc fb c [] = _ := (hturn fb c [] rfl).trans (readTurn_single read next hne c)
  by_cases hlast : (read fb.parser c).require = 0
  · refine consume_cons_same ?_ ?_
    · rw [hturn fb c _ rfl, hturn fb c _ rfl]
      exact readTurn_last read next hne hlast (d :: ds)
    · rw [hone, if_pos hlast]
  · rw [if_neg hlast] at hone
    refine consume_cons_on hone ?_
    rw [hturn _ d ds (hread fb.parser c), hturn fb c _ rfl]
    exact readTurn_on read next hne hlast

/-- `consume` goes on where it stopped after the first byte. -/
theorem consume_cons {fb : FrameBuffer} (h : Ready fb) (c : UInt8) (rest : List UInt8) :
    consume alloc fb (c :: rest) = (consume alloc fb [c]).andThen fun b => consume alloc b rest := by
  cases rest with
  | nil => rw [Outcome.andThen_nil]
  | cons d ds =>
    cases hs : fb.parser.state with
    | start =>
      exact consume_cons_same (by simp only [turn, hs]) (by simp only [turn, hs, startTurn])
    | head =>
      refine consume_cons_same (by simp only [turn, hs]) ?_
      simp only [turn, hs, headTurn]
      split <;> rfl
    | length =>
      simp only [Ready, hs] at h
      refine consume_cons_read readLength (afterLength alloc) (fun b e es hb => ?_) (fun p c => rfl)
        (Nat.ne_of_gt h.1) c d ds
      simp only [turn, hb, hs]
    | mask =>
      simp only [Ready, hs] at h
      refine consume_cons_read readMask (beginBody alloc) (fun b e es hb => ?_) (fun p c => rfl)
        (Nat.ne_of_gt h.1) c d ds
      simp only [turn, hb, hs]
    | body =>
      have hb := h.inBody hs
      have hturn : ∀ es, turn alloc fb c es = bodyTurn fb (c :: es) := by
        intro es
        simp only [turn, hs]
      rcases Nat.lt_or_ge 1 fb.parser.require with hlt | hge
      · have hone : turn alloc fb c [] = _ := (hturn []).trans (hb.bodyTurn_partial hlt)
        refine consume_cons_on hone ?_
        rw [hturn]
        exact hb.bodyTurn_on hlt
      · have hreq : fb.parser.require = 1 := Nat.le_antisymm hge hb.pos
        have hlast : ∀ es, turn alloc fb c es =
            ⟨(fb.receive [c]).deliver.goto .start 0, .done, 0⟩ := by
          intro es
          rw [hturn, hb.bodyTurn_last (by simp [hreq]), hreq]
          rfl
        exact consume_cons_same (by rw [hlast, hlast]) (by rw [hlast])

/-! ### Whole calls -/

theorem consume_single_settled {fb : FrameBuffer} (h : Ready fb) (c : UInt8) :
    Settled alloc (consume alloc fb [c]).buffer (consume alloc fb [c]).exit ∧
      ((consume alloc fb [c]).exit = .done → (consume alloc fb [c]).nparsed = 1) := by
  have hturn := @turn_settled alloc fb h c
  obtain ⟨fb', exit, extra, ht⟩ : ∃ fb' exit extra, turn alloc fb c [] = ⟨fb', exit, extra⟩ :=
    ⟨_, _, _, rfl⟩
  rw [ht] at hturn
  by_cases hexit : exit = .done
  · subst hexit
    have hone : consume alloc fb [c] = ⟨fb', .done, 1⟩ := by
      rw [consume_of_turn ht, List.drop_nil, List.length_nil, Nat.min_zero]
      rfl
    rw [hone]
    exact ⟨hturn, fun _ => rfl⟩
  · have hone : consume alloc fb [c] = ⟨fb', exit, extra⟩ := by
      rw [consume_of_turn_ne (by rw [ht]; exact hexit), ht]
    rw [hone]
    exact ⟨hturn, fun hd => absurd hd hexit⟩

theorem consume_settled {fb : FrameBuffer} (h : Ready fb) (data : List UInt8) :
    Settled alloc (consume alloc fb data).buffer (consume alloc fb data).exit ∧
      ((consume alloc fb data).exit = .done → (consume alloc fb data).nparsed = data.length) := by
  induction data generalizing fb with
  | nil => exact ⟨.inl ⟨rfl, h⟩, fun _ => rfl⟩
  | cons c rest ih =>
    obtain ⟨hset, hone⟩ := @consume_single_settled alloc fb h c
    rw [consume_cons h, Outcome.andThen]
    split
    · rename_i hdone
      rcases hset with ⟨-, hready⟩ | ⟨hthrew, -⟩
      · obtain ⟨hset', hcount⟩ := ih hready
        refine ⟨hset', fun hd => ?_⟩
        show (consume alloc fb [c]).nparsed + (consume alloc _ rest).nparsed = _
        rw [hone hdone, hcount hd, List.length_cons, Nat.add_comm]
      · rw [hthrew] at hdone
        cases hdone
    · rename_i hne
      exact ⟨hset, fun hd => absurd hd hne⟩

theorem consume_append {fb : FrameBuffer} (h : Ready fb) (a b : List UInt8) :
    consume alloc fb (a ++ b) = (consume alloc fb a).andThen fun fb' => consume alloc fb' b := by
  induction a generalizing fb with
  | nil => exact (Outcome.after_zero _).symm
  | cons c rest ih =>
    rw [List.cons_append, consume_cons h c (rest ++ b), consume_cons h c rest,
      Outcome.andThen_assoc]
    apply Outcome.andThen_congr
    intro hdone
    refine ih ?_
    rcases (@consume_single_settled alloc fb h c).1 with ⟨-, hready⟩ | ⟨hthrew, -⟩
    · exact hready
    · rw [hthrew] at hdone
      cases hdone

/-- Calls of `consume` one after the other, up to one that does not return normally:
the last outcome and what the calls returned. -/
def consumeAll (alloc : ℕ → Bool) : FrameBuffer → List (List UInt8) → FrameBuffer × Exit × List ℕ
  | fb, [] => (fb, .done, [])
  | fb, chunk :: chunks =>
    let r := consume alloc fb chunk
    if r.exit = .done then
      let q := consumeAll alloc r.buffer chunks
      (q.1, q.2.1, r.nparsed :: q.2.2)
    else (r.buffer, r.exit, [])

theorem consumeAll_eq_consume {fb : FrameBuffer} (h : Ready fb) (chunks : List (List UInt8)) :
    (consumeAll alloc fb chunks).1 = (consume alloc fb chunks.flatten).buffer ∧
      (consumeAll alloc fb chunks).2.1 = (consume alloc fb chunks.flatten).exit ∧
      ((consumeAll alloc fb chunks).2.1 = .done →
        (consumeAll alloc fb chunks).2.2 = chunks.map List.length) := by
  induction chunks generalizing fb with
  | nil => exact ⟨rfl, rfl, fun _ => rfl⟩
  | cons chunk chunks ih =>
    obtain ⟨hset, hcount⟩ := @consume_settled alloc fb h chunk
    rw [List.flatten_cons, consume_append h, Outcome.andThen, consumeAll]
    by_cases hdone : (consume alloc fb chunk).exit = .done
    · rcases hset with ⟨-, hready⟩ | ⟨hthrew, -⟩
      · obtain ⟨hbuffer, hexit, hreturned⟩ := ih hready
        rw [if_pos hdone, if_pos hdone]
        refine ⟨hbuffer, hexit, fun hd => ?_⟩
        rw [List.map_cons, hcount hdone]
        exact congrArg _ (hreturned hd)
      · rw [hthrew] at hdone
        cases hdone
    · rw [if_neg hdone, if_neg hdone]
      exact ⟨rfl, rfl, fun hd => absurd hd hdone⟩

/-- Feeding a byte string in pieces and feeding it at once leave the same frames, parser
and context. No callback returns -1; a call that does not read all it was given is one in
which a declared payload length cannot be allocated. -/
theorem consume_independent_of_chunks (alloc : ℕ → Bool) (chunks : List (List UInt8)) :
    (consumeAll alloc .new chunks).1 = (consume alloc .new chunks.flatten).buffer ∧
      (consumeAll alloc .new chunks).2.1 = (consume alloc .new chunks.flatten).exit ∧
      (consume alloc .new chunks.flatten).exit ≠ .bodyTooLong ∧
      (consume alloc .new chunks.flatten).exit ≠ .endMismatch ∧
      ((consume alloc .new chunks.flatten).exit = .threw →
        alloc (consume alloc .new chunks.flatten).buffer.context.payloadLength = false) ∧
      ((consume alloc .new chunks.flatten).exit = .done →
        (consume alloc .new chunks.flatten).nparsed = chunks.flatten.length ∧
          (consumeAll alloc .new chunks).2.2 = chunks.map List.length) := by
  have hnew : Ready .new := trivial
  obtain ⟨hbuffer, hexit, hreturned⟩ := @consumeAll_eq_consume alloc .new hnew chunks
  obtain ⟨hset, hcount⟩ := @consume_settled alloc .new hnew chunks.flatten
  refine ⟨hbuffer, hexit, ?_, ?_, ?_, fun hd => ⟨hcount hd, hreturned (hexit.trans hd)⟩⟩
  · rcases hset with ⟨hd, -⟩ | ⟨ht, -⟩
    · rw [hd]; decide
    · rw [ht]; decide
  · rcases hset with ⟨hd, -⟩ | ⟨ht, -⟩
    · rw [hd]; decide
    · rw [ht]; decide
  · intro hthrew
    rcases hset with ⟨hd, -⟩ | ⟨-, ha⟩
    · rw [hthrew] at hd
      cases hd
    · exact ha

end MSylar.WebSocket
