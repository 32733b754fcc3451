import MSylar.Server.Buffer
import MSylar.WebSocket.HandleClient
import MSylar.WebSocket.Stream

/-!
# Receiving frames (wsserver.cc:163-203, parser.cc:43-63)

`co_recvFrame` counts the bytes it receives against `max_request_size`; `on_frame_header` resizes a
payload buffer to the length that a frame header declares, before any byte of the payload has
arrived. `Position` reads the declared lengths off the byte stream. The bytes come from the buffer of
the session, whose array may be smaller than `m_buffer_size`.
-/

namespace MSylar.WebSocket
open MSylar.Execution MSylar.Word MSylar.Server
variable {alloc : ℕ → Bool}

/-! ### Declared lengths -/

/-- Which byte of a frame comes next; `left` counts the bytes of the field. -/
inductive Position where
  | first
  | second
  | extended (masked : Bool) (left value : ℕ)
  | key (left value : ℕ)
  | payload (left : ℕ)
  deriving DecidableEq

namespace Position

def declares (n : ℕ) : Position × Option ℕ := (if n = 0 then .first else .payload n, some n)

def afterLength (masked : Bool) (n : ℕ) : Position × Option ℕ :=
  if masked then (.key 4 n, none) else declares n

/-- The position after a byte, and the length that the header declares if this was its last byte. -/
def next : Position → UInt8 → Position × Option ℕ
  | .first, _ => (.second, none)
  | .second, c =>
    if 126 ≤ (c &&& 0x7F).toNat then
      (.extended (c &&& 0x80 != 0) (if (c &&& 0x7F).toNat = 127 then 8 else 2) 0, none)
    else afterLength (c &&& 0x80 != 0) (c &&& 0x7F).toNat
  | .extended masked left value, c =>
    if left = 1 then afterLength masked (shiftIn value c)
    else (.extended masked (left - 1) (shiftIn value c), none)
  | .key left value, _ => if left = 1 then declares value else (.key (left - 1) value, none)
  | .payload left, _ => if left = 1 then (.first, none) else (.payload (left - 1), none)

def run (p : Position) (bytes : List UInt8) : Position := bytes.foldl (fun p c => (p.next c).1) p

def declared : Position → List UInt8 → List ℕ
  | _, [] => []
  | p, c :: bytes => (p.next c).2.toList ++ declared (p.next c).1 bytes

theorem declared_append (p : Position) (a b : List UInt8) :
    p.declared (a ++ b) = p.declared a ++ (p.run a).declared b := by
  induction a generalizing p with
  | nil => rfl
  | cons c a ih =>
    simp only [List.cons_append, declared, ih, List.append_assoc]
    rfl

theorem run_append (p : Position) (a b : List UInt8) : p.run (a ++ b) = (p.run a).run b :=
  List.foldl_append ..

end Position

/-- The position of the parser in the stream. -/
def Parser.position (p : Parser) : Position :=
  match p.state with
  | .start => .first
  | .head => .second
  | .length => .extended p.hasMask p.require p.length
  | .mask => .key p.require p.length
  | .body => .payload p.require

/-- The size of the payload buffers. -/
def Context.held (c : Context) : ℕ := c.payloadText.length + c.payloadBinary.length

/-- Between two bytes; the mask flag is not yet set in the state `head`. -/
structure Between (fb : FrameBuffer) : Prop where
  ready : Ready fb
  head : fb.parser.state = .head → fb.parser.hasMask = false

theorem opened_held (opcode : UInt8) (n : ℕ) : (Context.opened opcode n).held = n := by
  unfold Context.opened Context.held
  split
  · exact (Nat.zero_add _).trans List.length_replicate
  · exact List.length_replicate

/-- What a byte does that takes the parser to `p`, with the header's length if it was the last byte
of a header. -/
def Reads (alloc : ℕ → Bool) (fb : FrameBuffer) (res : FrameBuffer × Exit) :
    Position × Option ℕ → Prop
  | (p, none) => res.2 = .done ∧ Between res.1 ∧ res.1.parser.position = p ∧
      res.1.context.held = fb.context.held
  | (p, some n) =>
    if alloc n then res.2 = .done ∧ Between res.1 ∧ res.1.parser.position = p ∧
      res.1.context.held = n
    else res.2 = .threw

theorem beginBody_reads (fb fb₀ : FrameBuffer) :
    Reads alloc fb₀ (beginBody alloc fb) (Position.declares fb.parser.length) := by
  unfold Reads Position.declares
  dsimp only
  by_cases ha : alloc fb.parser.length = true
  · have hsettled : Settled alloc (beginBody alloc fb).1 (beginBody alloc fb).2 :=
      beginBody_settled fb
    rw [if_pos ha]
    by_cases hzero : fb.parser.length = 0
    · rw [beginBody_empty hzero ha] at hsettled ⊢
      rcases hsettled with ⟨_, hready⟩ | ⟨hthrew, _⟩
      · rw [if_pos hzero]
        refine ⟨rfl, ⟨hready, fun hstate => ?_⟩, rfl, opened_held _ _⟩
        cases hstate
      · cases hthrew
    · rw [beginBody_body hzero ha] at hsettled ⊢
      rcases hsettled with ⟨_, hready⟩ | ⟨hthrew, _⟩
      · rw [if_neg hzero]
        refine ⟨rfl, ⟨hready, fun hstate => ?_⟩, rfl, opened_held _ _⟩
        cases hstate
      · cases hthrew
  · rw [if_neg ha]
    exact (beginBody_threw ha).1

theorem afterLength_reads {fb fb₀ : FrameBuffer} {masked : Bool} (hmask : fb.parser.hasMask = masked)
    (hheld : fb.context.held = fb₀.context.held) :
    Reads alloc fb₀ (afterLength alloc fb) (Position.afterLength masked fb.parser.length) := by
  unfold afterLength Position.afterLength
  cases masked with
  | true =>
    rw [if_pos hmask, if_pos rfl]
    refine ⟨rfl, ⟨⟨Nat.succ_pos 3, le_rfl⟩, fun hstate => ?_⟩, rfl, hheld⟩
    cases hstate
  | false =>
    rw [if_neg (by rw [hmask]; exact Bool.false_ne_true), if_neg Bool.false_ne_true]
    exact beginBody_reads fb fb₀

theorem mask_flag_set (flags : UInt8) : ((flags ||| hasMaskFlag) &&& hasMaskFlag != 0) = true := by
  have habsorb : (flags ||| hasMaskFlag) &&& hasMaskFlag = hasMaskFlag := by
    refine UInt8.toBitVec_inj.mp ?_
    rw [UInt8.toBitVec_and, UInt8.toBitVec_or]
    ext i hi
    rw [BitVec.getElem_and, BitVec.getElem_or]
    cases flags.toBitVec[i] <;> cases hasMaskFlag.toBitVec[i] <;> rfl
  rw [habsorb]
  rfl

theorem start_flags (c : UInt8) :
    ((if c &&& 0x80 ≠ 0 then (c &&& 0xF) ||| finalFrame else c &&& 0xF) &&& hasMaskFlag != 0) =
      false := by
  obtain ⟨n, hn, hc⟩ := low_bits c
  have hbits := (flag_bits n hn (decide (c &&& 0x80 ≠ 0)) false).2
  rw [hc]
  simpa using hbits

theorem receive_held {fb : FrameBuffer} (h : InBody fb) {src : List UInt8}
    (hle : src.length ≤ fb.parser.require) : (fb.receive src).context.held = fb.context.held := by
  have hcount := h.count
  have hsize := h.size
  have hlength : (fb.parser.decode src).length = src.length := decode_length _ _
  unfold Context.payload at hsize
  show (fb.context.receive (fb.parser.decode src)).held = fb.context.held
  unfold Context.receive Context.held
  by_cases hop : fb.context.opcode = opBinary
  · rw [if_pos hop] at hsize ⊢
    dsimp only
    rw [writeAt_length (by omega)]
  · rw [if_neg hop] at hsize ⊢
    dsimp only
    rw [writeAt_length (by omega)]

theorem headTurn_reads {fb : FrameBuffer} (h : fb.parser.hasMask = false) (c : UInt8) :
    Reads alloc fb ((headTurn alloc fb c).buffer, (headTurn alloc fb c).exit)
      (Position.next .second c) := by
  have hflag : ((if c &&& 0x80 ≠ 0 then fb.parser.flags ||| hasMaskFlag else fb.parser.flags) &&&
      hasMaskFlag != 0) = (c &&& 0x80 != 0) := by
    by_cases hmask : c &&& 0x80 = 0
    · rw [if_neg (not_not.mpr hmask), hmask]
      exact h
    · rw [if_pos hmask, mask_flag_set]
      exact (bne_iff_ne.mpr hmask).symm
  unfold headTurn
  dsimp only [Position.next]
  by_cases hlong : 126 ≤ (c &&& 0x7F).toNat
  · rw [if_pos hlong, if_pos hlong]
    refine ⟨rfl, ⟨?_, fun hstate => ?_⟩, ?_, rfl⟩
    · simp only [Ready, FrameBuffer.goto]
      split <;> decide
    · cases hstate
    · simp only [Parser.position, FrameBuffer.goto, Parser.hasMask]
      rw [hflag]
  · rw [if_neg hlong, if_neg hlong]
    exact afterLength_reads hflag rfl

/-- A byte of the length or of the key, with what follows its last byte. -/
theorem readTurn_reads {read : Parser → UInt8 → Parser}
    {next : FrameBuffer → FrameBuffer × Exit} {fb : FrameBuffer} {c : UInt8}
    (hpos : 0 < fb.parser.require)
    (hrequire : (read fb.parser c).require = fb.parser.require - 1)
    {last : Position × Option ℕ}
    (hlast : Reads alloc fb (next { fb with parser := read fb.parser c }) last)
    (hmore : 0 < (read fb.parser c).require → Between { fb with parser := read fb.parser c }) :
    Reads alloc fb ((readTurn read next fb [c]).buffer, (readTurn read next fb [c]).exit)
      (if fb.parser.require = 1 then last else ((read fb.parser c).position, none)) := by
  rw [readTurn_single read next (Nat.ne_of_gt hpos), hrequire]
  by_cases hone : fb.parser.require = 1
  · rw [if_pos (by omega), if_pos hone]
    exact hlast
  · rw [if_neg (by omega), if_neg hone]
    exact ⟨rfl, hmore (by omega), rfl, rfl⟩

theorem lengthTurn_reads {fb : FrameBuffer} (h : Ready fb) (hstate : fb.parser.state = .length)
    (c : UInt8) :
    Reads alloc fb ((readTurn readLength (afterLength alloc) fb [c]).buffer,
        (readTurn readLength (afterLength alloc) fb [c]).exit)
      (Position.next (.extended fb.parser.hasMask fb.parser.require fb.parser.length) c) := by
  simp only [Ready, hstate] at h
  have hstate' : (readLength fb.parser c).state = .length := hstate
  have hposition : (readLength fb.parser c).position = .extended fb.parser.hasMask
      (fb.parser.require - 1) (shiftIn fb.parser.length c) := by
    simp only [Parser.position, hstate']
    rfl
  rw [Position.next, ← hposition]
  refine readTurn_reads h.1 rfl (afterLength_reads rfl rfl) fun hleft => ⟨?_, fun hhead => ?_⟩
  · simp only [Ready, hstate']
    exact ⟨hleft, (Nat.sub_le _ 1).trans h.2⟩
  · cases hstate'.symm.trans hhead

theorem maskTurn_reads {fb : FrameBuffer} (h : Ready fb) (hstate : fb.parser.state = .mask)
    (c : UInt8) :
    Reads alloc fb ((readTurn readMask (beginBody alloc) fb [c]).buffer,
        (readTurn readMask (beginBody alloc) fb [c]).exit)
      (Position.next (.key fb.parser.require fb.parser.length) c) := by
  simp only [Ready, hstate] at h
  have hstate' : (readMask fb.parser c).state = .mask := hstate
  have hposition : (readMask fb.parser c).position =
      .key (fb.parser.require - 1) fb.parser.length := by
    simp only [Parser.position, hstate']
    rfl
  rw [Position.next, ← hposition]
  refine readTurn_reads h.1 rfl (beginBody_reads _ fb) fun hleft => ⟨?_, fun hhead => ?_⟩
  · simp only [Ready, hstate']
    exact ⟨hleft, (Nat.sub_le _ 1).trans h.2⟩
  · cases hstate'.symm.trans hhead

theorem bodyTurn_reads {fb : FrameBuffer} (h : InBody fb) (c : UInt8) :
    Reads alloc fb ((bodyTurn fb [c]).buffer, (bodyTurn fb [c]).exit)
      (Position.next (.payload fb.parser.require) c) := by
  have hpos := h.pos
  have hheld : (fb.receive [c]).context.held = fb.context.held := receive_held h hpos
  dsimp only [Position.next]
  by_cases hlast : fb.parser.require = 1
  · rw [h.bodyTurn_last (by rw [hlast]; exact le_rfl), if_pos hlast, hlast]
    refine ⟨rfl, ⟨trivial, fun hstate => ?_⟩, rfl, hheld⟩
    cases hstate
  · have hlt : [c].length < fb.parser.require := by
      rw [List.length_singleton]
      omega
    rw [h.bodyTurn_partial hlt, if_neg hlast]
    refine ⟨rfl, ⟨(h.part hlt).ready, fun hstate => ?_⟩, rfl, hheld⟩
    cases hstate

theorem turn_reads {fb : FrameBuffer} (h : Between fb) (c : UInt8) :
    Reads alloc fb ((turn alloc fb c []).buffer, (turn alloc fb c []).exit)
      (fb.parser.position.next c) := by
  cases hstate : fb.parser.state with
  | start =>
    simp only [turn, Parser.position, hstate]
    exact ⟨rfl, ⟨trivial, fun _ => start_flags c⟩, rfl, rfl⟩
  | head =>
    simp only [turn, Parser.position, hstate]
    exact headTurn_reads (h.head hstate) c
  | length =>
    simp only [turn, Parser.position, hstate]
    exact lengthTurn_reads h.ready hstate c
  | mask =>
    simp only [turn, Parser.position, hstate]
    exact maskTurn_reads h.ready hstate c
  | body =>
    simp only [turn, Parser.position, hstate]
    exact bodyTurn_reads (h.ready.inBody hstate) c

theorem consume_one (fb : FrameBuffer) (c : UInt8) :
    (consume alloc fb [c]).buffer = (turn alloc fb c []).buffer ∧
      (consume alloc fb [c]).exit = (turn alloc fb c []).exit := by
  by_cases hexit : (turn alloc fb c []).exit = .done
  · have hturn : turn alloc fb c [] =
        ⟨(turn alloc fb c []).buffer, .done, (turn alloc fb c []).extra⟩ := by rw [← hexit]
    rw [consume_of_turn hturn, List.drop_nil, hexit]
    exact ⟨rfl, rfl⟩
  · rw [consume_of_turn_ne hexit]
    exact ⟨rfl, rfl⟩

theorem consume_after {fb : FrameBuffer} (h : Ready fb) {c : UInt8}
    (hdone : (consume alloc fb [c]).exit = .done) (bytes : List UInt8) :
    (consume alloc fb (c :: bytes)).buffer =
        (consume alloc (consume alloc fb [c]).buffer bytes).buffer ∧
      (consume alloc fb (c :: bytes)).exit =
        (consume alloc (consume alloc fb [c]).buffer bytes).exit := by
  rw [consume_cons h, Outcome.andThen, if_pos hdone]
  exact ⟨rfl, rfl⟩

/-- While `bytes` are parsed, nothing is thrown and the payload buffers stay within the limit. -/
def Small (alloc : ℕ → Bool) (maxRequestSize : ℕ) (fb : FrameBuffer) (bytes : List UInt8) : Prop :=
  ∀ l, l <+: bytes → (consume alloc fb l).exit ≠ .threw ∧
    (consume alloc fb l).buffer.context.held ≤ maxRequestSize

theorem small_nil {maxRequestSize : ℕ} {fb : FrameBuffer} :
    Small alloc maxRequestSize fb [] ↔ fb.context.held ≤ maxRequestSize := by
  constructor
  · intro h
    exact (h [] List.prefix_rfl).2
  · intro h l hl
    rw [List.prefix_nil.mp hl]
    refine ⟨fun hthrew => ?_, h⟩
    cases hthrew

theorem small_cons {maxRequestSize : ℕ} {fb : FrameBuffer} (h : Ready fb) {c : UInt8}
    (hdone : (consume alloc fb [c]).exit = .done) (bytes : List UInt8) :
    Small alloc maxRequestSize fb (c :: bytes) ↔ fb.context.held ≤ maxRequestSize ∧
      Small alloc maxRequestSize (consume alloc fb [c]).buffer bytes := by
  constructor
  · intro hsmall
    refine ⟨(hsmall [] List.nil_prefix).2, fun l hl => ?_⟩
    obtain ⟨hbuffer, hexit⟩ := consume_after h hdone l
    have hcons := hsmall (c :: l) (List.cons_prefix_cons.mpr ⟨rfl, hl⟩)
    rw [hbuffer, hexit] at hcons
    exact hcons
  · rintro ⟨hheld, hsmall⟩ l hl
    cases l with
    | nil =>
      refine ⟨fun hthrew => ?_, hheld⟩
      cases hthrew
    | cons d l =>
      obtain ⟨rfl, hrest⟩ := List.cons_prefix_cons.mp hl
      obtain ⟨hbuffer, hexit⟩ := consume_after h hdone l
      rw [hbuffer, hexit]
      exact hsmall l hrest

/-- The parser has read `bytes` and stands in the stream where they end. -/
structure ReadAll (alloc : ℕ → Bool) (maxRequestSize : ℕ) (fb : FrameBuffer) (bytes : List UInt8) :
    Prop where
  done : (consume alloc fb bytes).exit = .done
  between : Between (consume alloc fb bytes).buffer
  position : (consume alloc fb bytes).buffer.parser.position = fb.parser.position.run bytes
  held : (consume alloc fb bytes).buffer.context.held ≤ maxRequestSize

/-- The lengths that are declared in `bytes` decide, and where they are within the limit the parser
stands at the position of the stream afterwards. -/
theorem small_iff {maxRequestSize : ℕ} (halloc : ∀ n ≤ maxRequestSize, alloc n = true)
    {fb : FrameBuffer} (h : Between fb) (hheld : fb.context.held ≤ maxRequestSize)
    (bytes : List UInt8) :
    (Small alloc maxRequestSize fb bytes ↔
      ∀ n ∈ fb.parser.position.declared bytes, n ≤ maxRequestSize) ∧
    (Small alloc maxRequestSize fb bytes → ReadAll alloc maxRequestSize fb bytes) := by
  induction bytes generalizing fb with
  | nil =>
    refine ⟨?_, fun _ => ⟨rfl, h, rfl, hheld⟩⟩
    rw [small_nil]
    refine ⟨fun _ n hn => ?_, fun _ => hheld⟩
    cases hn
  | cons c bytes ih =>
    have hreads := @turn_reads alloc fb h c
    obtain ⟨hbuffer, hexit⟩ := @consume_one alloc fb c
    rw [← hbuffer, ← hexit] at hreads
    have hon : ∀ {p d}, fb.parser.position.next c = (p, d) → (consume alloc fb [c]).exit = .done →
        Between (consume alloc fb [c]).buffer → (consume alloc fb [c]).buffer.parser.position = p →
        (consume alloc fb [c]).buffer.context.held ≤ maxRequestSize →
        (∀ n ∈ d.toList, n ≤ maxRequestSize) →
        (Small alloc maxRequestSize fb (c :: bytes) ↔
          ∀ n ∈ fb.parser.position.declared (c :: bytes), n ≤ maxRequestSize) ∧
        (Small alloc maxRequestSize fb (c :: bytes) →
          ReadAll alloc maxRequestSize fb (c :: bytes)) := by
      intro p d hnext hdone hbetween hposition hheld' hd
      obtain ⟨hiff, hafter⟩ := ih hbetween hheld'
      obtain ⟨hbuffer', hexit'⟩ := consume_after h.ready hdone bytes
      have hrun : fb.parser.position.run (c :: bytes) = p.run bytes := by
        rw [Position.run, List.foldl_cons, hnext]
        rfl
      rw [small_cons h.ready hdone]
      refine ⟨?_, fun hsmall => ?_⟩
      · rw [Position.declared, hnext, hiff, hposition]
        simp only [List.mem_append]
        exact ⟨fun hall n hn => hn.elim (hd n) (hall.2 n),
          fun hall => ⟨hheld, fun n hn => hall n (.inr hn)⟩⟩
      · obtain ⟨hdone', hbetween', hposition', hlimit⟩ := hafter hsmall.2
        rw [← hbuffer'] at hbetween' hposition' hlimit
        rw [hposition] at hposition'
        exact ⟨hexit'.trans hdone', hbetween', hposition'.trans hrun.symm, hlimit⟩
    cases hnext : fb.parser.position.next c with
    | mk p d =>
      rw [hnext] at hreads
      cases d with
      | none =>
        obtain ⟨hdone, hbetween, hposition, hsame⟩ := hreads
        refine hon hnext hdone hbetween hposition (hsame.trans_le hheld) fun n hn => ?_
        cases hn
      | some n =>
        dsimp only [Reads] at hreads
        by_cases hle : n ≤ maxRequestSize
        · rw [if_pos (halloc n hle)] at hreads
          obtain ⟨hdone, hbetween, hposition, hnew⟩ := hreads
          refine hon hnext hdone hbetween hposition (hnew.trans_le hle) fun m hm => ?_
          rw [Option.toList_some, List.mem_singleton] at hm
          rw [hm]
          exact hle
        · -- the header declares too much: it is allocated, or the resize throws
          have hbad : ¬ Small alloc maxRequestSize fb (c :: bytes) := by
            intro hsmall
            obtain ⟨hthrew, hlimit⟩ := hsmall [c] (List.cons_prefix_cons.mpr ⟨rfl, List.nil_prefix⟩)
            split_ifs at hreads
            · rw [hreads.2.2.2] at hlimit
              exact hle hlimit
            · exact hthrew hreads
          refine ⟨⟨fun hsmall => absurd hsmall hbad, fun hall => ?_⟩, fun hsmall => absurd hsmall hbad⟩
          rw [Position.declared, hnext] at hall
          exact absurd (hall n (List.mem_append_left _ (List.mem_singleton_self n))) hle

theorem getFrame_keeps (fb : FrameBuffer) :
    (getFrame fb).2.parser = fb.parser ∧ (getFrame fb).2.context = fb.context := by
  unfold getFrame
  split <;> exact ⟨rfl, rfl⟩

theorem Between.congr {fb fb' : FrameBuffer} (h : Between fb) (hparser : fb'.parser = fb.parser)
    (hcontext : fb'.context = fb.context) : Between fb' := by
  refine ⟨?_, ?_⟩
  · rw [Ready, hparser, hcontext]
    exact h.ready
  · rw [hparser]
    exact h.head

/-! ### Calls of `co_recvFrame` -/

/-- At `overrun` a `recv` has written past the end of the session's array, at `aborted` the assertion
of `recvMessage` has failed. -/
inductive RecvPoint where
  | idle
  | receiving
  | returned (rt : ℤ)
  | threw
  | overrun
  | aborted
  deriving DecidableEq

/-- `fed` records the bytes given to the parser and `rounds` the rounds of the present call. -/
structure Receiver where
  buffer : Buffered UInt8
  frames : FrameBuffer
  state : HandleClient.State
  totalLength : ℕ
  point : RecvPoint
  fed : List UInt8
  rounds : ℕ

namespace Receiver

def start (session : Session) (memory : List UInt8) : Receiver :=
  ⟨.start session memory, .new, .opened, 0, .idle, [], 0⟩

/-- The beginning of `co_recvFrame`. -/
def enter (c : Receiver) : Receiver :=
  if c.state ≠ .opened then { c with point := .returned (-1) }
  else if 0 < c.frames.frames.length then { c with point := .returned 1 }
  else { c with totalLength := 0, point := .receiving, rounds := 0 }

/-- What a round does with the `rt` bytes that `recvMessage` has exposed at `pos`. -/
def parse (alloc : ℕ → Bool) (maxRequestSize : ℕ) (c : Receiver) (pos : ℕ) (rt : ℤ) : Receiver :=
  let c := { c with totalLength := add64 c.totalLength rt.toNat }
  if maxRequestSize < c.totalLength then { c with point := .returned (-1) }
  else
    let bytes := c.buffer.exposed pos rt
    let o := consume alloc c.frames bytes
    let c := { c with frames := o.buffer, fed := c.fed ++ bytes }
    if o.exit = .threw then { c with point := .threw }
    else if int32 o.nparsed < 0 then { c with point := .returned (-1) }
    else
      let c := { c with buffer := (c.buffer.consume (int32 o.nparsed).toNat).2 }
      if 0 < c.frames.frames.length then { c with point := .returned 1 } else c

/-- The rest of a round, after `recvMessage` has returned `rt`. -/
def received (alloc : ℕ → Bool) (maxRequestSize : ℕ) (c : Receiver) (pos : ℕ) (rt : ℤ) : Receiver :=
  if rt = 0 then { c with point := .returned 0 }
  else if rt < 0 then { c with point := .returned (-1) }
  else c.parse alloc maxRequestSize pos rt

/-- One round of the loop; `r` is what `recv` returns. -/
def recvFrame (alloc : ℕ → Bool) (maxRequestSize : ℕ) (c : Receiver) (r : Recv UInt8) : Receiver :=
  let c := { c with rounds := c.rounds + 1 }
  if c.buffer.Overruns r then { c with point := .overrun }
  else (c.buffer.recvMessage r uint64Max).elim { c with point := .aborted } fun res =>
    { c with buffer := res.2.2 }.received alloc maxRequestSize res.2.1 res.1

end Receiver

/-- `setState` is any other code that changes the state of the session. -/
inductive RecvAction where
  | call
  | recv (r : Recv UInt8)
  | getFrame
  | setState (state : HandleClient.State)

namespace Receiver

/-- `handleClient` calls `co_recvFrame` again after it has returned 1. -/
def step (alloc : ℕ → Bool) (maxRequestSize : ℕ) (c : Receiver) : RecvAction → Option Receiver
  | .call => if c.point = .idle ∨ c.point = .returned 1 then some c.enter else none
  | .recv r => if c.point = .receiving then some (c.recvFrame alloc maxRequestSize r) else none
  | .getFrame =>
    if c.point = .returned 1 then some { c with frames := (getFrame c.frames).2 } else none
  | .setState state => some { c with state := state }

/-- `recv` returns at most as many bytes as it was asked for. -/
def Legal (c : Receiver) : RecvAction → Prop
  | .recv r => c.buffer.Legal (.recvMessage r)
  | _ => True

/-- The bytes that a round gives to the parser. -/
def given (maxRequestSize : ℕ) (c : Receiver) (r : Recv UInt8) : List UInt8 :=
  (c.buffer.recvMessage r uint64Max).elim [] fun res =>
    if 0 < res.1 ∧ add64 c.totalLength res.1.toNat ≤ maxRequestSize then
      res.2.2.exposed res.2.1 res.1
    else []

/-- Nothing is thrown and nothing written outside the array, the call returns -1, 0 or 1 after a
bounded number of rounds, and the payload buffers are within the limit at every byte. -/
def Proper (alloc : ℕ → Bool) (maxRequestSize : ℕ) (c : Receiver) (a : RecvAction) : Prop :=
  ∀ c', c.step alloc maxRequestSize a = some c' →
    (c'.point ≠ .threw ∧ c'.point ≠ .overrun ∧ c'.point ≠ .aborted) ∧
    (∀ rt, c'.point = .returned rt → rt = -1 ∨ rt = 0 ∨ rt = 1) ∧
    c'.rounds ≤ maxRequestSize + 1 ∧ c'.frames.context.held ≤ maxRequestSize ∧
    ∀ r, a = .recv r → Small alloc maxRequestSize c.frames (c.given maxRequestSize r)

/-- What has just been received, without a chunk that exceeds `max_request_size`. -/
def offered (maxRequestSize : ℕ) (c : Receiver) (r : Recv UInt8) : List UInt8 :=
  if add64 c.totalLength (c.buffer.got r).length ≤ maxRequestSize then c.buffer.got r else []

/-- What `recv` writes lies in the session's array, and every header that is complete in the bytes
received declares a length within the limit. -/
def Harmless (maxRequestSize : ℕ) (c : Receiver) : RecvAction → Prop
  | .recv r => c.point = .receiving → ¬ c.buffer.Overruns r ∧
      ∀ n ∈ Position.first.declared (c.fed ++ c.offered maxRequestSize r), n ≤ maxRequestSize
  | _ => True

instance (c : Receiver) : ∀ a, Decidable (c.Legal a)
  | .recv r => inferInstanceAs (Decidable (∀ region ∈ c.buffer.session.recvRegion,
      r.bytes.length ≤ region.2))
  | .call => isTrue trivial
  | .getFrame => isTrue trivial
  | .setState _ => isTrue trivial

instance (maxRequestSize : ℕ) (c : Receiver) : ∀ a, Decidable (c.Harmless maxRequestSize a)
  | .recv r => inferInstanceAs (Decidable (c.point = .receiving → ¬ c.buffer.Overruns r ∧
      ∀ n ∈ Position.first.declared (c.fed ++ c.offered maxRequestSize r), n ≤ maxRequestSize))
  | .call => isTrue trivial
  | .getFrame => isTrue trivial
  | .setState _ => isTrue trivial

structure Inv (maxRequestSize : ℕ) (c : Receiver) : Prop where
  between : Between c.frames
  held : c.frames.context.held ≤ maxRequestSize
  position : c.frames.parser.position = Position.first.run c.fed
  declared : ∀ n ∈ Position.first.declared c.fed, n ≤ maxRequestSize
  cleared : c.point = .idle ∨ c.point = .receiving ∨ c.point = .returned 1 → c.buffer.Cleared
  total : c.point = .receiving → c.rounds ≤ c.totalLength ∧ c.totalLength ≤ maxRequestSize
  rounds : c.rounds ≤ maxRequestSize + 1
  goes : c.point ≠ .threw ∧ c.point ≠ .overrun ∧ c.point ≠ .aborted
  returned : ∀ rt, c.point = .returned rt → rt = -1 ∨ rt = 0 ∨ rt = 1

/-- A call that ends without giving anything to the parser. -/
theorem Inv.ends {maxRequestSize : ℕ} {c c' : Receiver} (h : c.Inv maxRequestSize)
    (hframes : c'.frames = c.frames) (hfed : c'.fed = c.fed)
    (hrounds : c'.rounds ≤ maxRequestSize + 1) {rt : ℤ} (hpoint : c'.point = .returned rt)
    (hrt : rt = -1 ∨ rt = 0) : c'.Inv maxRequestSize := by
  refine ⟨hframes ▸ h.between, hframes ▸ h.held, ?_, hfed ▸ h.declared, fun hp => ?_, fun hp => ?_,
    hrounds, ?_, fun rt' hp => ?_⟩
  · rw [hframes, hfed]
    exact h.position
  · rw [hpoint] at hp
    rcases hp with hp | hp | hp
    · cases hp
    · cases hp
    · rw [RecvPoint.returned.injEq] at hp
      omega
  · rw [hpoint] at hp
    cases hp
  · rw [hpoint]
    exact ⟨RecvPoint.noConfusion, RecvPoint.noConfusion, RecvPoint.noConfusion⟩
  · rw [hpoint, RecvPoint.returned.injEq] at hp
    omega

theorem Inv.small_iff {maxRequestSize : ℕ} (halloc : ∀ n ≤ maxRequestSize, alloc n = true)
    {c : Receiver} (h : c.Inv maxRequestSize) (bytes : List UInt8) :
    Small alloc maxRequestSize c.frames bytes ↔
      ∀ n ∈ Position.first.declared (c.fed ++ bytes), n ≤ maxRequestSize := by
  rw [(WebSocket.small_iff halloc h.between h.held bytes).1, Position.declared_append, h.position]
  simp only [List.mem_append]
  exact ⟨fun hall n hn => hn.elim (h.declared n) (hall n), fun hall n hn => hall n (.inr hn)⟩

/-- How a round starts while a call receives: `recv` stays in the array and everything that was
received earlier has been parsed. -/
theorem Inv.recvMessage {maxRequestSize : ℕ} {c : Receiver} (h : c.Inv maxRequestSize)
    (hpoint : c.point = .receiving) {r : Recv UInt8} (hlegal : c.Legal (.recv r))
    (hfits : ¬ c.buffer.Overruns r) :
    ∃ rt pos b, c.recvFrame alloc maxRequestSize r =
        received alloc maxRequestSize { c with rounds := c.rounds + 1, buffer := b } pos rt ∧
      c.given maxRequestSize r = c.offered maxRequestSize r ∧
      (rt ≤ 0 ∨ 0 < (c.buffer.got r).length ∧ rt = (c.buffer.got r).length ∧
        b.exposed pos rt = c.buffer.got r ∧ (c.buffer.got r).length < 2^31 ∧
        (b.consume (c.buffer.got r).length).2.Cleared) := by
  have hcleared := h.cleared (.inr (.inl hpoint))
  have hsmall := hcleared.allocated
  obtain ⟨rt, pos, b, hrecv, hcase⟩ := hcleared.recvMessage hlegal hfits
  refine ⟨rt, pos, b, ?_, ?_, ?_⟩
  · unfold Receiver.recvFrame
    dsimp only
    rw [if_neg hfits, hrecv, Option.elim_some]
  · rw [given, offered, hrecv, Option.elim_some]
    dsimp only
    rcases hcase with ⟨hneg, hnone⟩ | ⟨hpos, hrt, hexposed, -, -⟩
    · rw [if_neg fun hand => absurd hand.1 (not_lt.mpr hneg), hnone]
      exact (ite_self _).symm
    · rw [hexposed, hrt, Int.toNat_natCast]
      exact if_congr (and_iff_right (hrt ▸ hpos)) rfl rfl
  · rcases hcase with ⟨hneg, -⟩ | ⟨hpos, hrt, hexposed, hfit, hclear⟩
    · exact .inl hneg
    · exact .inr ⟨by omega, hrt, hexposed, by omega, hclear⟩

theorem Inv.parse {maxRequestSize : ℕ} (hmax : maxRequestSize < 2^32)
    (halloc : ∀ n ≤ maxRequestSize, alloc n = true) {c : Receiver} (h : c.Inv maxRequestSize)
    (hpoint : c.point = .receiving) {b : Buffered UInt8} {pos : ℕ} {bytes : List UInt8}
    (hpos : 0 < bytes.length) (hint : bytes.length < 2^31)
    (hexposed : b.exposed pos bytes.length = bytes)
    (hcleared : (b.consume bytes.length).2.Cleared)
    (hlimit : add64 c.totalLength bytes.length ≤ maxRequestSize)
    (hsmall : Small alloc maxRequestSize c.frames bytes) :
    Inv maxRequestSize (Receiver.parse alloc maxRequestSize
      { c with rounds := c.rounds + 1, buffer := b } pos bytes.length) := by
  obtain ⟨hdone, hbetween, hposition, hheld⟩ :=
    (WebSocket.small_iff halloc h.between h.held bytes).2 hsmall
  have hdeclared := (h.small_iff halloc bytes).mp hsmall
  have hparsed : (consume alloc c.frames bytes).nparsed = bytes.length :=
    (consume_settled h.between.ready bytes).2 hdone
  obtain ⟨hrounds, htotal⟩ := h.total hpoint
  have hadd : add64 c.totalLength bytes.length = c.totalLength + bytes.length :=
    add64_of_lt (by omega)
  have hconsumed : int32 (consume alloc c.frames bytes).nparsed = bytes.length := by
    rw [hparsed]
    exact int32_of_lt hint
  have hrun : (consume alloc c.frames bytes).buffer.parser.position =
      Position.first.run (c.fed ++ bytes) := by
    rw [hposition, h.position, Position.run_append]
  rw [hadd] at hlimit
  unfold Receiver.parse
  dsimp only
  rw [Int.toNat_natCast, hexposed, hadd, if_neg (by omega),
    if_neg (by rw [hdone]; exact fun hthrew => by cases hthrew), hconsumed, if_neg (by omega),
    Int.toNat_natCast]
  split_ifs
  · refine ⟨hbetween, hheld, hrun, hdeclared, fun _ => hcleared, fun hp => ?_, ?_, ?_,
      fun rt hp => ?_⟩
    · cases hp
    · dsimp only
      omega
    · exact ⟨RecvPoint.noConfusion, RecvPoint.noConfusion, RecvPoint.noConfusion⟩
    · cases hp
      exact .inr (.inr rfl)
  · refine ⟨hbetween, hheld, hrun, hdeclared, fun _ => hcleared, fun _ => ?_, ?_, ?_, ?_⟩
    · dsimp only
      omega
    · dsimp only
      omega
    · exact h.goes
    · exact h.returned

theorem Inv.recvFrame {maxRequestSize : ℕ} (hmax : maxRequestSize < 2^32)
    (halloc : ∀ n ≤ maxRequestSize, alloc n = true) {c : Receiver} (h : c.Inv maxRequestSize)
    (hpoint : c.point = .receiving) {r : Recv UInt8} (hlegal : c.Legal (.recv r))
    (hfits : ¬ c.buffer.Overruns r)
    (hsmall : Small alloc maxRequestSize c.frames (c.given maxRequestSize r)) :
    Inv maxRequestSize (c.recvFrame alloc maxRequestSize r) := by
  obtain ⟨hrounds, htotal⟩ := h.total hpoint
  have hnext : c.rounds + 1 ≤ maxRequestSize + 1 := by omega
  obtain ⟨rt, pos, b, hround, hgiven, hcase⟩ := @Inv.recvMessage alloc _ _ h hpoint _ hlegal hfits
  rw [hround, received]
  rw [hgiven, offered] at hsmall
  by_cases hzero : rt = 0
  · rw [if_pos hzero]
    exact h.ends rfl rfl hnext rfl (.inr rfl)
  by_cases hneg : rt < 0
  · rw [if_neg hzero, if_pos hneg]
    exact h.ends rfl rfl hnext rfl (.inl rfl)
  rw [if_neg hzero, if_neg hneg]
  obtain ⟨hpos, rfl, hexposed, hint, hcleared⟩ := hcase.resolve_left (by omega)
  by_cases hlimit : add64 c.totalLength (c.buffer.got r).length ≤ maxRequestSize
  · rw [if_pos hlimit] at hsmall
    exact h.parse hmax halloc hpoint hpos hint hexposed hcleared hlimit hsmall
  · have hlong : Receiver.parse alloc maxRequestSize
        { c with rounds := c.rounds + 1, buffer := b } pos (c.buffer.got r).length =
        { c with
          rounds := c.rounds + 1
          buffer := b
          totalLength := add64 c.totalLength (c.buffer.got r).length
          point := .returned (-1) } := by
      unfold Receiver.parse
      exact if_pos (not_le.mp hlimit)
    rw [hlong]
    exact h.ends rfl rfl hnext rfl (.inl rfl)

theorem Inv.enter {maxRequestSize : ℕ} {c : Receiver} (h : c.Inv maxRequestSize)
    (hpoint : c.point = .idle ∨ c.point = .returned 1) : c.enter.Inv maxRequestSize := by
  have hcleared := h.cleared (hpoint.imp_right .inr)
  unfold Receiver.enter
  split_ifs
  · exact h.ends rfl rfl h.rounds rfl (.inl rfl)
  · refine ⟨h.between, h.held, h.position, h.declared, fun _ => hcleared, fun hp => ?_, h.rounds,
      ?_, fun rt hp => ?_⟩
    · cases hp
    · exact ⟨RecvPoint.noConfusion, RecvPoint.noConfusion, RecvPoint.noConfusion⟩
    · cases hp
      exact .inr (.inr rfl)
  · refine ⟨h.between, h.held, h.position, h.declared, fun _ => hcleared,
      fun _ => ⟨le_rfl, Nat.zero_le _⟩, Nat.zero_le _, ?_, fun rt hp => ?_⟩
    · exact ⟨RecvPoint.noConfusion, RecvPoint.noConfusion, RecvPoint.noConfusion⟩
    · cases hp

theorem Inv.step {maxRequestSize : ℕ} (hmax : maxRequestSize < 2^32)
    (halloc : ∀ n ≤ maxRequestSize, alloc n = true) {c c' : Receiver} (h : c.Inv maxRequestSize)
    {a : RecvAction} (hlegal : c.Legal a)
    (hsafe : ∀ r, a = .recv r → ¬ c.buffer.Overruns r ∧
      Small alloc maxRequestSize c.frames (c.given maxRequestSize r))
    (hstep : c.step alloc maxRequestSize a = some c') : c'.Inv maxRequestSize := by
  cases a with
  | call =>
    simp only [Receiver.step, Option.ite_none_right_eq_some, Option.some.injEq] at hstep
    obtain ⟨hpoint, rfl⟩ := hstep
    exact h.enter hpoint
  | recv r =>
    simp only [Receiver.step, Option.ite_none_right_eq_some, Option.some.injEq] at hstep
    obtain ⟨hpoint, rfl⟩ := hstep
    obtain ⟨hfits, hsmall⟩ := hsafe r rfl
    exact h.recvFrame hmax halloc hpoint hlegal hfits hsmall
  | getFrame =>
    simp only [Receiver.step, Option.ite_none_right_eq_some, Option.some.injEq] at hstep
    obtain ⟨_, rfl⟩ := hstep
    obtain ⟨hparser, hcontext⟩ := getFrame_keeps c.frames
    refine ⟨h.between.congr hparser hcontext, ?_, ?_, h.declared, h.cleared, h.total, h.rounds, h.goes,
      h.returned⟩
    · rw [hcontext]
      exact h.held
    · rw [hparser]
      exact h.position
  | setState state =>
    cases hstep
    exact ⟨h.between, h.held, h.position, h.declared, h.cleared, h.total, h.rounds, h.goes, h.returned⟩

/-- A step that is proper has neither written past the array nor been given a large header. -/
theorem Proper.safe {maxRequestSize : ℕ} {c c' : Receiver} {a : RecvAction}
    (h : c.Proper alloc maxRequestSize a) (hstep : c.step alloc maxRequestSize a = some c') :
    ∀ r, a = .recv r → ¬ c.buffer.Overruns r ∧
      Small alloc maxRequestSize c.frames (c.given maxRequestSize r) := by
  rintro r rfl
  obtain ⟨⟨-, hover, -⟩, -, -, -, hsmall⟩ := h c' hstep
  refine ⟨fun hoverruns => hover ?_, hsmall r rfl⟩
  simp only [Receiver.step, Option.ite_none_right_eq_some, Option.some.injEq] at hstep
  rw [← hstep.2, Receiver.recvFrame]
  dsimp only
  rw [if_pos hoverruns]

theorem Inv.proper_iff {maxRequestSize : ℕ} (hmax : maxRequestSize < 2^32)
    (halloc : ∀ n ≤ maxRequestSize, alloc n = true) {c : Receiver} (h : c.Inv maxRequestSize)
    {a : RecvAction} (hlegal : c.Legal a) :
    c.Proper alloc maxRequestSize a ↔ c.Harmless maxRequestSize a := by
  have hproper : (∀ r, a = .recv r → c.point = .receiving → ¬ c.buffer.Overruns r ∧
      Small alloc maxRequestSize c.frames (c.given maxRequestSize r)) →
      c.Proper alloc maxRequestSize a := by
    intro hsafe c' hstep
    have hsafe' : ∀ r, a = .recv r → ¬ c.buffer.Overruns r ∧
        Small alloc maxRequestSize c.frames (c.given maxRequestSize r) := by
      intro r hr
      refine hsafe r hr ?_
      rw [hr] at hstep
      simp only [Receiver.step, Option.ite_none_right_eq_some] at hstep
      exact hstep.1
    have hinv := h.step hmax halloc hlegal hsafe' hstep
    exact ⟨hinv.goes, hinv.returned, hinv.rounds, hinv.held, fun r hr => (hsafe' r hr).2⟩
  cases a with
  | recv r =>
    constructor
    · intro hp hpoint
      have hstep : c.step alloc maxRequestSize (.recv r) = some (c.recvFrame alloc maxRequestSize r) :=
        if_pos hpoint
      obtain ⟨hfits, hsmall⟩ := hp.safe hstep r rfl
      obtain ⟨rt, pos, b, -, hgiven, -⟩ := @Inv.recvMessage alloc _ _ h hpoint r hlegal hfits
      rw [hgiven] at hsmall
      exact ⟨hfits, (h.small_iff halloc _).mp hsmall⟩
    · intro hharmless
      refine hproper fun r' hr hpoint => ?_
      cases hr
      obtain ⟨hfits, hdeclared⟩ := hharmless hpoint
      obtain ⟨rt, pos, b, -, hgiven, -⟩ := @Inv.recvMessage alloc _ _ h hpoint r hlegal hfits
      rw [hgiven]
      exact ⟨hfits, (h.small_iff halloc _).mpr hdeclared⟩
  | call => exact iff_of_true (hproper fun r hr => by cases hr) trivial
  | getFrame => exact iff_of_true (hproper fun r hr => by cases hr) trivial
  | setState state => exact iff_of_true (hproper fun r hr => by cases hr) trivial

theorem start_receiver_inv {config : Config} {session : Session}
    (hnew : Session.new config .websocket = some session) {memory : List UInt8}
    (hmemory : memory.length = session.allocated) (maxRequestSize : ℕ) :
    (start session memory).Inv maxRequestSize := by
  refine ⟨⟨trivial, fun hstate => ?_⟩, Nat.zero_le _, rfl, fun n hn => ?_,
    fun _ => Buffered.start_cleared hnew hmemory, fun hp => ?_, Nat.zero_le _, ?_, fun rt hp => ?_⟩
  · cases hstate
  · cases hn
  · cases hp
  · exact ⟨RecvPoint.noConfusion, RecvPoint.noConfusion, RecvPoint.noConfusion⟩
  · cases hp

end Receiver

/-- Over every run of calls, nothing is thrown or written outside the session's array, every call
returns -1, 0 or 1 and the payload buffers stay within `max_request_size`, exactly if every chunk that
`recv` writes fits in the array and every header that is complete in the bytes given to the parser
declares a payload within `max_request_size`. -/
theorem recvFrame_safe_iff {config : Config} {session : Session}
    (hnew : Session.new config .websocket = some session) {memory : List UInt8}
    (hmemory : memory.length = session.allocated) {maxRequestSize : UInt32}
    (halloc : ∀ n ≤ maxRequestSize.toNat, alloc n = true) {actions : List RecvAction}
    (hlegal : Guarded (Receiver.step alloc maxRequestSize.toNat) Receiver.Legal
      (.start session memory) actions) :
    Guarded (Receiver.step alloc maxRequestSize.toNat) (Receiver.Proper alloc maxRequestSize.toNat)
        (.start session memory) actions ↔
      Guarded (Receiver.step alloc maxRequestSize.toNat)
        (Receiver.Harmless maxRequestSize.toNat) (.start session memory) actions := by
  have hmax := maxRequestSize.toNat_lt
  refine guarded_iff (fun c a hc hl => hc.proper_iff hmax halloc hl) ?_
    (Receiver.start_receiver_inv hnew hmemory _) hlegal
  intro c a c' hc hl hproper hstep
  exact hc.step hmax halloc hl (hproper.safe hstep) hstep

/-- The `max_size` of a string or a vector of bytes. -/
def belowMaxSize (n : ℕ) : Bool := n < 2^63

/-- A text frame in two chunks, taken out, and the end of the stream. -/
def textInTwoChunks : List RecvAction :=
  [.call, .recv (.data [0x81]), .recv (.data [0x02, 0x68, 0x69]), .getFrame, .call, .recv .closed]

theorem text_frame_received_safely :
    ∃ session, Session.new ⟨16, 16, 16⟩ .websocket = some session ∧
      Guarded (Receiver.step belowMaxSize (10485760 : UInt32).toNat) Receiver.Legal
        (.start session (List.replicate 16 0)) textInTwoChunks ∧
      Guarded (Receiver.step belowMaxSize (10485760 : UInt32).toNat)
        (Receiver.Proper belowMaxSize (10485760 : UInt32).toNat)
        (.start session (List.replicate 16 0)) textInTwoChunks := by
  have halloc : ∀ n ≤ (10485760 : UInt32).toNat, belowMaxSize n = true := by
    intro n hn
    have hmax : (10485760 : UInt32).toNat = 10485760 := rfl
    rw [hmax] at hn
    exact decide_eq_true (by omega)
  have hnew : Session.new ⟨16, 16, 16⟩ .websocket = some ⟨16, 16, 0, 0, 0⟩ :=
    Session.new_of_lt .websocket (by decide)
  have hlegal : Guarded (Receiver.step belowMaxSize (10485760 : UInt32).toNat) Receiver.Legal
      (.start ⟨16, 16, 0, 0, 0⟩ (List.replicate 16 0)) textInTwoChunks := by decide
  exact ⟨_, hnew, hlegal, (recvFrame_safe_iff hnew rfl halloc hlegal).mpr (by decide)⟩

/-- A binary frame whose header declares 2^64 - 1 bytes. -/
def hugeHeader : List RecvAction := [.call, .recv (.data (0x82 :: 0x7F :: List.replicate 8 0xFF))]

theorem ten_bytes_throw :
    ¬ ∀ actions,
      Guarded (Receiver.step belowMaxSize (10485760 : UInt32).toNat) Receiver.Legal
        (.start ⟨1024, 4096, 0, 0, 0⟩ (List.replicate 1024 0)) actions →
      Guarded (Receiver.step belowMaxSize (10485760 : UInt32).toNat)
        (Receiver.Proper belowMaxSize (10485760 : UInt32).toNat)
        (.start ⟨1024, 4096, 0, 0, 0⟩ (List.replicate 1024 0)) actions := by
  intro hall
  obtain ⟨_, hreceive⟩ := hall hugeHeader (by decide)
  obtain ⟨hproper, _⟩ := hreceive _ rfl
  exact (hproper _ rfl).1.1 rfl

/-- With the default sizes a chunk that is longer than the array is written past its end. -/
theorem default_overrun {memory : List UInt8} {chunk : List UInt8} (h : 1024 < chunk.length)
    (alloc : ℕ → Bool) (maxRequestSize : ℕ) :
    ∃ session, Session.new .default .websocket = some session ∧
      ((Receiver.start session memory).enter.recvFrame alloc maxRequestSize (.data chunk)).point =
        .overrun := by
  have hover : (Receiver.start ⟨1024, 4096, 0, 0, 0⟩ memory).enter.buffer.Overruns (.data chunk) :=
    ⟨(0, 4096), rfl, (Nat.zero_add chunk.length).symm ▸ h⟩
  refine ⟨_, Session.new_of_lt .websocket (by decide), ?_⟩
  rw [Receiver.recvFrame]
  exact congrArg Receiver.point (if_pos hover)

end MSylar.WebSocket
