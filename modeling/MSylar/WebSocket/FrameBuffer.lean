import Mathlib.Data.List.Basic
import Mathlib.Tactic.NormNum

/-!
# WebSocket frame parser (websocket_parser.cc:53-180, parser.cc:12-111)

`FrameBuffer::consume` hands the received bytes to `websocket_parser_execute`, which
calls back at the end of a frame header, for each piece of a frame body and at the
end of a frame. A position `p` in the data is the list of bytes from `p` on. The
field `offset`, which nothing reads, is left out, and so is `frame_offset`, from
which it is computed.
-/

namespace MSylar.WebSocket

inductive ParserState where
  | start
  | head
  | length
  | mask
  | body
  deriving DecidableEq

instance maskSize : NeZero 4 := ⟨by decide⟩

structure Parser where
  state : ParserState
  flags : UInt8
  mask : Fin 4 → UInt8
  maskOffset : ℕ
  length : ℕ
  require : ℕ

def Parser.init : Parser := ⟨.start, 0, fun _ => 0, 0, 0, 0⟩

def opBinary : UInt8 := 0x2
def opClose : UInt8 := 0x8
def finalFrame : UInt8 := 0x10
def hasMaskFlag : UInt8 := 0x20

def Parser.getOpcode (p : Parser) : UInt8 := p.flags &&& 0xF

def Parser.hasMask (p : Parser) : Bool := p.flags &&& hasMaskFlag != 0

structure Frame where
  opcode : UInt8
  payloadLength : ℕ
  payloadText : List UInt8
  payloadBinary : List UInt8
  closeCode : ℕ := 1000
  closeReason : List UInt8 := []
  deriving DecidableEq

structure Context where
  opcode : UInt8
  payloadLength : ℕ
  payloadText : List UInt8
  payloadBinary : List UInt8
  payloadReceived : ℕ

/-- `Frame::Frame(Context*)`: a close frame also gets its code, which is in network byte
order, and its reason. -/
def Frame.ofContext (c : Context) : Frame :=
  if c.opcode = opClose ∧ 2 ≤ c.payloadLength then
    { opcode := c.opcode
      payloadLength := c.payloadLength
      payloadText := c.payloadText
      payloadBinary := c.payloadBinary
      closeCode := (c.payloadText.getD 0 0).toNat * 256 + (c.payloadText.getD 1 0).toNat
      closeReason := c.payloadText.drop 2 }
  else
    { opcode := c.opcode
      payloadLength := c.payloadLength
      payloadText := c.payloadText
      payloadBinary := c.payloadBinary }

structure FrameBuffer where
  parser : Parser
  context : Context
  frames : List Frame

def FrameBuffer.goto (fb : FrameBuffer) (state : ParserState) (require : ℕ) : FrameBuffer :=
  { fb with parser := { fb.parser with state := state, require := require } }

def FrameBuffer.new : FrameBuffer := ⟨.init, ⟨0, 0, [], [], 0⟩, []⟩

/-- How a call of `consume` ends: it returns with all data read, a callback returns -1, or
the resize in `on_frame_header` throws. -/
inductive Exit where
  | done
  | bodyTooLong
  | endMismatch
  | threw
  deriving DecidableEq

/-! ### Callbacks -/

def Context.opened (opcode : UInt8) (n : ℕ) : Context :=
  if opcode = opBinary then ⟨opcode, n, [], List.replicate n 0, 0⟩
  else ⟨opcode, n, List.replicate n 0, [], 0⟩

def FrameBuffer.openFrame (fb : FrameBuffer) : FrameBuffer :=
  { fb with context := .opened fb.parser.getOpcode fb.parser.length }

/-- `alloc n` tells whether a payload buffer can be resized to `n` bytes. -/
def onFrameHeader (alloc : ℕ → Bool) (fb : FrameBuffer) : FrameBuffer × Exit :=
  if alloc fb.parser.length then (fb.openFrame, .done)
  else ({ fb with context := ⟨fb.parser.getOpcode, fb.parser.length, [], [], 0⟩ }, .threw)

/-- `websocket_parser_decode`: the bytes that go to the destination. -/
def Parser.decode (p : Parser) (src : List UInt8) : List UInt8 :=
  src.mapIdx fun i b => b ^^^ p.mask (Fin.ofNat 4 (i + p.maskOffset))

def writeAt (buffer : List UInt8) (pos : ℕ) (bytes : List UInt8) : List UInt8 :=
  buffer.take pos ++ bytes ++ buffer.drop (pos + bytes.length)

/-- The decoded bytes go to the buffer that the opcode selects. -/
def Context.receive (c : Context) (bytes : List UInt8) : Context :=
  if c.opcode = opBinary then
    { c with payloadBinary := writeAt c.payloadBinary c.payloadReceived bytes
             payloadReceived := c.payloadReceived + bytes.length }
  else
    { c with payloadText := writeAt c.payloadText c.payloadReceived bytes
             payloadReceived := c.payloadReceived + bytes.length }

def FrameBuffer.receive (fb : FrameBuffer) (src : List UInt8) : FrameBuffer :=
  { fb with parser := { fb.parser with maskOffset := (src.length + fb.parser.maskOffset) % 4 }
            context := fb.context.receive (fb.parser.decode src) }

def onFrameBody (fb : FrameBuffer) (src : List UInt8) : FrameBuffer × Exit :=
  if fb.context.payloadLength < fb.context.payloadReceived + src.length then (fb, .bodyTooLong)
  else (fb.receive src, .done)

def FrameBuffer.deliver (fb : FrameBuffer) : FrameBuffer :=
  { fb with frames := fb.frames ++ [.ofContext fb.context] }

def onFrameEnd (fb : FrameBuffer) : FrameBuffer × Exit :=
  if fb.context.payloadReceived ≠ fb.context.payloadLength then (fb, .endMismatch)
  else (fb.deliver, .done)

/-! ### The parser loop -/

def emptyFrame (alloc : ℕ → Bool) (fb : FrameBuffer) : FrameBuffer × Exit :=
  let r := onFrameHeader alloc fb
  if r.2 = .done then onFrameEnd r.1 else r

/-- The header is complete (websocket_parser.cc:90-98, 113-121, 131-139). -/
def beginBody (alloc : ℕ → Bool) (fb : FrameBuffer) : FrameBuffer × Exit :=
  if fb.parser.length ≠ 0 then
    onFrameHeader alloc (fb.goto .body fb.parser.length)
  else emptyFrame alloc (fb.goto .start fb.parser.require)

def afterLength (alloc : ℕ → Bool) (fb : FrameBuffer) : FrameBuffer × Exit :=
  if fb.parser.hasMask then (fb.goto .mask 4, .done) else beginBody alloc fb

/-- `parser->length <<= 8; parser->length |= c`. -/
def shiftIn (length : ℕ) (c : UInt8) : ℕ := length * 256 % 2^64 + c.toNat

/-- The inner loop of `s_length` and `s_mask`: reads while there is data and `require` is
positive. Gives the parser after it and how far it moved `p`. -/
def takeBytes (read : Parser → UInt8 → Parser) : Parser → List UInt8 → Parser × ℕ
  | p, [] => (p, 0)
  | p, c :: cs =>
    if p.require = 0 then (p, 0)
    else
      let r := takeBytes read (read p c) cs
      (r.1, r.2 + 1)

def readLength (p : Parser) (c : UInt8) : Parser :=
  { p with length := shiftIn p.length c, require := p.require - 1 }

def readMask (p : Parser) (c : UInt8) : Parser :=
  { p with mask := fun j => if j.val = 4 - p.require then c else p.mask j
           require := p.require - 1 }

/-- What one turn of the outer loop does: `extra` is how far it moved `p` itself. -/
structure Turn where
  buffer : FrameBuffer
  exit : Exit
  extra : ℕ

def startTurn (fb : FrameBuffer) (c : UInt8) : Turn :=
  let flags := c &&& 0xF
  ⟨{ fb with parser := { fb.parser with
      length := 0
      maskOffset := 0
      flags := if c &&& 0x80 ≠ 0 then flags ||| finalFrame else flags
      state := .head } }, .done, 0⟩

def headTurn (alloc : ℕ → Bool) (fb : FrameBuffer) (c : UInt8) : Turn :=
  let length := (c &&& 0x7F).toNat
  let flags := if c &&& 0x80 ≠ 0 then fb.parser.flags ||| hasMaskFlag else fb.parser.flags
  if 126 ≤ length then
    ⟨{ fb with parser := { fb.parser with length := 0, flags := flags } }.goto .length
      (if length = 127 then 8 else 2), .done, 0⟩
  else
    let r := afterLength alloc { fb with parser := { fb.parser with length := length, flags := flags } }
    ⟨r.1, r.2, 0⟩

/-- A turn in `s_length` or `s_mask`. The parser is in these states only with a positive
`require`, so that the `p--` takes back one of the moves of the inner loop. -/
def readTurn (read : Parser → UInt8 → Parser) (next : FrameBuffer → FrameBuffer × Exit)
    (fb : FrameBuffer) (data : List UInt8) : Turn :=
  let r := takeBytes read fb.parser data
  let after := { fb with parser := r.1 }
  if r.1.require = 0 then ⟨(next after).1, (next after).2, r.2 - 1⟩ else ⟨after, .done, r.2 - 1⟩

def endTurn (fb : FrameBuffer) (extra : ℕ) : Turn :=
  let r := onFrameEnd fb
  if r.2 = .done then ⟨r.1.goto .start 0, .done, extra⟩ else ⟨r.1, r.2, extra⟩

def bodyTurn (fb : FrameBuffer) (data : List UInt8) : Turn :=
  let require := fb.parser.require
  if require = 0 then endTurn fb 0
  else if require ≤ data.length then
    let r := onFrameBody fb (data.take require)
    if r.2 = .done then endTurn (r.1.goto .body 0) (require - 1) else ⟨r.1, r.2, 0⟩
  else
    let r := onFrameBody fb data
    if r.2 = .done then ⟨r.1.goto .body (require - data.length), .done, data.length - 1⟩
    else ⟨r.1, r.2, 0⟩

def turn (alloc : ℕ → Bool) (fb : FrameBuffer) (c : UInt8) (rest : List UInt8) : Turn :=
  match fb.parser.state with
  | .start => startTurn fb c
  | .head => headTurn alloc fb c
  | .length => readTurn readLength (afterLength alloc) fb (c :: rest)
  | .mask => readTurn readMask (beginBody alloc) fb (c :: rest)
  | .body => bodyTurn fb (c :: rest)

structure Outcome where
  buffer : FrameBuffer
  exit : Exit
  nparsed : ℕ

/-- An outcome counted from `n` bytes earlier. -/
def Outcome.after (o : Outcome) (n : ℕ) : Outcome := { o with nparsed := n + o.nparsed }

/-- The outer loop of `websocket_parser_execute`; `p` is `skip` bytes further on. -/
def execute (alloc : ℕ → Bool) : FrameBuffer → ℕ → List UInt8 → Outcome
  | fb, _, [] => ⟨fb, .done, 0⟩
  | fb, skip + 1, _ :: rest => (execute alloc fb skip rest).after 1
  | fb, 0, c :: rest =>
    let t := turn alloc fb c rest
    if t.exit = .done then (execute alloc t.buffer t.extra rest).after 1
    else ⟨t.buffer, t.exit, t.extra⟩

def consume (alloc : ℕ → Bool) (fb : FrameBuffer) (data : List UInt8) : Outcome :=
  execute alloc fb 0 data

/-- `getFrame`, `none` standing for a null pointer. -/
def getFrame (fb : FrameBuffer) : Option Frame × FrameBuffer :=
  match fb.frames with
  | [] => (none, fb)
  | f :: fs => (some f, { fb with frames := fs })

end MSylar.WebSocket
