import MSylar.Http.Parser

/-!
# Requests (protocol/http/request.hpp, impl/request.hpp)

`consume` is called with one piece of the stream after another. It keeps the bytes of a line that
is not complete in `m_buf`, and gives the buffer up at the blank line that ends the head. A call that
throws leaves the lines it has read in the buffer.
-/

namespace MSylar.Http
open MSylar.Lines MSylar.Text MSylar.Word

/-- `buf` is what `m_buf` points to, `none` after `m_buf.reset()`. -/
structure Request extends Parser where
  buf : Option (List Char)
  method : List Char
  uri : List Char
  ready : Bool
  deriving DecidableEq

namespace Request

def init : Request := ⟨.init, some [], [], [], false⟩

def reset (r : Request) : Request := ⟨r.toParser.reset, some [], [], [], false⟩

def setMethod (r : Request) (method : List Char) : Option Fault × Request :=
  if method.all isTokenChar then (none, { r with method := method })
  else (some (.exception "Invalid method token." .badRequest), r)

/-- The request line. -/
def process (r : Request) (line : List Char) : Option Fault × Request :=
  if ' ' ∈ line then
    match r.setMethod (before ' ' line) with
    | (some e, r) => (some e, r)
    | (none, r) =>
      let line := after ' ' line
      if ' ' ∈ line then
        (none, { r with uri := before ' ' line, version := after ' ' line })
      else (some (.exception "Invalid request line2" .badRequest), r)
  else (some (.exception "Invalid request line1" .badRequest), r)

def processLine (r : Request) (line : List Char) : Option Fault × Request :=
  if r.method = [] then r.process line
  else
    let res := r.toParser.processHeader line
    (res.1, { r with toParser := res.2 })

/-- The loop of `consume`; a search is charged with `sizeof(header_delimiter)`. -/
def reader : Reader Request Fault Char := ⟨headerDelimiter, 3, maxHeaderSize, processLine⟩

/-- A difference of lengths, as a `size_t`. -/
def lengthDiff (a b : ℕ) : ℕ := if b ≤ a then a - b else 2^64 + a - b

theorem lengthDiff_eq_sub64 {a b : ℕ} (ha : a < 2^64) (hb : b ≤ 2^64) :
    lengthDiff a b = sub64 a b := by
  unfold lengthDiff sub64
  split_ifs <;> omega

/-- Body bytes, given at the position `processed` of `bytes`. -/
def consumeBody (r : Request) (bytes : List Char) (processed : ℕ) : Except Fault ℕ × Request :=
  if bytes.length < processed ∧ 0 < r.bodyBytesNeeded then (.error .outOfBounds, r)
  else
    match r.toParser.processBody (bytes.drop processed) with
    | (.error e, p) => (.error e, { r with toParser := p })
    | (.ok n, p) => (.ok (processed + n), { r with toParser := p, ready := p.bodyReady })

/-- The blank line; `after` is what the buffer holds behind it. -/
def blankLine (r : Request) (bytes after : List Char) : Except Fault ℕ × Request :=
  if r.method = [] ∨ r.getHeader "Host".toList = [] then
    (.error (.exception "Incomplete Request" .badRequest), r)
  else
    let left := after.length + headerDelimiter.length
    let processed := lengthDiff (bytes.length + headerDelimiter.length) left
    let r := { r with buf := none }
    match r.toParser.prepareBody with
    | (.error e, p) => (.error e, { r with toParser := p })
    | (.ok true, p) => consumeBody { r with toParser := p } bytes processed
    | (.ok false, p) => (.ok processed, { r with toParser := p, ready := true })

def headerLimit : Fault :=
  .exception "Maximum header size exceeded." .requestHeaderFieldsTooLarge

/-- The end of the loop of `consume`, whose buffer was `text`. -/
def leaveLoop (bytes text : List Char) : Read Request Fault Char → Except Fault ℕ × Request
  | .exceeded count r => (.error headerLimit, { r with headerBytes := count, buf := some text })
  | .failed e count r => (.error e, { r with headerBytes := count, buf := some text })
  | .outOfBytes count r rest =>
    (.ok bytes.length, { r with headerBytes := count, buf := some rest })
  | .blank count r after => blankLine { r with headerBytes := count, buf := some text } bytes after

def consume (r : Request) (bytes : List Char) : Except Fault ℕ × Request :=
  if r.ready then (.ok 0, r)
  else if 0 < r.bodyBytesNeeded then r.consumeBody bytes 0
  else
    match r.buf with
    | none => (.error .nullBuffer, r)
    | some buf =>
      let text := buf ++ bytes
      leaveLoop bytes text (reader.read r.headerBytes r text)

def rawHead (r : Request) : List Char :=
  r.method ++ ' ' :: (r.uri ++ ' ' :: (r.version ++ headerDelimiter)) ++
    (r.rawHeaders ++ headerDelimiter)

def raw (r : Request) : List Char := r.rawHead ++ r.body

/-! ### A line -/

/-- A line leaves alone what belongs to the body. -/
structure SameBody (r r' : Request) : Prop where
  buf : r'.buf = r.buf
  ready : r'.ready = r.ready
  body : r'.body = r.body
  needed : r'.bodyBytesNeeded = r.bodyBytesNeeded
  max : r'.bodyBytesMax = r.bodyBytesMax
  encoding : r'.bodyEncoding = r.bodyEncoding

theorem SameBody.refl (r : Request) : SameBody r r := ⟨rfl, rfl, rfl, rfl, rfl, rfl⟩

theorem SameBody.trans {r s t : Request} (h : SameBody r s) (h' : SameBody s t) : SameBody r t :=
  ⟨h'.buf.trans h.buf, h'.ready.trans h.ready, h'.body.trans h.body, h'.needed.trans h.needed,
    h'.max.trans h.max, h'.encoding.trans h.encoding⟩

theorem process_of_not_mem {r : Request} {line : List Char} (h : ' ' ∉ line) :
    r.process line = (some (.exception "Invalid request line1" .badRequest), r) := if_neg h

theorem process_of_mem {r : Request} {line : List Char} (h : ' ' ∈ line) : r.process line =
    if (before ' ' line).all isTokenChar then
      if ' ' ∈ after ' ' line then
        (none, { r with method := before ' ' line, uri := before ' ' (after ' ' line),
                        version := after ' ' (after ' ' line) })
      else (some (.exception "Invalid request line2" .badRequest),
        { r with method := before ' ' line })
    else (some (.exception "Invalid method token." .badRequest), r) := by
  rw [process, if_pos h, setMethod]
  by_cases htoken : (before ' ' line).all isTokenChar = true
  · rw [if_pos htoken, if_pos htoken]
  · rw [if_neg htoken, if_neg htoken]

theorem process_sameBody (r : Request) (line : List Char) : SameBody r (r.process line).2 := by
  by_cases hspace : ' ' ∈ line
  · rw [process_of_mem hspace]
    split_ifs
    · exact ⟨rfl, rfl, rfl, rfl, rfl, rfl⟩
    · exact ⟨rfl, rfl, rfl, rfl, rfl, rfl⟩
    · exact .refl r
  · rw [process_of_not_mem hspace]
    exact .refl r

theorem process_fault {r : Request} {line : List Char} {e : Fault}
    (h : (r.process line).1 = some e) : ∃ msg, e = .exception msg .badRequest := by
  by_cases hspace : ' ' ∈ line
  · rw [process_of_mem hspace] at h
    split_ifs at h
    · exact ⟨_, (Option.some.inj h).symm⟩
    · exact ⟨_, (Option.some.inj h).symm⟩
  · rw [process_of_not_mem hspace] at h
    exact ⟨_, (Option.some.inj h).symm⟩

theorem processLine_sameBody (r : Request) (line : List Char) :
    SameBody r (r.processLine line).2 := by
  unfold processLine
  split_ifs
  · exact process_sameBody r line
  · rw [Parser.processHeader_eq]
    exact ⟨rfl, rfl, rfl, rfl, rfl, rfl⟩

theorem processLine_fault {r : Request} {line : List Char} {e : Fault}
    (h : (r.processLine line).1 = some e) : ∃ msg, e = .exception msg .badRequest := by
  unfold processLine at h
  split_ifs at h
  · exact process_fault h
  · rw [Parser.processHeader_eq] at h
    exact Parser.headerLine_fault h

/-- The bytes of the head that the request keeps. -/
def stored (r : Request) : ℕ :=
  r.method.length + r.uri.length + r.version.length + r.headers.weight List.length List.length

theorem stored_process_le {r : Request} (hmethod : r.method = []) (line : List Char) :
    (r.process line).2.stored ≤ r.stored + line.length := by
  by_cases hspace : ' ' ∈ line
  · have hline := congrArg List.length (before_append_after hspace)
    rw [List.length_append, List.length_cons] at hline
    rw [process_of_mem hspace]
    split_ifs with htoken hspace'
    · have hrest := congrArg List.length (before_append_after hspace')
      rw [List.length_append, List.length_cons] at hrest
      dsimp only [stored]
      omega
    · dsimp only [stored]
      rw [hmethod, List.length_nil]
      omega
    · exact Nat.le_add_right _ _
  · rw [process_of_not_mem hspace]
    exact Nat.le_add_right _ _

theorem stored_processLine_le (r : Request) (line : List Char) :
    (r.processLine line).2.stored ≤ r.stored + (line.length + 3) := by
  unfold processLine
  split_ifs with hmethod
  · exact (stored_process_le hmethod line).trans (by omega)
  · have hweight := Parser.weight_headerLine_le r.headers line
    rw [Parser.processHeader_eq]
    dsimp only [stored]
    omega

/-- A line does not depend on the counter and the buffer. -/
def recount (count : ℕ) (buf : Option (List Char)) (r : Request) : Request :=
  { r with headerBytes := count, buf := buf }

theorem processLine_recount (count : ℕ) (buf : Option (List Char)) (r : Request)
    (line : List Char) : (r.recount count buf).processLine line =
      ((r.processLine line).1, (r.processLine line).2.recount count buf) := by
  unfold processLine
  change (if r.method = [] then _ else _) = _
  split_ifs
  · by_cases hspace : ' ' ∈ line
    · rw [process_of_mem hspace, process_of_mem hspace]
      split_ifs <;> rfl
    · rw [process_of_not_mem hspace, process_of_not_mem hspace]
  · dsimp only
    rw [Parser.processHeader_eq, Parser.processHeader_eq]
    rfl

end Request

end MSylar.Http
