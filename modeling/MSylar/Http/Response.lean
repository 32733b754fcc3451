import MSylar.Http.RoundTrip

/-!
# Responses (protocol/http/response.hpp, impl/response.hpp, http.hpp:90-146, httpServer.cc:119-139)

`co_sendResp` completes the response that a handler has set up and writes it with `raw`. `consume`
reads a response from the pieces of a stream; a response without a body is not ready before more
bytes come, and it uses none of them.
-/

namespace MSylar.Http
open MSylar.Lines MSylar.Text MSylar.Word

/-! ### Numbers -/

def isSpace (c : Char) : Bool := c = ' ' || ('\t' ≤ c && c ≤ '\r')

/-- The sign and the digits that `operator>>` takes from a string. -/
def getNum (s : List Char) : Option (Bool × ℕ) :=
  let s := s.dropWhile isSpace
  let negative := s.head? = some '-'
  let s := if negative ∨ s.head? = some '+' then s.tail else s
  let digits := s.takeWhile Char.isDigit
  if digits = [] then none else some (negative, Nat.ofDigitChars 10 digits 0)

/-- `ss >> code`, `none` where it fails. -/
def extractInt (s : List Char) : Option ℤ :=
  match getNum s with
  | none => none
  | some (negative, n) =>
    let i : ℤ := if negative then -n else n
    if -2^31 ≤ i ∧ i < 2^31 then some i else none

/-- `ss >> m_read` and `fail()`; a blank string leaves the old value. -/
def extractSize (old : ℕ) (s : List Char) : ℕ × Bool :=
  match getNum s with
  | none => (if s.all isSpace then old else 0, true)
  | some (negative, n) =>
    if uint64Max < n then (uint64Max, true) else (if negative then sub64 0 n else n, false)

/-- `std::to_string` of an `int`. -/
def intText (i : ℤ) : List Char :=
  if i < 0 then '-' :: Nat.toDigits 10 i.natAbs else Nat.toDigits 10 i.natAbs

/-! ### Numbers that are written -/

theorem getNum_toDigits (n : ℕ) : getNum (Nat.toDigits 10 n) = some (false, n) := by
  have hspace : (Nat.toDigits 10 n).dropWhile isSpace = Nat.toDigits 10 n :=
    Request.dropWhile_toDigits n
  have hminus := @Request.head_toDigits_ne n '-' (by decide)
  have hplus := @Request.head_toDigits_ne n '+' (by decide)
  unfold getNum
  rw [hspace]
  simp only [hminus, hplus, or_self, if_false, Request.takeWhile_toDigits, Nat.toDigits_ne_nil,
    Nat.ofDigitChars_ten_toDigits, decide_false]

theorem getNum_minus (n : ℕ) : getNum ('-' :: Nat.toDigits 10 n) = some (true, n) := by
  have hspace : ('-' :: Nat.toDigits 10 n).dropWhile isSpace = '-' :: Nat.toDigits 10 n :=
    List.dropWhile_cons_of_neg (by decide)
  unfold getNum
  rw [hspace]
  simp only [List.head?_cons, List.tail_cons, true_or, if_true, Request.takeWhile_toDigits,
    Nat.toDigits_ne_nil, if_false, Nat.ofDigitChars_ten_toDigits, decide_true]

theorem extractInt_intText {i : ℤ} (h : -2^31 ≤ i ∧ i < 2^31) : extractInt (intText i) = some i := by
  unfold intText extractInt
  split_ifs with hneg
  · have habs : (-(i.natAbs : ℤ)) = i := by omega
    rw [getNum_minus]
    simp only [if_true, habs, h, and_self]
  · have habs : (i.natAbs : ℤ) = i := by omega
    rw [getNum_toDigits]
    simp only [Bool.false_eq_true, if_false, habs, h, and_self, if_true]

theorem extractSize_toDigits {n : ℕ} (h : n < 2^64) (old : ℕ) :
    extractSize old (Nat.toDigits 10 n) = (n, false) := by
  have hle : ¬ uint64Max < n := by
    unfold uint64Max
    omega
  unfold extractSize
  rw [getNum_toDigits]
  simp only [hle, if_false, Bool.false_eq_true]

theorem not_mem_intText {i : ℤ} {c : Char} (hdigit : c.isDigit = false) (hminus : c ≠ '-') :
    c ∉ intText i := by
  have hdigits : c ∉ Nat.toDigits 10 i.natAbs := fun hmem => Request.digit_ne hmem hdigit rfl
  unfold intText
  split_ifs
  · rw [List.mem_cons]
    exact fun hmem => hmem.elim hminus hdigits
  · exact hdigits

/-! ### The class -/

def statusStrings : List (StatusCode × String) := [
  (0, "Uninitialized"), (100, "Continue"), (101, "Switching Protocols"), (200, "OK"),
  (201, "Created"), (202, "Accepted"), (203, "Non Authoritative Information"),
  (204, "No Content"), (205, "Reset Content"), (206, "Partial Content"),
  (300, "Multiple Choices"), (301, "Moved Permanently"), (302, "Found"), (303, "See Other"),
  (304, "Not Modified"), (305, "Use Proxy"), (307, "Temporary Redirect"), (400, "Bad Request"),
  (401, "Unauthorized"), (402, "Payment Required"), (403, "Forbidden"), (404, "Not Found"),
  (405, "Method Not Allowed"), (406, "Not Acceptable"), (407, "Proxy Authentication Required"),
  (408, "Request Timeout"), (409, "Conflict"), (410, "Gone"), (411, "Length Required"),
  (412, "Precondition Failed"), (413, "Request Entity Too Large"), (414, "Request-URI Too Long"),
  (415, "Unsupported Media Type"), (416, "Requested Range Not Satisfiable"),
  (417, "Expectation Failed"), (418, "I'm a teapot"), (426, "Upgrade Required"),
  (428, "Precondition Required"), (429, "Too Many Requests"),
  (431, "Request Header Fields Too Large"), (500, "Internal Server Error"),
  (501, "Not Implemented"), (502, "Bad Gateway"), (503, "Service Unavailable"),
  (504, "Gateway Timeout"), (505, "HTTP Version Not Supported"), (510, "Not Extended"),
  (511, "Network Authentication Required")]

/-- `status_code::get_string` -/
def getString (code : StatusCode) : List Char :=
  ((statusStrings.lookup code).getD "Unknown").toList

theorem newline_not_mem_getString (code : StatusCode) : '\n' ∉ getString code := by
  have hall : (statusStrings.all fun e => !e.2.toList.contains '\n') = true := by decide +kernel
  unfold getString
  cases hfind : statusStrings.lookup code with
  | none => decide
  | some msg =>
    obtain ⟨_, _, hsplit, _⟩ := List.lookup_eq_some_iff.mp hfind
    have hmem : (code, msg) ∈ statusStrings := by
      rw [hsplit]
      exact List.mem_append_right _ List.mem_cons_self
    have hmsg := List.all_eq_true.mp hall (code, msg) hmem
    simpa using hmsg

inductive ResponseState where
  | responseLine
  | headers
  | body
  | done
  deriving DecidableEq

/-- `read` is `m_read`, the bytes of the body that are left. -/
structure Response extends Parser where
  statusMsg : List Char
  read : ℕ
  buf : Option (List Char)
  statusCode : StatusCode
  state : ResponseState
  deriving DecidableEq

namespace Response

def init : Response := ⟨.init, [], 0, some [], .uninitialized, .responseLine⟩

def reset (r : Response) : Response :=
  ⟨r.toParser.reset, [], 0, some [], .uninitialized, .responseLine⟩

def ready (r : Response) : Bool := r.state = .done

def setStatus (r : Response) (code : StatusCode) (msg : List Char) : Response :=
  { r with statusCode := code, statusMsg := msg }

/-- The response line. -/
def process (r : Response) (line : List Char) : Option Fault × Response :=
  if ' ' ∈ line then
    let r := { r with version := before ' ' line }
    let line := after ' ' line
    if ' ' ∈ line then
      match extractInt (before ' ' line) with
      | none => (some (.exception "Unable to parse response code" .badRequest), r)
      | some code => (none, r.setStatus code (after ' ' line))
    else (some (.exception "Invalid request line" .badRequest), r)
  else (some (.exception "Invalid response line" .badRequest), r)

def processLine (r : Response) (line : List Char) : Option Fault × Response :=
  if r.state = .responseLine then
    match r.process line with
    | (some e, r) => (some e, r)
    | (none, r) => (none, { r with state := .headers })
  else
    let res := r.toParser.processHeader line
    (res.1, { r with toParser := res.2 })

def reader : Reader Response Fault Char := ⟨headerDelimiter, 3, maxHeaderSize, processLine⟩

def processBody (r : Response) (bytes : List Char) : ℕ × Response :=
  if r.read = 0 then (0, { r with state := .done })
  else
    let toRead := min r.read bytes.length
    (toRead, { r with
      state := if r.read ≤ bytes.length then .done else r.state
      body := r.body ++ bytes.take toRead
      read := r.read - toRead })

/-- The blank line; `after` is what the buffer holds behind it. -/
def blankLine (r : Response) (bytes after : List Char) : Except Fault ℕ × Response :=
  if r.state = .responseLine then
    (.error (.exception "Incomplete Request" .badRequest), r)
  else
    let length := r.getHeader "Content-Length".toList
    let (left, fail) := if length = [] then (0, false) else extractSize r.read length
    let r := { r with read := left }
    if fail then
      (.error (.exception "Unable to parse Content-Length header" .badRequest), r)
    else
      let r := { r with state := .body }
      let read := Request.lengthDiff (bytes.length + headerDelimiter.length)
        (after.length + headerDelimiter.length)
      let res := if read < bytes.length then
          let res := r.processBody (bytes.drop read)
          (read + res.1, res.2)
        else (read, r)
      (.ok res.1, { res.2 with buf := none })

/-- The end of the loop of `consume`, whose buffer was `text`. -/
def leaveLoop (bytes text : List Char) : Read Response Fault Char → Except Fault ℕ × Response
  | .exceeded count r =>
    (.error Request.headerLimit, { r with headerBytes := count, buf := some text })
  | .failed e count r => (.error e, { r with headerBytes := count, buf := some text })
  | .outOfBytes count r rest =>
    (.ok bytes.length,
      { r with read := add64 r.read bytes.length, headerBytes := count, buf := some rest })
  | .blank count r after => blankLine { r with headerBytes := count, buf := some text } bytes after

def consume (r : Response) (bytes : List Char) : Except Fault ℕ × Response :=
  match r.state with
  | .done => (.ok 0, r)
  | .body => (.ok (r.processBody bytes).1, (r.processBody bytes).2)
  | .responseLine | .headers =>
    match r.buf with
    | none => (.error .nullBuffer, r)
    | some buf => leaveLoop bytes (buf ++ bytes) (reader.read r.headerBytes r (buf ++ bytes))

def rawHead (r : Response) : List Char :=
  r.version ++ ' ' :: (intText r.statusCode ++ ' ' :: (r.statusMsg ++ headerDelimiter)) ++
    (r.rawHeaders ++ headerDelimiter)

def raw (r : Response) : List Char := r.rawHead ++ r.body

/-- One call after another, until the response is ready or a call throws. -/
def feed (r : Response) : List (List Char) → Except Fault ℕ × Response
  | [] => (.ok 0, r)
  | chunk :: chunks =>
    match r.consume chunk with
    | (.error e, r) => (.error e, r)
    | (.ok n, r) =>
      if r.ready then (.ok n, r)
      else
        let res := r.feed chunks
        (res.1.map (n + ·), res.2)

/-! ### The server -/

/-- What a handler does with its response (`http::Response`). -/
inductive Edit where
  | setStatus (code : StatusCode)
  | appendHeader (key val : List Char)
  | replaceHeader (key val : List Char)
  | removeHeader (key : List Char)
  | setBody (body : List Char)

/-- A call that throws leaves the response as it is. -/
def edit (r : Response) : Edit → Response
  | .setStatus code => r.setStatus code (getString code)
  | .appendHeader key val => { r with toParser := (r.toParser.appendHeader key val).2 }
  | .replaceHeader key val => { r with toParser := r.toParser.replaceHeader key val }
  | .removeHeader key => { r with toParser := r.toParser.removeHeader key }
  | .setBody body => { r with toParser := r.toParser.setBody body }

/-- The response that `co_sendResp` writes. -/
def coSendResp (r : Response) (keep : Bool) : Response :=
  let r := if r.statusCode = .uninitialized then r.edit (.setStatus .ok) else r
  let r := { r with version := "HTTP/1.1".toList }
  r.edit (.appendHeader "Connection".toList
    (if keep then "keep-alive".toList else "close".toList))

end Response

end MSylar.Http
