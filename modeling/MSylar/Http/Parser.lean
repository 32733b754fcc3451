import Mathlib.Data.Char
import Mathlib.Data.List.Lex
import MSylar.Lib.Lines
import MSylar.Lib.OrderedMap
import MSylar.Lib.Text

/-!
# What requests and responses share (protocol/http/parser.hpp, impl/parser.hpp, constants.hpp)

The version, the headers and the body of a message, and how they are read and written. A character
stands for a byte.
-/

namespace MSylar.Http
open MSylar.Lines MSylar.Word

/-- `status_code::value`; a parsed response may carry any number. -/
abbrev StatusCode := ℤ

namespace StatusCode

def uninitialized : StatusCode := 0
def ok : StatusCode := 200
def badRequest : StatusCode := 400
def requestEntityTooLarge : StatusCode := 413
def requestHeaderFieldsTooLarge : StatusCode := 431
def internalServerError : StatusCode := 500

end StatusCode

/-- How a call of `consume` fails: it throws `http::exception`, or it has no defined behaviour since
it uses the buffer after `m_buf.reset()` or reads outside the bytes it was given. -/
inductive Fault where
  | exception (msg : String) (code : StatusCode)
  | nullBuffer
  | outOfBounds
  deriving DecidableEq

/-! ### Characters -/

def headerToken : List ℕ := [
  0,0,0,0,0,0,0,0,0,0,0,0,0,0,0,0, -- 00..0f
  0,0,0,0,0,0,0,0,0,0,0,0,0,0,0,0, -- 10..1f
  0,1,0,1,1,1,1,1,0,0,1,1,0,1,1,0, -- 20..2f
  1,1,1,1,1,1,1,1,1,1,0,0,0,0,0,0, -- 30..3f
  0,1,1,1,1,1,1,1,1,1,1,1,1,1,1,1, -- 40..4f
  1,1,1,1,1,1,1,1,1,1,1,0,0,0,1,1, -- 50..5f
  1,1,1,1,1,1,1,1,1,1,1,1,1,1,1,1, -- 60..6f
  1,1,1,1,1,1,1,1,1,1,1,0,1,0,1,0] -- 70..7f, and 0 from 80 on

def isTokenChar (c : Char) : Bool := headerToken.getD c.toNat 0 = 1

def isWhitespaceChar (c : Char) : Bool := c = '\t' || c = ' '

/-- The unit of linear whitespace at the beginning is left out. -/
def extractLws (s : List Char) : List Char :=
  match s with
  | '\r' :: '\n' :: c :: rest =>
    if isWhitespaceChar c then rest.dropWhile isWhitespaceChar else s
  | _ => s.dropWhile isWhitespaceChar

def extractAllLwsLoop : ℕ → List Char → List Char
  | 0, s => s
  | fuel + 1, s =>
    let rest := extractLws s
    if rest ≠ [] ∧ rest ≠ s then extractAllLwsLoop fuel rest else rest

def extractAllLws (s : List Char) : List Char := extractAllLwsLoop (s.length + 1) s

-- a header line contains no `\r\n`, so that the two ends do not cross
def stripLws (input : List Char) : List Char :=
  let b := extractAllLws input
  if b = [] then []
  else
    let r := extractAllLws input.reverse
    if r = [] then [] else (input.take r.length).drop (input.length - b.length)

/-- `strtoul(s, &end, 10)` -/
def strtoul (s : List Char) : ℕ :=
  let s := s.dropWhile fun c => c = ' ' || ('\t' ≤ c && c ≤ '\r')
  let negative := s.head? = some '-'
  let s := if negative ∨ s.head? = some '+' then s.tail else s
  let n := Nat.ofDigitChars 10 (s.takeWhile Char.isDigit) 0
  if uint64Max < n then uint64Max else if negative then sub64 0 n else n

/-! ### The class -/

inductive BodyEncoding where
  | unknown
  | plain
  | chunked
  deriving DecidableEq

/-- `ci_less` compares keys without regard to case. -/
def ciKey (key : List Char) : List Char := key.map Char.toLower

abbrev HeaderList := OrderedMap ciKey (List Char)

def maxHeaderSize : ℕ := 16000

def maxBodySize : ℕ := 32000000

def headerDelimiter : List Char := ['\r', '\n']

structure Parser where
  version : List Char
  headers : HeaderList
  headerBytes : ℕ
  body : List Char
  bodyBytesNeeded : ℕ
  bodyBytesMax : ℕ
  bodyEncoding : BodyEncoding
  deriving DecidableEq

namespace Parser

def init : Parser := ⟨[], .empty, 0, [], 0, maxBodySize, .unknown⟩

def reset (p : Parser) : Parser :=
  { p with version := [], headers := .empty, headerBytes := 0, body := [], bodyBytesNeeded := 0,
           bodyEncoding := .unknown }

def getHeader (p : Parser) (key : List Char) : List Char := (p.headers.find key).getD []

def appendHeader (p : Parser) (key val : List Char) : Option Fault × Parser :=
  if key.all isTokenChar then
    if p.getHeader key = [] then (none, { p with headers := p.headers.set key val })
    else (none, { p with headers := p.headers.set key (p.getHeader key ++ (", ".toList ++ val)) })
  else (some (.exception "Invalid header name" .badRequest), p)

def replaceHeader (p : Parser) (key val : List Char) : Parser :=
  { p with headers := p.headers.set key val }

def removeHeader (p : Parser) (key : List Char) : Parser :=
  { p with headers := p.headers.erase key }

def setBody (p : Parser) (value : List Char) : Parser :=
  if value = [] then { p.removeHeader "Content-Length".toList with body := [] }
  else { p.replaceHeader "Content-Length".toList (Nat.toDigits 10 value.length) with body := value }

/-- The result tells whether there is a body to be read. -/
def prepareBody (p : Parser) : Except Fault Bool × Parser :=
  if p.getHeader "Content-Length".toList ≠ [] then
    let p := { p with bodyBytesNeeded := strtoul (p.getHeader "Content-Length".toList) }
    if p.bodyBytesMax < p.bodyBytesNeeded then
      (.error (.exception "HTTP message body too large" .requestEntityTooLarge), p)
    else (.ok true, { p with bodyEncoding := .plain })
  else (.ok false, p) -- also for `Transfer-Encoding: chunked`

def processBody (p : Parser) (bytes : List Char) : Except Fault ℕ × Parser :=
  match p.bodyEncoding with
  | .plain =>
    let processed := min p.bodyBytesNeeded bytes.length
    (.ok processed, { p with body := p.body ++ bytes.take processed
                             bodyBytesNeeded := p.bodyBytesNeeded - processed })
  | .chunked => (.error (.exception "Unexpected body encoding" .internalServerError), p)
  | .unknown => (.error (.exception "Unexpected body encoding" .internalServerError), p)

def bodyReady (p : Parser) : Bool := p.bodyBytesNeeded = 0

def processHeader (p : Parser) (line : List Char) : Option Fault × Parser :=
  match cut [':'] line with
  | none => (some (.exception "Invalid header line" .badRequest), p)
  | some (key, val) => p.appendHeader (stripLws key) (stripLws val)

def rawHeader (header : List Char × List Char) : List Char :=
  header.1 ++ (": ".toList ++ (header.2 ++ headerDelimiter))

def rawHeaders (p : Parser) : List Char := p.headers.entries.flatMap rawHeader

/-! ### The length of the body -/

theorem prepareBody_none {p : Parser} (h : p.getHeader "Content-Length".toList = []) :
    p.prepareBody = (.ok false, p) := if_neg fun hne => hne h

theorem prepareBody_large {p : Parser} (h : p.getHeader "Content-Length".toList ≠ [])
    (hlarge : p.bodyBytesMax < strtoul (p.getHeader "Content-Length".toList)) :
    p.prepareBody = (.error (.exception "HTTP message body too large" .requestEntityTooLarge),
      { p with bodyBytesNeeded := strtoul (p.getHeader "Content-Length".toList) }) := by
  rw [prepareBody, if_pos h]
  exact if_pos hlarge

theorem prepareBody_plain {p : Parser} (h : p.getHeader "Content-Length".toList ≠ [])
    (hle : strtoul (p.getHeader "Content-Length".toList) ≤ p.bodyBytesMax) :
    p.prepareBody = (.ok true, { p with
      bodyBytesNeeded := strtoul (p.getHeader "Content-Length".toList)
      bodyEncoding := .plain }) := by
  rw [prepareBody, if_pos h]
  exact if_neg (not_lt.mpr hle)

theorem prepareBody_cases (p : Parser) :
    p.prepareBody = (.ok false, p) ∨
      (p.bodyBytesMax < strtoul (p.getHeader "Content-Length".toList) ∧
        p.prepareBody = (.error (.exception "HTTP message body too large" .requestEntityTooLarge),
          { p with bodyBytesNeeded := strtoul (p.getHeader "Content-Length".toList) })) ∨
      (strtoul (p.getHeader "Content-Length".toList) ≤ p.bodyBytesMax ∧
        p.prepareBody = (.ok true, { p with
          bodyBytesNeeded := strtoul (p.getHeader "Content-Length".toList)
          bodyEncoding := .plain })) := by
  by_cases h : p.getHeader "Content-Length".toList = []
  · exact .inl (prepareBody_none h)
  · rcases lt_or_ge p.bodyBytesMax (strtoul (p.getHeader "Content-Length".toList)) with hlt | hle
    · exact .inr (.inl ⟨hlt, prepareBody_large h hlt⟩)
    · exact .inr (.inr ⟨hle, prepareBody_plain h hle⟩)

/-! ### Header lines -/

/-- What a header line does to the headers. -/
def headerLine (headers : HeaderList) (line : List Char) : Option Fault × HeaderList :=
  let res := processHeader { init with headers := headers } line
  (res.1, res.2.headers)

theorem processHeader_eq (p : Parser) (line : List Char) : p.processHeader line =
    ((headerLine p.headers line).1, { p with headers := (headerLine p.headers line).2 }) := by
  simp only [headerLine, processHeader]
  cases cut [':'] line with
  | none => rfl
  | some pieces =>
    unfold appendHeader getHeader
    by_cases htoken : (stripLws pieces.1).all isTokenChar = true
    · by_cases hold : (p.headers.find (stripLws pieces.1)).getD [] = []
      · simp only [htoken, hold, if_true]
      · simp only [htoken, hold, if_true, if_false]
    · simp only [htoken, Bool.false_eq_true, if_false]

theorem headerLine_fault {headers : HeaderList} {line : List Char} {e : Fault}
    (h : (headerLine headers line).1 = some e) : ∃ msg, e = .exception msg .badRequest := by
  simp only [headerLine, processHeader] at h
  cases hcut : cut [':'] line with
  | none =>
    rw [hcut, Option.some.injEq] at h
    exact ⟨_, h.symm⟩
  | some pieces =>
    rw [hcut] at h
    simp only [appendHeader] at h
    split_ifs at h
    rw [Option.some.injEq] at h
    exact ⟨_, h.symm⟩

theorem length_stripLws_le (s : List Char) : (stripLws s).length ≤ s.length := by
  unfold stripLws
  dsimp only
  split_ifs
  · exact Nat.zero_le _
  · exact Nat.zero_le _
  · rw [List.length_drop, List.length_take]
    omega

theorem weight_headerLine_le (headers : HeaderList) (line : List Char) :
    (headerLine headers line).2.weight List.length List.length ≤
      headers.weight List.length List.length + (line.length + 3) := by
  simp only [headerLine, processHeader]
  cases hcut : cut [':'] line with
  | none => exact Nat.le_add_right _ _
  | some pieces =>
    have hline := congrArg List.length (cut_eq_some hcut)
    have hkey := length_stripLws_le pieces.1
    have hval := length_stripLws_le pieces.2
    have hold := fun v => headers.weight_set_le List.length List.length (stripLws pieces.1) v
    simp only [List.length_append, List.length_singleton] at hline
    unfold appendHeader getHeader
    by_cases htoken : (stripLws pieces.1).all isTokenChar = true
    · cases hfind : headers.find (stripLws pieces.1) with
      | none =>
        have hset := hold (stripLws pieces.2)
        simp only [htoken, hfind, if_true, Option.getD_none, Option.elim_none] at hset ⊢
        omega
      | some old =>
        by_cases hempty : old = []
        · have hset := hold (stripLws pieces.2)
          simp only [htoken, hfind, hempty, if_true, Option.getD_some] at hset ⊢
          omega
        · have hset := hold (old ++ (", ".toList ++ stripLws pieces.2))
          have hcomma : (", ".toList).length = 2 := by decide
          simp only [htoken, hfind, hempty, if_true, if_false, Option.getD_some,
            Option.elim_some, List.length_append, hcomma] at hset ⊢
          omega
    · simp only [htoken, Bool.false_eq_true, if_false]
      exact Nat.le_add_right _ _

end Parser

end MSylar.Http
