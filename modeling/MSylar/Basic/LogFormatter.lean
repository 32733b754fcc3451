import Mathlib.Algebra.Group.Nat.Defs
import MSylar.Basic.LogDefine
import MSylar.Lib.Transducer

/-!
# Log patterns (log.cc:225-478, log.h:54-130)

`init` scans the pattern once and collects literal texts and directives, each with a status that
tells the two apart; the table of items turns them into what `format` writes. The file name of an
event is never null: the macros pass `__FILE_NAME__`.
-/

namespace MSylar.Basic

structure LogEvent where
  fileName : List Char
  line : ℤ
  elapse : ℕ
  threadId : ℕ
  threadName : List Char
  fiberId : ℕ
  timer : ℕ
  content : List Char
  loggerName : List Char

/-- `getTimer` returns a `uint32_t`. -/
def LogEvent.getTimer (event : LogEvent) : ℕ := event.timer % 2^32

inductive FormatItem where
  | message
  | level
  | elapse
  | name
  | thread
  | fiber
  | dateTime (format : List Char)
  | filename
  | line
  | newLine
  | string (str : List Char)
  | tab

def getLevelColor : LogLevel → List Char
  | .debug => "\x1b[36m".toList
  | .info => "\x1b[32m".toList
  | .warn => "\x1b[33m".toList
  | .error => "\x1b[31m".toList
  | .fatal => "\x1b[35m".toList
  | .unknown => "\x1b[0m".toList

/-- What an item writes; `isTty` says whether the standard output is a terminal. -/
def FormatItem.format (isTty : Bool) (level : LogLevel) (event : LogEvent) : FormatItem → List Char
  | .message => event.content
  | .level =>
    (if isTty then getLevelColor level else []) ++ level.toText ++
      (if isTty then "\x1b[0m".toList else [])
  | .elapse => (toString event.elapse).toList
  | .name => event.loggerName
  | .thread => (toString event.threadId).toList ++ [':'] ++ event.threadName
  | .fiber => (toString event.fiberId).toList
  | .dateTime _ => (toString event.getTimer).toList
  | .filename => event.fileName
  | .line => (toString event.line).toList
  | .newLine => ['\n']
  | .string str => str
  | .tab => ['\t']

-- `s_format_items`
def formatItems : List (List Char × (List Char → FormatItem)) :=
  [(['m'], fun _ => .message),
    (['p'], fun _ => .level),
    (['r'], fun _ => .elapse),
    (['c'], fun _ => .name),
    (['t'], fun _ => .thread),
    (['f'], fun _ => .fiber),
    (['d'], .dateTime),
    (['F'], fun _ => .filename),
    (['L'], fun _ => .line),
    (['n'], fun _ => .newLine),
    (['s'], .string),
    (['T'], fun _ => .tab)]

/-- A tuple of `vec`: the text or the directive, the format in braces and the status. -/
structure Entry where
  str : List Char
  format : List Char
  status : ℕ

def Entry.item (e : Entry) : FormatItem × Bool :=
  if e.status = 0 then (.string e.str, false)
  else match formatItems.lookup e.str with
    | none => (.string ("<<error_format %".toList ++ e.str ++ ">>".toList), true)
    | some make => (make e.format, false)

/-! ### The scanner -/

def openBrace : Char := '\x7b'
def closeBrace : Char := '\x7d'

/-- `m_pattern[i]`; behind the last character stands the null character. -/
def charAt (pattern : List Char) (i : ℕ) : Char := pattern.getD i '\x00'

structure Scan where
  vec : List Entry
  nstr : List Char
  fmtStatus : ℕ

def Scan.flush (s : Scan) : List Entry :=
  if s.nstr ≠ [] then s.vec ++ [⟨s.nstr, [], s.fmtStatus⟩] else s.vec

/-- The loop over the format of a date, with the last value of `i` and `time_str`. -/
def timeLoop (pattern : List Char) : ℕ → ℕ → Bool → List Char → ℕ × List Char
  | 0, i, _, timeStr => (i, timeStr)
  | fuel + 1, i, isIn, timeStr =>
    if i + 1 < pattern.length then
      let i := i + 1
      let isIn := if charAt pattern i = openBrace then true else isIn
      let timeStr := timeStr ++ [charAt pattern i]
      if isIn = true ∧ charAt pattern i = closeBrace then (i, timeStr)
      else timeLoop pattern fuel i isIn timeStr
    else (i, timeStr)

/-- The loop over the pattern; `i` moves forward in every round. -/
def initLoop (pattern : List Char) : ℕ → ℕ → Scan → Scan
  | 0, _, s => s
  | fuel + 1, i, s =>
    if i < pattern.length then
      if charAt pattern i = '%' then
        let vec := s.flush
        let i := i + 1
        if pattern.length ≤ i then ⟨vec, [], 1⟩
        else if charAt pattern i = 'd' then
          if charAt pattern (i + 1) ≠ openBrace ∧ i + 1 < pattern.length then
            initLoop pattern fuel (i + 1) ⟨vec ++ [⟨['d'], [], 1⟩], [], 0⟩
          else
            let r := timeLoop pattern pattern.length i false []
            let vec := if r.1 < pattern.length then vec ++ [⟨['d'], r.2, 1⟩] else vec
            initLoop pattern fuel (r.1 + 1) ⟨vec, [], 0⟩
        else if charAt pattern i = '%' then
          initLoop pattern fuel (i + 1) ⟨vec ++ [⟨[charAt pattern i], [], 0⟩], [], 0⟩
        else if (charAt pattern i).isAlpha then
          initLoop pattern fuel (i + 1) ⟨vec ++ [⟨[charAt pattern i], [], 1⟩], [], 0⟩
        else
          initLoop pattern fuel (i + 1) ⟨vec ++ [⟨[charAt pattern i], [], 0⟩], [], 0⟩
      else
        initLoop pattern fuel (i + 1) { s with nstr := s.nstr ++ [charAt pattern i] }
    else s

structure LogFormatter where
  pattern : List Char
  items : List FormatItem
  isError : Bool

/-- The constructor with its call of `init`. -/
def LogFormatter.new (pattern : List Char) : LogFormatter :=
  let vec := (initLoop pattern (pattern.length + 1) 0 ⟨[], [], 0⟩).flush
  ⟨pattern, vec.map fun e => e.item.1, vec.any fun e => e.item.2⟩

def LogFormatter.format (f : LogFormatter) (isTty : Bool) (level : LogLevel) (event : LogEvent) :
    List Char :=
  f.items.flatMap fun item => item.format isTty level event

/-! ### What a pattern says -/

/-- Where the scanner is: in a text, behind a percent sign, behind `%d`, or in the braces of a
date. -/
inductive Mode where
  | text
  | percent
  | date
  | braces
  deriving DecidableEq

def Mode.next : Mode → Char → Mode
  | .text, c => if c = '%' then .percent else .text
  | .percent, c => if c = 'd' then .date else .text
  | .date, c => if c = openBrace then .braces else if c = '%' then .percent else .text
  | .braces, c => if c = closeBrace then .text else .braces

def literal (c : Char) : Entry := ⟨[c], [], 0⟩
def directive (c : Char) : Entry := ⟨[c], [], 1⟩

def Mode.emit : Mode → Char → List Entry
  | .text, c => if c = '%' then [] else [literal c]
  | .percent, c => if c.isAlpha then [directive c] else [literal c]
  | .date, c => if c = openBrace ∨ c = '%' then [] else [literal c]
  | .braces, _ => []

def scanner : Transducer Mode Char Entry := ⟨Mode.next, Mode.emit⟩

/-- Parsing `p` ends neither behind a lone percent sign, nor in the braces of a date, nor behind a
`%d` that `q` goes on with a brace. -/
def Complete (p q : List Char) : Prop :=
  match scanner.state .text p with
  | .text => True
  | .percent => False
  | .date => q.head? ≠ some openBrace
  | .braces => False

def quoted (s : List Char) : List Char := s.flatMap fun c => if c = '%' then ['%', '%'] else [c]

/-! ### The text of entries -/

section
variable (isTty : Bool) (level : LogLevel) (event : LogEvent)

/-- What entries write, and whether one of them is in error. -/
def meaning (vec : List Entry) : List Char × Bool :=
  (vec.flatMap fun e => e.item.1.format isTty level event, vec.any fun e => e.item.2)

variable {isTty level event}

theorem meaning_congr {vec vec' : List Entry}
    (h : meaning isTty level event vec = meaning isTty level event vec') (rest : List Entry) :
    meaning isTty level event (vec ++ rest) = meaning isTty level event (vec' ++ rest) := by
  unfold meaning at h ⊢
  rw [Prod.mk.injEq] at h
  simp only [List.flatMap_append, List.any_append, h]

theorem meaning_concat (vec : List Entry) (e : Entry) :
    meaning isTty level event (vec ++ [e]) =
      ((meaning isTty level event vec).1 ++ e.item.1.format isTty level event,
        (meaning isTty level event vec).2 || e.item.2) := by
  unfold meaning
  rw [List.flatMap_append, List.any_append, List.flatMap_singleton, List.any_cons, List.any_nil,
    Bool.or_false]

theorem meaning_date (vec : List Entry) (timeStr : List Char) :
    meaning isTty level event (vec ++ [⟨['d'], timeStr, 1⟩]) =
      meaning isTty level event (vec ++ [directive 'd']) := by
  rw [meaning_concat, meaning_concat]
  rfl

theorem item_text (str : List Char) : (⟨str, [], 0⟩ : Entry).item = (.string str, false) := rfl

/-- A character of a text may as well be an entry of its own. -/
theorem meaning_flush {s : Scan} (h : s.fmtStatus = 0) (c : Char) :
    meaning isTty level event ({ s with nstr := s.nstr ++ [c] } : Scan).flush =
      meaning isTty level event (s.flush ++ [literal c]) := by
  have hpush : ({ s with nstr := s.nstr ++ [c] } : Scan).flush =
      s.vec ++ [⟨s.nstr ++ [c], [], 0⟩] := by
    simp [Scan.flush, h]
  rw [hpush, literal, meaning_concat, meaning_concat, item_text, item_text]
  unfold Scan.flush
  by_cases hnil : s.nstr = []
  · rw [if_neg (not_not.mpr hnil), hnil, List.nil_append]
  · rw [if_pos hnil, h, meaning_concat, item_text, List.append_assoc]
    simp only [FormatItem.format, Bool.or_false]

end

/-! ### The scanner goes through the modes -/

theorem charAt_append (w u : List Char) (c : Char) : charAt (w ++ c :: u) w.length = c := by
  unfold charAt
  rw [List.getD_eq_getElem?_getD, List.getElem?_append_right (le_refl _)]
  simp

/-- Within the braces the loop stops at the closing one, or at the last character; `b` is left. -/
theorem timeLoop_braces {u : List Char} (w : List Char) {i fuel : ℕ} (hi : i + 1 = w.length)
    (hfuel : u.length < fuel) (timeStr : List Char) :
    ∃ i' r v b, timeLoop (w ++ u) fuel i true timeStr = (i', r) ∧ i' + 1 = v.length ∧
      w ++ u = v ++ b ∧ b.length ≤ u.length ∧
      scanner.output .braces u = scanner.output .text b := by
  induction u generalizing w i fuel timeStr with
  | nil =>
    obtain ⟨fuel, rfl⟩ := Nat.exists_eq_add_one_of_ne_zero (show fuel ≠ 0 by omega)
    refine ⟨i, timeStr, w, [], ?_, hi, rfl, le_rfl, rfl⟩
    rw [timeLoop, if_neg (by rw [List.append_nil]; omega)]
  | cons c u ih =>
    obtain ⟨fuel, rfl⟩ := Nat.exists_eq_add_one_of_ne_zero (show fuel ≠ 0 by omega)
    have hlt : i + 1 < (w ++ c :: u).length := by
      rw [List.length_append, List.length_cons]
      omega
    have hsplit : w ++ c :: u = (w ++ [c]) ++ u := by
      rw [List.append_assoc, List.singleton_append]
    have hlen : i + 1 + 1 = (w ++ [c]).length := by
      rw [List.length_append, List.length_singleton, hi]
    have hchar : charAt (w ++ c :: u) (i + 1) = c := hi ▸ charAt_append w u c
    rw [timeLoop, if_pos hlt]
    simp only [hchar, ite_self, true_and]
    by_cases hclose : c = closeBrace
    · rw [if_pos hclose]
      refine ⟨i + 1, _, w ++ [c], u, rfl, hlen, hsplit, Nat.le_succ _, ?_⟩
      rw [hclose]
      rfl
    · rw [if_neg hclose]
      obtain ⟨i', r, v, b, hrun, hi', hv, hb, hout⟩ := ih (w ++ [c]) hlen
        (Nat.lt_of_succ_lt_succ hfuel) (timeStr ++ [c])
      rw [hsplit]
      refine ⟨i', r, v, b, hrun, hi', hv, Nat.le_succ_of_le hb, ?_⟩
      rw [← hout, Transducer.output_cons]
      show [] ++ scanner.output (if c = closeBrace then .text else .braces) u = _
      rw [if_neg hclose, List.nil_append]

/-- Behind `%d` the loop reads the braces, if there are any. -/
theorem timeLoop_date {u : List Char} (hu : ∀ c ∈ u.head?, c = openBrace) (w : List Char)
    (fuel : ℕ) {i : ℕ} (hi : i + 1 = w.length) (hfuel : u.length < fuel) :
    ∃ i' r v b, timeLoop (w ++ u) fuel i false [] = (i', r) ∧ i' + 1 = v.length ∧
      w ++ u = v ++ b ∧ b.length ≤ u.length ∧
      scanner.output .date u = scanner.output .text b := by
  obtain ⟨fuel, rfl⟩ := Nat.exists_eq_add_one_of_ne_zero (show fuel ≠ 0 by omega)
  cases u with
  | nil =>
    refine ⟨i, [], w, [], ?_, hi, rfl, le_rfl, rfl⟩
    rw [timeLoop, if_neg (by rw [List.append_nil]; omega)]
  | cons c u =>
    obtain rfl : c = openBrace := hu c rfl
    have hlt : i + 1 < (w ++ openBrace :: u).length := by
      rw [List.length_append, List.length_cons]
      omega
    have hsplit : w ++ openBrace :: u = (w ++ [openBrace]) ++ u := by
      rw [List.append_assoc, List.singleton_append]
    have hchar : charAt (w ++ openBrace :: u) (i + 1) = openBrace := hi ▸ charAt_append w u _
    obtain ⟨i', r, v, b, hrun, hi', hv, hb, hout⟩ := timeLoop_braces (w ++ [openBrace])
      (i := i + 1) (by rw [List.length_append, List.length_singleton, hi])
      (Nat.lt_of_succ_lt_succ hfuel) [openBrace]
    refine ⟨i', r, v, b, ?_, hi', hsplit ▸ hv, Nat.le_succ_of_le hb, hout⟩
    rw [timeLoop, if_pos hlt]
    simp only [hchar, if_true, true_and, List.nil_append]
    rw [if_neg (by decide), hsplit, hrun]

section
variable {isTty : Bool} {level : LogLevel} {event : LogEvent}

/-- From every position the loop adds what the machine reads there. -/
def Scans (isTty : Bool) (level : LogLevel) (event : LogEvent) (pattern : List Char) (fuel : ℕ) :
    Prop :=
  ∀ w rest s, w ++ rest = pattern → rest.length < fuel → s.fmtStatus = 0 →
    meaning isTty level event (initLoop pattern fuel w.length s).flush =
      meaning isTty level event (s.flush ++ scanner.output .text rest)

theorem Scans.next {pattern : List Char} {fuel : ℕ} (h : Scans isTty level event pattern fuel)
    {v b : List Char} (hv : v ++ b = pattern) (hfuel : b.length < fuel) {i : ℕ} (hi : i = v.length)
    {s : Scan} (hs : s.fmtStatus = 0) {vec es : List Entry}
    (hflush : meaning isTty level event s.flush = meaning isTty level event (vec ++ es)) :
    meaning isTty level event (initLoop pattern fuel i s).flush =
      meaning isTty level event (vec ++ (es ++ scanner.output .text b)) := by
  rw [hi, h v b s hv hfuel hs, ← List.append_assoc]
  exact meaning_congr hflush _

theorem flush_nil (vec : List Entry) (status : ℕ) : (⟨vec, [], status⟩ : Scan).flush = vec := rfl

theorem output_percent {c : Char} (h : c ≠ 'd') (rest : List Char) :
    scanner.output .percent (c :: rest) =
      [if c.isAlpha then directive c else literal c] ++ scanner.output .text rest := by
  rw [Transducer.output_cons]
  show (if c.isAlpha then [directive c] else [literal c]) ++
    scanner.output (if c = 'd' then .date else .text) rest = _
  rw [if_neg h]
  split <;> rfl

/-- Behind `%d` anything but a brace is read as text. -/
theorem output_date {rest : List Char} (h : rest.head? ≠ some openBrace) :
    scanner.output .date rest = scanner.output .text rest := by
  refine Transducer.output_congr scanner fun c hc => ?_
  have hne : c ≠ openBrace := fun heq => h (heq ▸ hc)
  simp [scanner, Mode.emit, Mode.next, hne]

theorem Scans.percent {pattern : List Char} {fuel : ℕ} (h : Scans isTty level event pattern fuel)
    {w rest : List Char} (hw : w ++ '%' :: rest = pattern) (hfuel : rest.length < fuel) (s : Scan) :
    meaning isTty level event (initLoop pattern (fuel + 1) w.length s).flush =
      meaning isTty level event (s.flush ++ scanner.output .percent rest) := by
  have hchar : charAt pattern w.length = '%' := hw ▸ charAt_append w rest '%'
  rw [initLoop, if_pos (by rw [← hw]; simp), if_pos hchar]
  cases rest with
  | nil =>
    rw [if_pos (by rw [← hw]; simp), flush_nil, Transducer.output, List.append_nil]
  | cons c rest =>
    have hsplit : (w ++ ['%']) ++ c :: rest = pattern := by
      rw [← hw, List.append_assoc, List.singleton_append]
    have hsplit' : (w ++ ['%', c]) ++ rest = pattern := by
      rw [← hw, List.append_assoc]
      rfl
    have hlen : w.length + 1 = (w ++ ['%']).length := by
      rw [List.length_append, List.length_singleton]
    have hlen' : w.length + 1 + 1 = (w ++ ['%', c]).length := by
      rw [List.length_append]
      rfl
    have hchar' : charAt pattern (w.length + 1) = c := by
      rw [← hsplit, hlen, charAt_append]
    have hfuel' : rest.length < fuel := Nat.lt_of_succ_lt hfuel
    rw [if_neg (by rw [← hw]; simp), hchar']
    by_cases hdate : c = 'd'
    · subst hdate
      have hout : scanner.output .percent ('d' :: rest) =
          [directive 'd'] ++ scanner.output .date rest := rfl
      rw [if_pos rfl, hout]
      by_cases hbrace : charAt pattern (w.length + 1 + 1) ≠ openBrace ∧
          w.length + 1 + 1 < pattern.length
      · rw [if_pos hbrace, output_date]
        · exact h.next hsplit' hfuel' hlen' rfl rfl
        · intro hhead
          cases rest with
          | nil => cases hhead
          | cons b rest =>
            refine hbrace.1 ?_
            rw [← hsplit', hlen', charAt_append]
            exact Option.some.inj hhead
      · rw [if_neg hbrace]
        have hhead : ∀ b ∈ rest.head?, b = openBrace := by
          intro b hb
          cases rest with
          | nil => cases hb
          | cons b' rest =>
            obtain rfl : b' = b := Option.some.inj hb
            by_contra hne
            refine hbrace ⟨?_, by rw [← hsplit', hlen']; simp⟩
            rw [← hsplit', hlen', charAt_append]
            exact hne
        have hlt : rest.length < pattern.length := by
          rw [← hsplit', List.length_append, ← hlen']
          omega
        obtain ⟨i, r, v, b, hrun, hi, hv, hb, hread⟩ := timeLoop_date hhead (w ++ ['%', 'd'])
          pattern.length hlen' hlt
        rw [hsplit'] at hrun hv
        have hinside : i < pattern.length := by
          rw [hv, List.length_append]
          omega
        rw [hrun, hread]
        simp only [if_pos hinside]
        exact h.next hv.symm (by omega) hi rfl (meaning_date _ r)
    · rw [if_neg hdate, output_percent hdate]
      by_cases hpercent : c = '%'
      · subst hpercent
        rw [if_pos rfl]
        exact h.next hsplit' hfuel' hlen' rfl rfl
      · rw [if_neg hpercent]
        split
        · exact h.next hsplit' hfuel' hlen' rfl rfl
        · exact h.next hsplit' hfuel' hlen' rfl rfl

theorem scans (pattern : List Char) (fuel : ℕ) : Scans isTty level event pattern fuel := by
  induction fuel with
  | zero => exact fun _ _ _ _ hfuel => absurd hfuel (Nat.not_lt_zero _)
  | succ fuel ih =>
    intro w rest s hw hfuel hs
    cases rest with
    | nil =>
      rw [initLoop, if_neg (by rw [← hw]; simp), Transducer.output, List.append_nil]
    | cons c rest =>
      by_cases hpercent : c = '%'
      · subst hpercent
        exact ih.percent hw (Nat.lt_of_succ_lt_succ hfuel) s
      · have hchar : charAt pattern w.length = c := hw ▸ charAt_append w rest c
        have hout : scanner.output .text (c :: rest) = [literal c] ++ scanner.output .text rest := by
          rw [Transducer.output_cons]
          simp [scanner, Mode.next, Mode.emit, hpercent]
        rw [initLoop, if_pos (by rw [← hw]; simp), hchar, if_neg hpercent, hout]
        exact ih.next (v := w ++ [c]) (s := { s with nstr := s.nstr ++ [c] })
          (by rw [← hw, List.append_assoc, List.singleton_append]) (Nat.lt_of_succ_lt_succ hfuel)
          (by rw [List.length_append, List.length_singleton]) hs (meaning_flush hs c)

end

theorem meaning_new (isTty : Bool) (level : LogLevel) (event : LogEvent) (pattern : List Char) :
    ((LogFormatter.new pattern).format isTty level event, (LogFormatter.new pattern).isError) =
      meaning isTty level event (scanner.output .text pattern) := by
  have hscan : Scans isTty level event pattern (pattern.length + 1) := scans pattern _
  have hscan := hscan [] pattern ⟨[], [], 0⟩ rfl (Nat.lt_succ_self _) rfl
  rw [flush_nil, List.nil_append, List.length_nil] at hscan
  rw [← hscan]
  unfold LogFormatter.new LogFormatter.format meaning
  rw [List.flatMap_map]

/-! ### Composition and quotation -/

theorem output_quoted (s : List Char) :
    scanner.output .text (quoted s) = s.map literal := by
  induction s with
  | nil => rfl
  | cons c s ih =>
    unfold quoted at ih ⊢
    rw [List.flatMap_cons, List.map_cons, ← ih]
    by_cases hpercent : c = '%'
    · subst hpercent
      rfl
    · rw [if_neg hpercent, List.singleton_append, Transducer.output_cons]
      simp [scanner, Mode.next, Mode.emit, hpercent]

theorem output_complete {p q : List Char} (h : Complete p q) :
    scanner.output .text (p ++ q) = scanner.output .text p ++ scanner.output .text q := by
  rw [Transducer.output_append]
  unfold Complete at h
  split at h
  · rename_i hstate
    rw [hstate]
  · cases h
  · rename_i hstate
    rw [hstate, output_date h]
  · cases h

theorem meaning_literals (isTty : Bool) (level : LogLevel) (event : LogEvent) (s : List Char) :
    (meaning isTty level event (s.map literal)).1 = s := by
  unfold meaning
  rw [List.flatMap_map]
  exact List.flatMap_singleton' s

theorem patterns_compose (isTty : Bool) (level : LogLevel) (event : LogEvent) :
    (∀ s, (LogFormatter.new (quoted s)).format isTty level event = s) ∧
      ∀ p q, Complete p q →
        (LogFormatter.new (p ++ q)).format isTty level event =
          (LogFormatter.new p).format isTty level event ++
            (LogFormatter.new q).format isTty level event ∧
        (LogFormatter.new (p ++ q)).isError =
          ((LogFormatter.new p).isError || (LogFormatter.new q).isError) := by
  constructor
  · intro s
    have hnew := congrArg Prod.fst (meaning_new isTty level event (quoted s))
    rw [output_quoted, meaning_literals] at hnew
    exact hnew
  · intro p q h
    have hp := meaning_new isTty level event p
    have hq := meaning_new isTty level event q
    have hpq := meaning_new isTty level event (p ++ q)
    rw [output_complete h] at hpq
    unfold meaning at hp hq hpq
    rw [Prod.mk.injEq] at hp hq hpq
    rw [hpq.1, hpq.2, hp.1, hp.2, hq.1, hq.2, List.flatMap_append, List.any_append]
    exact ⟨rfl, rfl⟩

/-- A date at the end of a pattern, and a directive that does not exist behind it. -/
theorem date_then_error :
    let event : LogEvent := ⟨"main.cc".toList, 7, 0, 1, "main".toList, 0, 0, [], "root".toList⟩
    (LogFormatter.new ("%d".toList ++ " %x".toList)).format false .info event =
        (LogFormatter.new "%d".toList).format false .info event ++
          (LogFormatter.new " %x".toList).format false .info event ∧
      (LogFormatter.new ("%d".toList ++ " %x".toList)).isError =
        ((LogFormatter.new "%d".toList).isError || (LogFormatter.new " %x".toList).isError) := by
  have hcomplete : Complete "%d".toList " %x".toList := by
    show " %x".toList.head? ≠ some openBrace
    decide
  exact (patterns_compose false .info _).2 _ _ hcomplete

end MSylar.Basic
