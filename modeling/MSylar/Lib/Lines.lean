import Mathlib.Data.List.Basic
import Mathlib.Data.List.Infix

/-!
# Reading lines within a budget

A reader that takes one line after another out of a buffer, each line ended by `pat`, and stops at
the first empty line. Every search for the end of a line is charged with the bytes it passed and
`fee` more, and the reader gives up where the charges exceed `limit`; the bytes of a line that is not
complete are given back. What is read does not depend on how the bytes came into the buffer: a
reader that ran out of bytes goes on as if it had met the bytes that follow (`read_append`), except
that it has been charged once more.
-/

namespace MSylar.Lines

section Cut
variable {β : Type*} [DecidableEq β] {pat : List β}

/-- `std::search`: the text before the first occurrence of `pat` and the text behind it. -/
def cut (pat : List β) : List β → Option (List β × List β)
  | [] => if pat = [] then some ([], []) else none
  | x :: s =>
    if pat <+: x :: s then some ([], (x :: s).drop pat.length)
    else (cut pat s).map fun r => (x :: r.1, r.2)

theorem cut_eq_some {s before after : List β} (h : cut pat s = some (before, after)) :
    s = before ++ (pat ++ after) := by
  induction s generalizing before with
  | nil =>
    simp only [cut, Option.ite_none_right_eq_some, Option.some.injEq, Prod.mk.injEq] at h
    obtain ⟨rfl, rfl, rfl⟩ := h
    rfl
  | cons x s ih =>
    unfold cut at h
    split_ifs at h with hpat
    · simp only [Option.some.injEq, Prod.mk.injEq] at h
      obtain ⟨rfl, rfl⟩ := h
      exact List.prefix_iff_eq_append.mp hpat |>.symm
    · obtain ⟨⟨b, a⟩, hcut, hr⟩ := Option.map_eq_some_iff.mp h
      simp only [Prod.mk.injEq] at hr
      obtain ⟨rfl, rfl⟩ := hr
      rw [ih hcut]
      rfl

theorem cut_append {s before after : List β} (h : cut pat s = some (before, after))
    (more : List β) : cut pat (s ++ more) = some (before, after ++ more) := by
  induction s generalizing before with
  | nil =>
    simp only [cut, Option.ite_none_right_eq_some, Option.some.injEq, Prod.mk.injEq] at h
    obtain ⟨rfl, rfl, rfl⟩ := h
    cases more with
    | nil => rfl
    | cons x more => exact if_pos List.nil_prefix
  | cons x s ih =>
    unfold cut at h
    rw [List.cons_append, cut]
    split_ifs at h with hpat
    · simp only [Option.some.injEq, Prod.mk.injEq] at h
      obtain ⟨rfl, rfl⟩ := h
      have hmore : pat <+: x :: (s ++ more) := hpat.trans (List.prefix_append (x :: s) more)
      rw [if_pos hmore, ← List.cons_append, List.drop_append_of_le_length hpat.length_le]
    · obtain ⟨⟨b, a⟩, hcut, hr⟩ := Option.map_eq_some_iff.mp h
      simp only [Prod.mk.injEq] at hr
      obtain ⟨rfl, rfl⟩ := hr
      have hlen : pat.length ≤ s.length := by
        rw [cut_eq_some hcut, List.length_append, List.length_append]
        omega
      rw [if_neg, ih hcut]
      · rfl
      · intro hmore
        refine hpat (List.prefix_of_prefix_length_le hmore ?_ ?_)
        · exact (List.cons_append ▸ List.prefix_append (x :: s) more)
        · exact hlen.trans (Nat.le_succ _)

theorem cut_ne_none (before after : List β) : cut pat (before ++ (pat ++ after)) ≠ none := by
  induction before with
  | nil =>
    intro h
    cases hs : pat ++ after with
    | nil =>
      rw [List.nil_append, hs, cut, if_pos (List.append_eq_nil_iff.mp hs).1] at h
      cases h
    | cons x s =>
      rw [List.nil_append, hs, cut, if_pos (hs ▸ List.prefix_append pat after)] at h
      cases h
  | cons x before ih =>
    intro h
    rw [List.cons_append, cut] at h
    split_ifs at h
    exact ih (Option.map_eq_none_iff.mp h)

/-- Two different characters end a line that does not contain them. -/
theorem cut_pair {x y : β} (hxy : x ≠ y) {line : List β} (h : cut [x, y] line = none)
    (after : List β) : cut [x, y] (line ++ x :: y :: after) = some (line, after) := by
  induction line with
  | nil => simp [cut]
  | cons z line ih =>
    unfold cut at h
    split_ifs at h with hpat
    rw [Option.map_eq_none_iff] at h
    rw [List.cons_append, cut, ih h, if_neg]
    · rfl
    · intro hmore
      refine hpat ?_
      cases line with
      | nil =>
        have hnext := (List.cons_prefix_cons.mp hmore).2
        exact absurd (List.cons_prefix_cons.mp hnext).1.symm hxy
      | cons w line =>
        obtain ⟨hz, hnext⟩ := List.cons_prefix_cons.mp hmore
        have hw := (List.cons_prefix_cons.mp hnext).1
        rw [← hz, ← hw]
        exact ⟨line, rfl⟩

/-- Bytes that are added end a line at the earliest at the bytes that begin a separator. -/
theorem length_le_of_cut {text more line after : List β} (h : cut pat text = none)
    (hmore : cut pat (text ++ more) = some (line, after)) :
    text.length ≤ line.length + (pat.length - 1) := by
  by_contra hlong
  have hsplit := cut_eq_some hmore
  rw [← List.append_assoc] at hsplit
  have hprefix : line ++ pat <+: text := by
    refine List.prefix_of_prefix_length_le (hsplit ▸ List.prefix_append _ after)
      (List.prefix_append text more) ?_
    rw [List.length_append]
    omega
  obtain ⟨rest, rfl⟩ := hprefix
  exact cut_ne_none line rest (List.append_assoc line pat rest ▸ h)

/-- Text in which `pat` does not begin is passed. -/
theorem cut_pass {front rest : List β}
    (h : ∀ u v, front = u ++ v → v ≠ [] → ¬ pat <+: v ++ rest) :
    cut pat (front ++ rest) = (cut pat rest).map fun r => (front ++ r.1, r.2) := by
  induction front with
  | nil =>
    rw [List.nil_append]
    cases cut pat rest <;> rfl
  | cons x front ih =>
    have hhead := h [] (x :: front) rfl (List.cons_ne_nil x front)
    rw [List.cons_append] at hhead ⊢
    rw [cut, if_neg hhead, ih fun u v huv => h (x :: u) v (congrArg (x :: ·) huv), Option.map_map]
    rfl

theorem cut_of_not_mem {x : β} (hx : x ∈ pat) {s : List β} (h : x ∉ s) : cut pat s = none := by
  cases hcut : cut pat s with
  | none => rfl
  | some r =>
    obtain ⟨before, after⟩ := r
    rw [cut_eq_some hcut] at h
    simp [hx] at h

end Cut

/-- What a reader comes to: the counter, the state and the bytes behind the lines it has read. -/
inductive Read (σ ε β : Type*) where
  | outOfBytes (count : ℕ) (s : σ) (rest : List β)
  | blank (count : ℕ) (s : σ) (after : List β)
  | exceeded (count : ℕ) (s : σ)
  | failed (e : ε) (count : ℕ) (s : σ)
  deriving DecidableEq

/-- The separator, the charge for a search, the limit, and what is done with a line. -/
structure Reader (σ ε β : Type*) where
  pat : List β
  fee : ℕ
  limit : ℕ
  process : σ → List β → Option ε × σ

namespace Reader
variable {σ ε β : Type*} [DecidableEq β] (R : Reader σ ε β)

def readLines : ℕ → ℕ → σ → List β → Read σ ε β
  | 0, count, s, text => .outOfBytes count s text
  | fuel + 1, count, s, text =>
    match cut R.pat text with
    | none =>
      let count := count + (text.length + R.fee)
      if R.limit < count then .exceeded count s else .outOfBytes (count - text.length) s text
    | some (line, after) =>
      let count := count + (line.length + R.fee)
      if R.limit < count then .exceeded count s
      else if line = [] then .blank count s after
      else
        match R.process s line with
        | (some e, s) => .failed e count s
        | (none, s) => readLines fuel count s after

/-- All lines of a text. -/
def read (count : ℕ) (s : σ) (text : List β) : Read σ ε β :=
  R.readLines (text.length + 1) count s text

theorem readLines_fuel {fuel fuel' count : ℕ} {s : σ} {text : List β} (h : text.length < fuel)
    (h' : text.length < fuel') : R.readLines fuel count s text = R.readLines fuel' count s text := by
  induction fuel generalizing fuel' count s text with
  | zero => cases h
  | succ fuel ih =>
    obtain ⟨fuel', rfl⟩ := Nat.exists_eq_succ_of_ne_zero (Nat.ne_of_gt (Nat.zero_lt_of_lt h'))
    rw [readLines, readLines]
    cases hcut : cut R.pat text with
    | none => rfl
    | some r =>
      obtain ⟨line, after⟩ := r
      dsimp only
      split_ifs with hlimit hblank
      · rfl
      · rfl
      · have hpos := List.length_pos_iff.mpr hblank
        have hlen := congrArg List.length (cut_eq_some hcut)
        rw [List.length_append, List.length_append] at hlen
        rcases R.process s line with ⟨_ | e, s'⟩
        · exact ih (by omega) (by omega)
        · rfl

theorem read_none {count : ℕ} {s : σ} {text : List β} (h : cut R.pat text = none) :
    R.read count s text =
      if R.limit < count + (text.length + R.fee) then .exceeded (count + (text.length + R.fee)) s
      else .outOfBytes (count + R.fee) s text := by
  rw [read, readLines, h]
  dsimp only
  rw [show count + (text.length + R.fee) - text.length = count + R.fee by omega]

theorem read_some {count : ℕ} {s : σ} {text line after : List β}
    (h : cut R.pat text = some (line, after)) : R.read count s text =
      if R.limit < count + (line.length + R.fee) then .exceeded (count + (line.length + R.fee)) s
      else if line = [] then .blank (count + (line.length + R.fee)) s after
      else
        match R.process s line with
        | (some e, s) => .failed e (count + (line.length + R.fee)) s
        | (none, s) => R.read (count + (line.length + R.fee)) s after := by
  rw [read, readLines, h]
  dsimp only
  split_ifs with hlimit hblank
  · rfl
  · rfl
  · have hpos := List.length_pos_iff.mpr hblank
    have hlen := congrArg List.length (cut_eq_some h)
    rw [List.length_append, List.length_append] at hlen
    rcases R.process s line with ⟨_ | e, s'⟩
    · exact R.readLines_fuel (by omega) (by omega)
    · rfl

theorem read_line {count : ℕ} {s s' : σ} {text line after : List β}
    (h : cut R.pat text = some (line, after)) (hne : line ≠ [])
    (hlimit : count + (line.length + R.fee) ≤ R.limit) (hline : R.process s line = (none, s')) :
    R.read count s text = R.read (count + (line.length + R.fee)) s' after := by
  rw [R.read_some h, if_neg (not_lt.mpr hlimit), if_neg hne, hline]

theorem read_blank {count : ℕ} {text after : List β} (h : cut R.pat text = some ([], after))
    (hlimit : count + R.fee ≤ R.limit) (s : σ) :
    R.read count s text = .blank (count + R.fee) s after := by
  have hlimit' : ¬ R.limit < count + (([] : List β).length + R.fee) := by
    rw [List.length_nil, Nat.zero_add]
    exact not_lt.mpr hlimit
  rw [R.read_some h, if_neg hlimit', if_pos rfl, List.length_nil, Nat.zero_add]

end Reader

/-! ### Counters -/

namespace Read
variable {σ ε β : Type*}

/-- The same result for a counter that is higher by `d`. -/
def add (d : ℕ) : Read σ ε β → Read σ ε β
  | outOfBytes count s rest => outOfBytes (count + d) s rest
  | blank count s after => blank (count + d) s after
  | exceeded count s => exceeded (count + d) s
  | failed e count s => failed e (count + d) s

/-- The counter when it was last compared with the limit. -/
def charged : Read σ ε β → ℕ
  | outOfBytes count _ rest => count + rest.length
  | blank count _ _ => count
  | exceeded count _ => count
  | failed _ count _ => count

def count : Read σ ε β → ℕ
  | outOfBytes count _ _ => count
  | blank count _ _ => count
  | exceeded count _ => count
  | failed _ count _ => count

def state : Read σ ε β → σ
  | outOfBytes _ s _ => s
  | blank _ s _ => s
  | exceeded _ s => s
  | failed _ _ s => s

def map (f : σ → σ) : Read σ ε β → Read σ ε β
  | outOfBytes count s rest => outOfBytes count (f s) rest
  | blank count s after => blank count (f s) after
  | exceeded count s => exceeded count (f s)
  | failed e count s => failed e count (f s)

def Exceeded : Read σ ε β → Prop
  | exceeded _ _ => True
  | _ => False

theorem charged_map (f : σ → σ) (r : Read σ ε β) : (r.map f).charged = r.charged := by
  cases r <;> rfl

instance : (r : Read σ ε β) → Decidable r.Exceeded
  | outOfBytes _ _ _ => isFalse id
  | blank _ _ _ => isFalse id
  | exceeded _ _ => isTrue trivial
  | failed _ _ _ => isFalse id

end Read

namespace Reader
variable {σ ε β : Type*} [DecidableEq β] (R : Reader σ ε β)

theorem cut_induction (pat : List β) {motive : List β → Prop}
    (h : ∀ text, (∀ line after, cut pat text = some (line, after) → line ≠ [] → motive after) →
      motive text) (text : List β) : motive text := by
  induction hn : text.length using Nat.strong_induction_on generalizing text with
  | _ n ih =>
    refine h text fun line after hcut hne => ih after.length ?_ after rfl
    have hpos := List.length_pos_iff.mpr hne
    have hlen := congrArg List.length (cut_eq_some hcut)
    rw [List.length_append, List.length_append] at hlen
    omega

/-- What every line keeps, whatever the counter is raised to, a reader keeps. -/
theorem read_keeps {I : ℕ → σ → Prop} (hraise : ∀ count d s, I count s → I (count + d) s)
    (hline : ∀ count s line, I count s → I (count + (line.length + R.fee)) (R.process s line).2)
    {count : ℕ} {s : σ} (hs : I count s) (text : List β) :
    I (R.read count s text).count (R.read count s text).state := by
  induction text using cut_induction R.pat generalizing count s with
  | h text ih =>
    cases hcut : cut R.pat text with
    | none =>
      rw [R.read_none hcut]
      split_ifs <;> exact hraise _ _ _ hs
    | some r =>
      obtain ⟨line, after⟩ := r
      rw [R.read_some hcut]
      split_ifs with hlimit hblank
      · exact hraise _ _ _ hs
      · exact hraise _ _ _ hs
      · have hkept := hline count s line hs
        rcases hprocess : R.process s line with ⟨_ | e, s'⟩
        · rw [hprocess] at hkept
          exact ih line after hcut hblank hkept
        · rw [hprocess] at hkept
          exact hkept

/-- A change of the state that no line notices. -/
theorem read_map {f : σ → σ} (hf : ∀ s line, R.process (f s) line =
    ((R.process s line).1, f (R.process s line).2)) (count : ℕ) (s : σ) (text : List β) :
    R.read count (f s) text = (R.read count s text).map f := by
  induction text using cut_induction R.pat generalizing count s with
  | h text ih =>
    cases hcut : cut R.pat text with
    | none =>
      rw [R.read_none hcut, R.read_none hcut]
      split_ifs <;> rfl
    | some r =>
      obtain ⟨line, after⟩ := r
      rw [R.read_some hcut, R.read_some hcut]
      split_ifs with hlimit hblank
      · rfl
      · rfl
      · rw [hf]
        rcases R.process s line with ⟨_ | e, s'⟩
        · exact ih line after hcut hblank _ s'
        · rfl

/-- The bytes behind the blank line are the end of the text. -/
theorem blank_suffix {count count' : ℕ} {s s' : σ} {text after : List β}
    (h : R.read count s text = .blank count' s' after) : R.pat ++ after <:+ text := by
  induction text using cut_induction R.pat generalizing count s with
  | h text ih =>
    cases hcut : cut R.pat text with
    | none =>
      rw [R.read_none hcut] at h
      split_ifs at h
    | some r =>
      obtain ⟨line, behind⟩ := r
      have hsplit := cut_eq_some hcut
      rw [R.read_some hcut] at h
      split_ifs at h with hlimit hblank
      · cases h
        exact ⟨line, hsplit.symm⟩
      · rcases hprocess : R.process s line with ⟨_ | e, s''⟩
        · rw [hprocess] at h
          refine (ih line behind hcut hblank h).trans ⟨line ++ R.pat, ?_⟩
          rw [List.append_assoc]
          exact hsplit.symm
        · rw [hprocess] at h
          cases h

theorem le_charged (count : ℕ) (s : σ) (text : List β) : count ≤ (R.read count s text).charged := by
  induction text using cut_induction R.pat generalizing count s with
  | h text ih =>
    cases hcut : cut R.pat text with
    | none =>
      rw [R.read_none hcut]
      split_ifs
      · exact Nat.le_add_right _ _
      · exact (Nat.le_add_right _ _).trans (Nat.le_add_right _ _)
    | some r =>
      obtain ⟨line, after⟩ := r
      rw [R.read_some hcut]
      split_ifs with hlimit hblank
      · exact Nat.le_add_right _ _
      · exact Nat.le_add_right _ _
      · rcases R.process s line with ⟨_ | e, s'⟩
        · exact (Nat.le_add_right _ _).trans (ih line after hcut hblank _ s')
        · exact Nat.le_add_right _ _

theorem exceeded_iff (count : ℕ) (s : σ) (text : List β) :
    (R.read count s text).Exceeded ↔ R.limit < (R.read count s text).charged := by
  induction text using cut_induction R.pat generalizing count s with
  | h text ih =>
    cases hcut : cut R.pat text with
    | none =>
      rw [R.read_none hcut]
      split_ifs with hlimit
      · exact iff_of_true trivial hlimit
      · refine iff_of_false id ?_
        rw [Read.charged]
        omega
    | some r =>
      obtain ⟨line, after⟩ := r
      rw [R.read_some hcut]
      split_ifs with hlimit hblank
      · exact iff_of_true trivial hlimit
      · exact iff_of_false id hlimit
      · rcases R.process s line with ⟨_ | e, s'⟩
        · exact ih line after hcut hblank _ s'
        · exact iff_of_false id hlimit

theorem charged_add_le (count d : ℕ) (s : σ) (text : List β) :
    (R.read (count + d) s text).charged ≤ (R.read count s text).charged + d := by
  induction text using cut_induction R.pat generalizing count s with
  | h text ih =>
    cases hcut : cut R.pat text with
    | none =>
      rw [R.read_none hcut, R.read_none hcut]
      split_ifs <;> simp only [Read.charged] <;> omega
    | some r =>
      obtain ⟨line, after⟩ := r
      rw [R.read_some hcut, R.read_some hcut, Nat.add_right_comm]
      by_cases hless : R.limit < count + (line.length + R.fee)
      · rw [if_pos (Nat.lt_add_right d hless), if_pos hless]
        exact le_rfl
      · rw [if_neg hless]
        by_cases hblank : line = []
        · rw [if_pos hblank, if_pos hblank]
          split_ifs <;> exact le_rfl
        · rw [if_neg hblank, if_neg hblank]
          rcases R.process s line with ⟨_ | e, s'⟩
          · split_ifs
            · exact Nat.add_le_add_right (R.le_charged _ s' after) d
            · exact ih line after hcut hblank _ s'
          · split_ifs <;> exact le_rfl

/-- More bytes cost more, except for those of the separator. -/
theorem charged_append_le (count : ℕ) (s : σ) (text more : List β) :
    (R.read count s text).charged ≤
      (R.read count s (text ++ more)).charged + (R.pat.length - 1) := by
  induction text using cut_induction R.pat generalizing count s with
  | h text ih =>
    cases hcut : cut R.pat text with
    | none =>
      have hcharged : (R.read count s text).charged = count + (text.length + R.fee) := by
        rw [R.read_none hcut]
        split_ifs
        · rfl
        · rw [Read.charged, Nat.add_assoc, Nat.add_comm R.fee]
      rw [hcharged]
      cases hcut' : cut R.pat (text ++ more) with
      | none =>
        rw [R.read_none hcut']
        split_ifs <;> simp only [Read.charged, List.length_append] <;> omega
      | some r =>
        obtain ⟨line, after⟩ := r
        have hline := length_le_of_cut hcut hcut'
        have hle : count + (line.length + R.fee) ≤ (R.read count s (text ++ more)).charged := by
          rw [R.read_some hcut']
          split_ifs
          · exact le_rfl
          · exact le_rfl
          · rcases R.process s line with ⟨_ | e, s'⟩
            · exact R.le_charged _ s' after
            · exact le_rfl
        omega
    | some r =>
      obtain ⟨line, after⟩ := r
      rw [R.read_some hcut, R.read_some (cut_append hcut more)]
      split_ifs with hlimit hblank
      · exact Nat.le_add_right _ _
      · exact Nat.le_add_right _ _
      · rcases R.process s line with ⟨_ | e, s'⟩
        · exact ih line after hcut hblank _ s'
        · exact Nat.le_add_right _ _

/-- A higher counter changes nothing but the counter, unless the limit is exceeded. -/
theorem read_add (count d : ℕ) (s : σ) (text : List β) :
    (R.read (count + d) s text).Exceeded ∨
      ¬ (R.read count s text).Exceeded ∧ R.read (count + d) s text = (R.read count s text).add d := by
  induction text using cut_induction R.pat generalizing count s with
  | h text ih =>
    cases hcut : cut R.pat text with
    | none =>
      rw [R.read_none hcut, R.read_none hcut]
      by_cases hlimit : R.limit < count + d + (text.length + R.fee)
      · rw [if_pos hlimit]
        exact .inl trivial
      · rw [if_neg hlimit, if_neg (by omega), Nat.add_right_comm]
        exact .inr ⟨id, rfl⟩
    | some r =>
      obtain ⟨line, after⟩ := r
      rw [R.read_some hcut, R.read_some hcut]
      by_cases hlimit : R.limit < count + d + (line.length + R.fee)
      · rw [if_pos hlimit]
        exact .inl trivial
      · have hless : ¬ R.limit < count + (line.length + R.fee) := by omega
        rw [if_neg hlimit, if_neg hless, Nat.add_right_comm]
        by_cases hblank : line = []
        · rw [if_pos hblank, if_pos hblank]
          exact .inr ⟨id, rfl⟩
        · rw [if_neg hblank, if_neg hblank]
          rcases R.process s line with ⟨_ | e, s'⟩
          · exact ih line after hcut hblank _ s'
          · exact .inr ⟨id, rfl⟩

/-- A reader that ran out of bytes goes on with what it left in the buffer. -/
theorem read_append {count count' : ℕ} {s s' : σ} {text rest : List β}
    (h : R.read count s text = .outOfBytes count' s' rest) (more : List β) :
    ∃ c, count' = c + R.fee ∧ R.read count s (text ++ more) = R.read c s' (rest ++ more) := by
  induction text using cut_induction R.pat generalizing count s with
  | h text ih =>
    cases hcut : cut R.pat text with
    | none =>
      rw [R.read_none hcut] at h
      split_ifs at h
      cases h
      exact ⟨count, rfl, rfl⟩
    | some r =>
      obtain ⟨line, after⟩ := r
      rw [R.read_some hcut] at h
      rw [R.read_some (cut_append hcut more)]
      split_ifs at h ⊢ with hlimit hblank
      rcases hprocess : R.process s line with ⟨_ | e, s''⟩
      · rw [hprocess] at h
        exact ih line after hcut hblank h
      · rw [hprocess] at h
        cases h

theorem read_append_blank {count count' : ℕ} {s s' : σ} {text after : List β}
    (h : R.read count s text = .blank count' s' after) (more : List β) :
    R.read count s (text ++ more) = .blank count' s' (after ++ more) := by
  induction text using cut_induction R.pat generalizing count s with
  | h text ih =>
    cases hcut : cut R.pat text with
    | none =>
      rw [R.read_none hcut] at h
      split_ifs at h
    | some r =>
      obtain ⟨line, behind⟩ := r
      rw [R.read_some hcut] at h
      rw [R.read_some (cut_append hcut more)]
      split_ifs at h ⊢ with hlimit hblank
      · cases h
        rfl
      · rcases hprocess : R.process s line with ⟨_ | e, s''⟩
        · rw [hprocess] at h
          exact ih line behind hcut hblank h
        · rw [hprocess] at h
          cases h

theorem read_append_failed {count count' : ℕ} {s s' : σ} {e : ε} {text : List β}
    (h : R.read count s text = .failed e count' s') (more : List β) :
    R.read count s (text ++ more) = .failed e count' s' := by
  induction text using cut_induction R.pat generalizing count s with
  | h text ih =>
    cases hcut : cut R.pat text with
    | none =>
      rw [R.read_none hcut] at h
      split_ifs at h
    | some r =>
      obtain ⟨line, behind⟩ := r
      rw [R.read_some hcut] at h
      rw [R.read_some (cut_append hcut more)]
      split_ifs at h ⊢ with hlimit hblank
      rcases hprocess : R.process s line with ⟨_ | e', s''⟩
      · rw [hprocess] at h
        exact ih line behind hcut hblank h
      · rw [hprocess] at h
        exact h

theorem read_failed {count count' : ℕ} {s s' : σ} {e : ε} {text : List β}
    (h : R.read count s text = .failed e count' s') : ∃ s line, (R.process s line).1 = some e := by
  induction text using cut_induction R.pat generalizing count s with
  | h text ih =>
    cases hcut : cut R.pat text with
    | none =>
      rw [R.read_none hcut] at h
      split_ifs at h
    | some r =>
      obtain ⟨line, behind⟩ := r
      rw [R.read_some hcut] at h
      split_ifs at h with hlimit hblank
      rcases hprocess : R.process s line with ⟨_ | e', s''⟩
      · rw [hprocess] at h
        exact ih line behind hcut hblank h
      · rw [hprocess] at h
        cases h
        exact ⟨s, line, congrArg Prod.fst hprocess⟩

/-- The bytes left in the buffer hold no complete line. -/
theorem cut_rest {count count' : ℕ} {s s' : σ} {text rest : List β}
    (h : R.read count s text = .outOfBytes count' s' rest) : cut R.pat rest = none := by
  induction text using cut_induction R.pat generalizing count s with
  | h text ih =>
    cases hcut : cut R.pat text with
    | none =>
      rw [R.read_none hcut] at h
      split_ifs at h
      cases h
      exact hcut
    | some r =>
      obtain ⟨line, after⟩ := r
      rw [R.read_some hcut] at h
      split_ifs at h with hlimit hblank
      rcases hprocess : R.process s line with ⟨_ | e, s''⟩
      · rw [hprocess] at h
        exact ih line after hcut hblank h
      · rw [hprocess] at h
        cases h

end Reader

end MSylar.Lines
