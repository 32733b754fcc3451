import Mathlib.Data.List.Basic
import Mathlib.Data.Option.Basic

/-!
# Executions of step functions

A system is given by a partial step function: `step s a` is the state after the
action `a`, or `none` where `a` is not enabled. `exec` runs a list of actions.
An invariant is proved for one step and carried along every run by
`exec_invariant`; where a step keeps it only under a condition on the state the
step starts from, the run has to be `Guarded` (`exec_guarded`).
-/

namespace MSylar.Execution
variable {σ α τ β : Type*}

def exec (step : σ → α → Option σ) : σ → List α → Option σ
  | s, [] => some s
  | s, a :: as => (step s a).bind fun t => exec step t as

/-- Every action of the run meets `guard` in the state it starts from. -/
def Guarded (step : σ → α → Option σ) (guard : σ → α → Prop) : σ → List α → Prop
  | _, [] => True
  | s, a :: as => guard s a ∧ ∀ t, step s a = some t → Guarded step guard t as

instance Guarded.decidable (step : σ → α → Option σ) (guard : σ → α → Prop)
    [∀ s a, Decidable (guard s a)] : ∀ s as, Decidable (Guarded step guard s as)
  | _, [] => isTrue trivial
  | s, a :: as =>
    match hs : step s a with
    | none => decidable_of_iff (guard s a) (by simp [Guarded, hs])
    | some t =>
      have := Guarded.decidable step guard t as
      decidable_of_iff (guard s a ∧ Guarded step guard t as) (by simp [Guarded, hs])

def Reachable (step : σ → α → Option σ) (init s : σ) : Prop :=
  ∃ as, exec step init as = some s

theorem exec_cons {step : σ → α → Option σ} {s t : σ} {a : α} {as : List α}
    (h : exec step s (a :: as) = some t) :
    ∃ r, step s a = some r ∧ exec step r as = some t := by
  simpa only [exec, Option.bind_eq_some_iff] using h

theorem exec_append (step : σ → α → Option σ) (s : σ) (as bs : List α) :
    exec step s (as ++ bs) = (exec step s as).bind fun t => exec step t bs := by
  induction as generalizing s with
  | nil => rfl
  | cons a as ih =>
    simp only [List.cons_append, exec]
    cases step s a with
    | none => rfl
    | some r => exact ih r

theorem exec_guarded {step : σ → α → Option σ} {guard : σ → α → Prop} {Inv : σ → Prop}
    (hstep : ∀ s a t, Inv s → guard s a → step s a = some t → Inv t) {s t : σ} {as : List α}
    (hs : Inv s) (hg : Guarded step guard s as) (h : exec step s as = some t) : Inv t := by
  induction as generalizing s with
  | nil =>
    simp only [exec, Option.some.injEq] at h
    exact h ▸ hs
  | cons a as ih =>
    obtain ⟨r, hr, ht⟩ := exec_cons h
    exact ih (hstep s a r hs hg.1 hr) (hg.2 r hr) ht

theorem Guarded.append {step : σ → α → Option σ} {guard : σ → α → Prop} {s t : σ}
    {as bs : List α} (hg : Guarded step guard s (as ++ bs)) (h : exec step s as = some t) :
    Guarded step guard s as ∧ Guarded step guard t bs := by
  induction as generalizing s with
  | nil =>
    simp only [exec, Option.some.injEq] at h
    exact ⟨trivial, h ▸ hg⟩
  | cons a as ih =>
    obtain ⟨r, hr, ht⟩ := exec_cons h
    refine ⟨⟨hg.1, fun u hu => ?_⟩, (ih (hg.2 r hr) ht).2⟩
    have heq : r = u := Option.some.inj (hr.symm.trans hu)
    exact heq ▸ (ih (hg.2 r hr) ht).1

theorem guarded_congr {step : σ → α → Option σ} {guard guard' : σ → α → Prop}
    (h : ∀ s a, guard s a ↔ guard' s a) (s : σ) (as : List α) :
    Guarded step guard s as ↔ Guarded step guard' s as := by
  induction as generalizing s with
  | nil => exact Iff.rfl
  | cons a as ih =>
    exact and_congr (h s a) (forall_congr' fun t => forall_congr' fun _ => ih t)

/-- Two guards that agree on legal steps from states of an invariant agree on legal runs. -/
theorem guarded_iff {step : σ → α → Option σ} {legal guard guard' : σ → α → Prop} {Inv : σ → Prop}
    (hiff : ∀ s a, Inv s → legal s a → (guard s a ↔ guard' s a))
    (hstep : ∀ s a t, Inv s → legal s a → guard s a → step s a = some t → Inv t) {s : σ}
    {as : List α} (hs : Inv s) (hl : Guarded step legal s as) :
    Guarded step guard s as ↔ Guarded step guard' s as := by
  induction as generalizing s with
  | nil => exact Iff.rfl
  | cons a as ih =>
    have hhead := hiff s a hs hl.1
    constructor
    · rintro ⟨hg, hrest⟩
      exact ⟨hhead.mp hg, fun t ht =>
        (ih (hstep s a t hs hl.1 hg ht) (hl.2 t ht)).mp (hrest t ht)⟩
    · rintro ⟨hg, hrest⟩
      exact ⟨hhead.mpr hg, fun t ht =>
        (ih (hstep s a t hs hl.1 (hhead.mpr hg) ht) (hl.2 t ht)).mpr (hrest t ht)⟩

/-- Where a step leads into `Bad` exactly if it starts there or breaks the guard, a run does so
exactly if one of its steps breaks the guard. -/
theorem exec_bad_iff {step : σ → α → Option σ} {guard : σ → α → Prop} {Inv Bad : σ → Prop}
    (hinv : ∀ s a t, Inv s → step s a = some t → Inv t)
    (hbad : ∀ s a t, Inv s → step s a = some t → (Bad t ↔ Bad s ∨ ¬ guard s a)) {s t : σ}
    {as : List α} (hs : Inv s) (h : exec step s as = some t) :
    Bad t ↔ Bad s ∨ ¬ Guarded step guard s as := by
  induction as generalizing s with
  | nil =>
    simp only [exec, Option.some.injEq] at h
    simp only [h, Guarded, not_true_eq_false, or_false]
  | cons a as ih =>
    obtain ⟨r, hr, ht⟩ := exec_cons h
    have hguard : Guarded step guard s (a :: as) ↔ guard s a ∧ Guarded step guard r as := by
      simp only [Guarded, hr, Option.some.injEq, forall_eq']
    rw [ih (hinv s a r hs hr) ht, hbad s a r hs hr, hguard, not_and_or, or_assoc]

/-- Where a step from a good state leads to a good state exactly if it meets the guard, all states
of a run are good exactly if all its steps meet it. -/
theorem forall_prefix_iff {step : σ → α → Option σ} {guard : σ → α → Prop} {Inv Good : σ → Prop}
    (hinv : ∀ s a t, Inv s → step s a = some t → Inv t)
    (hgood : ∀ s a t, Inv s → Good s → step s a = some t → (Good t ↔ guard s a)) {s t : σ}
    {as : List α} (hs : Inv s) (hg : Good s) (h : exec step s as = some t) :
    (∀ bs, bs <+: as → ∀ u, exec step s bs = some u → Good u) ↔ Guarded step guard s as := by
  induction as generalizing s with
  | nil =>
    refine iff_of_true (fun bs hbs u hu => ?_) trivial
    rw [List.prefix_nil.mp hbs] at hu
    cases hu
    exact hg
  | cons a as ih =>
    obtain ⟨r, hr, ht⟩ := exec_cons h
    have hexec : ∀ bs, exec step s (a :: bs) = exec step r bs := fun bs => by
      rw [exec, hr, Option.bind_some]
    constructor
    · intro hall
      have hrgood : Good r := hall [a] (List.prefix_append [a] as) r (hexec [])
      refine ⟨(hgood s a r hs hg hr).mp hrgood, fun u hu => ?_⟩
      rw [hr] at hu
      cases hu
      refine (ih (hinv s a r hs hr) hrgood ht).mp fun bs hbs u hu => ?_
      exact hall (a :: bs) ((List.prefix_cons_inj a).mpr hbs) u ((hexec bs).trans hu)
    · rintro ⟨hga, hrest⟩ bs hbs u hu
      have hrgood : Good r := (hgood s a r hs hg hr).mpr hga
      cases bs with
      | nil =>
        cases hu
        exact hg
      | cons b bs =>
        obtain ⟨rfl, hrestPrefix⟩ := List.cons_prefix_cons.mp hbs
        exact (ih (hinv s b r hs hr) hrgood ht).mpr (hrest r hr) bs hrestPrefix u
          ((hexec bs).symm.trans hu)

/-- A guard that looks at the action only holds along a run iff every action meets it. -/
theorem guarded_forall {step : σ → α → Option σ} {P : α → Prop} {s t : σ} {as : List α}
    (h : exec step s as = some t) : Guarded step (fun _ a => P a) s as ↔ ∀ a ∈ as, P a := by
  induction as generalizing s with
  | nil => simp only [Guarded, List.not_mem_nil, false_implies, implies_true]
  | cons a as ih =>
    obtain ⟨r, hr, ht⟩ := exec_cons h
    simp only [Guarded, hr, Option.some.injEq, forall_eq', ih ht, List.forall_mem_cons]

/-- Some run whose steps all meet `guard` leads from `s` to `t`. -/
def Leads (step : σ → α → Option σ) (guard : σ → α → Prop) (s t : σ) : Prop :=
  ∃ as, Guarded step guard s as ∧ exec step s as = some t

theorem Leads.refl (step : σ → α → Option σ) (guard : σ → α → Prop) (s : σ) :
    Leads step guard s s := ⟨[], trivial, rfl⟩

theorem Leads.head {step : σ → α → Option σ} {guard : σ → α → Prop} {r s t : σ} {a : α}
    (hg : guard r a) (hs : step r a = some s) (h : Leads step guard s t) :
    Leads step guard r t := by
  obtain ⟨as, has, ht⟩ := h
  refine ⟨a :: as, ⟨hg, fun u hu => ?_⟩, ?_⟩
  · rw [hs] at hu
    cases hu
    exact has
  · change (step r a).bind _ = some t
    rw [hs, Option.bind_some, ht]

theorem Leads.trans {step : σ → α → Option σ} {guard : σ → α → Prop} {r s t : σ}
    (h : Leads step guard r s) (h' : Leads step guard s t) : Leads step guard r t := by
  obtain ⟨as, hg, hs⟩ := h
  induction as generalizing r with
  | nil =>
    cases hs
    exact h'
  | cons a as ih =>
    obtain ⟨u, hu, hs⟩ := exec_cons hs
    exact .head hg.1 hu (ih (hg.2 u hu) hs)

theorem guarded_of_forall {step : σ → α → Option σ} {guard : σ → α → Prop} {as : List α}
    (h : ∀ a ∈ as, ∀ s, guard s a) (s : σ) : Guarded step guard s as := by
  induction as generalizing s with
  | nil => trivial
  | cons a as ih =>
    exact ⟨h a List.mem_cons_self s, fun t _ => ih (fun b hb => h b (List.mem_cons_of_mem a hb)) t⟩

theorem guarded_true (step : σ → α → Option σ) (s : σ) (as : List α) :
    Guarded step (fun _ _ => True) s as := guarded_of_forall (fun _ _ _ => trivial) s

theorem exec_invariant {step : σ → α → Option σ} {Inv : σ → Prop}
    (hstep : ∀ s a t, Inv s → step s a = some t → Inv t) {s t : σ} {as : List α}
    (hs : Inv s) (h : exec step s as = some t) : Inv t :=
  exec_guarded (fun s a t hi _ => hstep s a t hi) hs (guarded_true step s as) h

/-- An invariant that also speaks of the actions so far. -/
theorem exec_history {step : σ → α → Option σ} {Inv : List α → σ → Prop}
    (hstep : ∀ as s a t, Inv as s → step s a = some t → Inv (as ++ [a]) t) {s t : σ}
    {as : List α} (hs : Inv [] s) (h : exec step s as = some t) : Inv as t := by
  suffices hpre : ∀ pre, Inv pre s → Inv (pre ++ as) t from hpre [] hs
  clear hs
  induction as generalizing s with
  | nil =>
    intro pre hs
    simp only [exec, Option.some.injEq] at h
    exact (List.append_nil pre).symm ▸ h ▸ hs
  | cons a as ih =>
    intro pre hs
    obtain ⟨r, hr, ht⟩ := exec_cons h
    have hnext := ih ht (pre ++ [a]) (hstep pre s a r hs hr)
    rwa [List.append_assoc] at hnext

theorem reachable_invariant {step : σ → α → Option σ} {Inv : σ → Prop} {init s : σ}
    (hinit : Inv init) (hstep : ∀ s a t, Inv s → step s a = some t → Inv t)
    (h : Reachable step init s) : Inv s := by
  obtain ⟨as, has⟩ := h
  exact exec_invariant hstep hinit has

theorem Reachable.exec {step : σ → α → Option σ} {init s t : σ} {as : List α}
    (h : Reachable step init s) (ht : exec step s as = some t) : Reachable step init t := by
  obtain ⟨bs, hbs⟩ := h
  exact ⟨bs ++ as, by rw [exec_append, hbs, Option.bind_some, ht]⟩

theorem Reachable.trans {step : σ → α → Option σ} {r s t : σ} (h : Reachable step r s)
    (h' : Reachable step s t) : Reachable step r t := by
  obtain ⟨as, has⟩ := h'
  exact h.exec has

theorem Reachable.head {step : σ → α → Option σ} {r s t : σ} {a : α} (h : step r a = some s)
    (h' : Reachable step s t) : Reachable step r t := by
  obtain ⟨as, has⟩ := h'
  refine ⟨a :: as, ?_⟩
  change (step r a).bind _ = some t
  rw [h, Option.bind_some, has]

end MSylar.Execution
