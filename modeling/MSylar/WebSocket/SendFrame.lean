import MSylar.Lib.Calls
import MSylar.Lib.Execution

/-!
# Sending frames (wsserver.cc:205-247, wsserver.hpp:174-182)

`co_sendFrame` calls of one session run concurrently. The call that takes `m_bf_state` from
READY to WAITING sends its own frame and then what the other calls have put into
`m_send_buffer` meanwhile. `β` is what `frame.make()` gives; a packet carries the number of
its call besides, so that equal frames stay apart.
-/

namespace MSylar.WebSocket
open MSylar.Calls MSylar.Execution
variable {β : Type*}

inductive BFState where
  | waiting
  | ready
  deriving DecidableEq

/-- `passed` is what `sendMessage` has been called with so far, failed or not. -/
structure Sending (β : Type*) where
  bfState : BFState
  sendBuffer : List (ℕ × β)
  passed : List (ℕ × β)

/-- Where a call of `co_sendFrame` stands; each point is followed by one atomic step. -/
inductive SendPoint (β : Type*) where
  | start
  | enqueue
  | sendOwn
  | swap
  | drain (toSend : List (ℕ × β))
  | returned (rt : ℤ)

structure SendCall (β : Type*) where
  id : ℕ
  data : β
  point : SendPoint β

def SendCall.packet (c : SendCall β) : ℕ × β := (c.id, c.data)

/-- The next step of a call; `ok` is whether `sendMessage` succeeds in it. -/
def SendCall.coSendFrame (ok : Bool) (s : Sending β) (c : SendCall β) :
    Option (Sending β × SendCall β) :=
  match c.point with
  | .start =>
    if s.bfState = .ready then
      some ({ s with bfState := .waiting }, { c with point := .sendOwn })
    else some (s, { c with point := .enqueue })
  | .enqueue =>
    some ({ s with sendBuffer := s.sendBuffer ++ [c.packet] }, { c with point := .returned 0 })
  | .sendOwn =>
    some ({ s with passed := s.passed ++ [c.packet] },
      { c with point := if ok then .swap else .returned (-1) })
  | .swap =>
    match s.sendBuffer with
    | [] => some ({ s with bfState := .ready }, { c with point := .returned 0 })
    | toSend => some ({ s with sendBuffer := [] }, { c with point := .drain toSend })
  | .drain [] => some (s, { c with point := .swap })
  -- a failed send is only logged
  | .drain (data :: toSend) =>
    some ({ s with passed := s.passed ++ [data] }, { c with point := .drain toSend })
  | .returned _ => none

abbrev Sends (β : Type*) := World (Sending β) (SendCall β)

inductive SendAction (β : Type*) where
  | enter (data : β)
  | next (i : ℕ) (ok : Bool)

def Sends.init : Sends β := ⟨⟨.ready, [], []⟩, []⟩

def Sends.step (w : Sends β) : SendAction β → Option (Sends β)
  | .enter data => some (w.enter ⟨w.calls.length, data, .start⟩)
  | .next i ok => w.advance (SendCall.coSendFrame ok) i

def SendPoint.isReturned : SendPoint β → Bool
  | .returned _ => true
  | _ => false

/-- What `co_sendFrame` promises: `w` is an earlier state of the run that has reached `w'`. -/
structure SentInOrder (w w' : Sends β) : Prop where
  buffer : (∀ c ∈ w'.calls, c.point.isReturned = true) → w'.shared.sendBuffer = []
  ready : (∀ c ∈ w'.calls, c.point.isReturned = true) → w'.shared.bfState = .ready
  once : (∀ c ∈ w'.calls, c.point.isReturned = true) → ∀ c ∈ w'.calls, c.point = .returned 0 →
    w'.shared.passed.filter (·.1 = c.id) = [c.packet]
  order : ∀ c ∈ w.calls, c.point.isReturned = true → ∀ d ∈ w'.calls, w.calls.length ≤ d.id →
    d.packet ∈ w'.shared.passed →
    ∃ l r, w'.shared.passed = l ++ r ∧ c.packet ∈ l ∧ d.packet ∉ l

/-- The call's own send succeeds, and a frame is queued only while some call is
still to empty the queue. -/
def SendPoint.safe (bf : BFState) (ok : Bool) : SendPoint β → Prop
  | .sendOwn => ok = true
  | .enqueue => bf = .waiting
  | _ => True

instance (bf : BFState) (ok : Bool) : ∀ p : SendPoint β, Decidable (p.safe bf ok)
  | .sendOwn => inferInstanceAs (Decidable (ok = true))
  | .enqueue => inferInstanceAs (Decidable (bf = .waiting))
  | .start => isTrue trivial
  | .swap => isTrue trivial
  | .drain _ => isTrue trivial
  | .returned _ => isTrue trivial

def sendGuard (w : Sends β) : SendAction β → Prop
  | .enter _ => True
  | .next i ok => ∀ c ∈ w.calls[i]?, c.point.safe w.shared.bfState ok

instance (w : Sends β) : ∀ a, Decidable (sendGuard w a)
  | .enter _ => isTrue trivial
  | .next i ok => inferInstanceAs (Decidable (∀ c ∈ w.calls[i]?, c.point.safe w.shared.bfState ok))

/-! ### The order in which frames are accepted -/

/-- The frames that a call has taken and not yet passed on. -/
def SendCall.inHand (c : SendCall β) : List (ℕ × β) :=
  match c.point with
  | .sendOwn => [c.packet]
  | .drain toSend => toSend
  | _ => []

/-- A call that has taken `m_bf_state`. -/
def SendCall.owner (c : SendCall β) : ℕ :=
  match c.point with
  | .sendOwn => 1
  | .swap => 1
  | .drain _ => 1
  | _ => 0

def SendCall.accepted (c : SendCall β) : Bool :=
  match c.point with
  | .start => false
  | .enqueue => false
  | _ => true

/-- All accepted frames: first those passed on, then those in hand, then those queued. -/
def Sends.order (w : Sends β) : List (ℕ × β) :=
  w.shared.passed ++ w.calls.flatMap SendCall.inHand ++ w.shared.sendBuffer

def BFState.owners : BFState → ℕ
  | .waiting => 1
  | .ready => 0

structure Sends.Inv (w : Sends β) : Prop where
  ids : ∀ i (c : SendCall β), w.calls[i]? = some c → c.id = i
  owner : (w.calls.map SendCall.owner).sum = w.shared.bfState.owners
  ready : w.shared.bfState = .ready → w.shared.sendBuffer = []
  once : ∀ i (c : SendCall β), w.calls[i]? = some c →
    w.order.filter (·.1 = i) = if c.accepted then [c.packet] else []
  known : ∀ p ∈ w.order, p.1 < w.calls.length

/-- What a step of `co_sendFrame` can do. -/
inductive SendCall.Next (ok : Bool) (s : Sending β) (packet : ℕ × β) :
    SendPoint β → Sending β → SendPoint β → Prop where
  | take (hready : s.bfState = .ready) :
    Next ok s packet .start { s with bfState := .waiting } .sendOwn
  | wait : Next ok s packet .start s .enqueue
  | enqueue :
    Next ok s packet .enqueue { s with sendBuffer := s.sendBuffer ++ [packet] } (.returned 0)
  | sent (hok : ok = true) :
    Next ok s packet .sendOwn { s with passed := s.passed ++ [packet] } .swap
  | failed (hok : ok = false) :
    Next ok s packet .sendOwn { s with passed := s.passed ++ [packet] } (.returned (-1))
  | release (hempty : s.sendBuffer = []) :
    Next ok s packet .swap { s with bfState := .ready } (.returned 0)
  | swap (hqueued : s.sendBuffer ≠ []) :
    Next ok s packet .swap { s with sendBuffer := [] } (.drain s.sendBuffer)
  | drained : Next ok s packet (.drain []) s .swap
  | drain (data : ℕ × β) (toSend : List (ℕ × β)) :
    Next ok s packet (.drain (data :: toSend)) { s with passed := s.passed ++ [data] }
      (.drain toSend)

theorem SendCall.next_of_coSendFrame {ok : Bool} {s s' : Sending β} {c c' : SendCall β}
    (h : c.coSendFrame ok s = some (s', c')) :
    ∃ q, c' = { c with point := q } ∧ SendCall.Next ok s c.packet c.point s' q := by
  obtain ⟨number, data, point⟩ := c
  unfold SendCall.coSendFrame at h
  cases point with
  | start =>
    dsimp only at h
    split at h
    · cases h
      exact ⟨_, rfl, .take ‹_›⟩
    · cases h
      exact ⟨_, rfl, .wait⟩
  | enqueue =>
    cases h
    exact ⟨_, rfl, .enqueue⟩
  | sendOwn =>
    cases ok with
    | true =>
      cases h
      exact ⟨_, rfl, .sent rfl⟩
    | false =>
      cases h
      exact ⟨_, rfl, .failed rfl⟩
  | swap =>
    dsimp only at h
    split at h
    · cases h
      exact ⟨_, rfl, .release ‹_›⟩
    · rename_i hqueued
      cases h
      exact ⟨_, rfl, .swap hqueued⟩
  | drain toSend =>
    cases toSend with
    | nil =>
      cases h
      exact ⟨_, rfl, .drained⟩
    | cons p toSend =>
      cases h
      exact ⟨_, rfl, .drain p toSend⟩
  | returned rt => cases h

theorem SendCall.inHand_nil {c : SendCall β} (h : c.owner = 0) : c.inHand = [] := by
  unfold SendCall.owner at h
  unfold SendCall.inHand
  split at h <;> simp_all

theorem inHand_nil_of_sum {l : List (SendCall β)} (h : (l.map SendCall.owner).sum = 0) :
    l.flatMap SendCall.inHand = [] := by
  rw [List.flatMap_eq_nil_iff]
  intro c hc
  exact c.inHand_nil (List.sum_eq_zero_iff_forall_eq_nat.mp h _ (List.mem_map_of_mem hc))

/-- Where only call `i` can own the state, nobody else has anything in hand. -/
theorem Sends.Inv.flatMap_inHand {w : Sends β} (h : w.Inv) {i : ℕ} {c : SendCall β}
    (hc : w.calls[i]? = some c) (howner : c.owner = w.shared.bfState.owners) :
    w.calls.flatMap SendCall.inHand = c.inHand ∧
      ∀ c', (w.calls.set i c').flatMap SendCall.inHand = c'.inHand := by
  obtain ⟨a, b, hl, hset⟩ := set_split hc
  have hsum := h.owner
  rw [hl, List.map_append, List.map_cons, List.sum_append, List.sum_cons] at hsum
  have ha : a.flatMap SendCall.inHand = [] := inHand_nil_of_sum (by omega)
  have hb : b.flatMap SendCall.inHand = [] := inHand_nil_of_sum (by omega)
  refine ⟨?_, fun c' => ?_⟩
  · rw [hl, List.flatMap_append, List.flatMap_cons, ha, hb, List.nil_append, List.append_nil]
  · rw [hset, List.flatMap_append, List.flatMap_cons, ha, hb, List.nil_append, List.append_nil]

theorem flatMap_inHand_set {l : List (SendCall β)} {i : ℕ} {c c' : SendCall β}
    (hc : l[i]? = some c) (h : c'.inHand = c.inHand) :
    (l.set i c').flatMap SendCall.inHand = l.flatMap SendCall.inHand := by
  obtain ⟨a, b, hl, hset⟩ := set_split hc
  rw [hset, hl, List.flatMap_append, List.flatMap_append, List.flatMap_cons, List.flatMap_cons, h]

theorem Sends.Inv.owner_waiting {w : Sends β} (h : w.Inv) {i : ℕ} {c : SendCall β}
    (hc : w.calls[i]? = some c) (howner : c.owner = 1) : w.shared.bfState = .waiting := by
  obtain ⟨a, b, hl, -⟩ := set_split hc
  have hsum := h.owner
  rw [hl, List.map_append, List.map_cons, List.sum_append, List.sum_cons, howner] at hsum
  cases hbf : w.shared.bfState with
  | waiting => rfl
  | ready =>
    rw [hbf] at hsum
    simp only [BFState.owners] at hsum
    omega

theorem Sends.Inv.advance {w : Sends β} (h : w.Inv) {i : ℕ} {c : SendCall β} {s : Sending β}
    {q : SendPoint β} (hc : w.calls[i]? = some c)
    (howner : SendCall.owner { c with point := q } + w.shared.bfState.owners =
      c.owner + s.bfState.owners)
    (hready : s.bfState = .ready → s.sendBuffer = [])
    (hacc : c.accepted = true → SendCall.accepted { c with point := q } = true)
    (horder : Sends.order ⟨s, w.calls.set i { c with point := q }⟩ = w.order ++
      if c.accepted = SendCall.accepted { c with point := q } then [] else [c.packet]) :
    Sends.Inv ⟨s, w.calls.set i { c with point := q }⟩ ∧
      w.order <+: Sends.order ⟨s, w.calls.set i { c with point := q }⟩ := by
  refine ⟨?_, horder ▸ List.prefix_append _ _⟩
  have hid := h.ids i c hc
  have hcases : ∀ j d, (w.calls.set i { c with point := q })[j]? = some d →
      j = i ∧ d = { c with point := q } ∨ j ≠ i ∧ w.calls[j]? = some d := by
    intro j d hj
    rw [List.getElem?_set] at hj
    split at hj
    · split at hj
      · cases hj
        exact .inl ⟨‹i = j›.symm, rfl⟩
      · cases hj
    · exact .inr ⟨fun heq => ‹¬ i = j› heq.symm, hj⟩
  refine ⟨?_, ?_, hready, ?_, ?_⟩
  · intro j d hj
    rcases hcases j d hj with ⟨rfl, rfl⟩ | ⟨-, hj⟩
    · exact hid
    · exact h.ids j d hj
  · have hsum := sum_set SendCall.owner hc { c with point := q }
    have hw := h.owner
    dsimp only
    omega
  · intro j d hj
    rw [horder, List.filter_append]
    rcases hcases j d hj with ⟨rfl, rfl⟩ | ⟨hne, hj⟩
    · have hpacket : SendCall.packet { c with point := q } = c.packet := rfl
      rw [h.once j c hc, hpacket]
      cases hold : c.accepted with
      | true => simp [hacc hold]
      | false =>
        cases SendCall.accepted { c with point := q } with
        | false => simp
        | true => simp [SendCall.packet, hid]
    · rw [h.once j d hj]
      have hnil : (if c.accepted = SendCall.accepted { c with point := q } then []
          else [c.packet]).filter (·.1 = j) = [] := by
        split
        · rfl
        · simp [SendCall.packet, hid, Ne.symm hne]
      rw [hnil, List.append_nil]
  · intro p hp
    rw [horder] at hp
    dsimp only
    rw [List.length_set]
    rcases List.mem_append.mp hp with hp | hp
    · exact h.known p hp
    · split at hp
      · cases hp
      · rw [List.mem_singleton.mp hp]
        have := (List.getElem?_eq_some_iff.mp hc).1
        simpa only [SendCall.packet, hid] using this

theorem Sends.Inv.run {w : Sends β} (h : w.Inv) {i : ℕ} {ok : Bool} {c c' : SendCall β}
    {s : Sending β} (hc : w.calls[i]? = some c) (hsafe : c.point.safe w.shared.bfState ok)
    (hrun : c.coSendFrame ok w.shared = some (s, c')) :
    Sends.Inv ⟨s, w.calls.set i c'⟩ ∧ w.order <+: Sends.order ⟨s, w.calls.set i c'⟩ := by
  obtain ⟨q, rfl, hnext⟩ := SendCall.next_of_coSendFrame hrun
  obtain ⟨number, data, point⟩ := c
  have hmine : SendCall.owner ⟨number, data, point⟩ = 1 → w.shared.bfState = .waiting ∧
      w.calls.flatMap SendCall.inHand = SendCall.inHand ⟨number, data, point⟩ ∧
      (w.calls.set i ⟨number, data, q⟩).flatMap SendCall.inHand =
        SendCall.inHand ⟨number, data, q⟩ := by
    intro howner
    have hwait := h.owner_waiting hc howner
    obtain ⟨hold, hnew⟩ := h.flatMap_inHand hc (by rw [howner, hwait]; rfl)
    exact ⟨hwait, hold, hnew _⟩
  have hsame : SendCall.inHand ⟨number, data, q⟩ = SendCall.inHand ⟨number, data, point⟩ →
      (w.calls.set i ⟨number, data, q⟩).flatMap SendCall.inHand =
        w.calls.flatMap SendCall.inHand := flatMap_inHand_set hc
  dsimp only at hnext hsafe
  cases hnext with
  | take hready =>
    obtain ⟨hold, hnew⟩ := h.flatMap_inHand hc (by rw [hready]; rfl)
    refine h.advance hc (by rw [hready]; rfl) (fun hr => ?_) (fun hacc => ?_) ?_
    · cases hr
    · cases hacc
    · simp only [Sends.order, hold, hnew, h.ready hready]
      simp [SendCall.inHand, SendCall.accepted, SendCall.packet]
  | wait =>
    refine h.advance hc rfl h.ready (fun hacc => ?_) ?_
    · cases hacc
    · simp only [Sends.order, hsame rfl]
      simp [SendCall.accepted]
  | enqueue =>
    have hwait : w.shared.bfState = .waiting := hsafe
    refine h.advance hc rfl (fun hr => ?_) (fun hacc => ?_) ?_
    · rw [hwait] at hr
      cases hr
    · cases hacc
    · simp only [Sends.order, hsame rfl]
      simp [SendCall.accepted]
  | sent =>
    obtain ⟨_, hold, hnew⟩ := hmine rfl
    refine h.advance hc rfl h.ready (fun _ => rfl) ?_
    simp only [Sends.order, hold, hnew]
    simp [SendCall.inHand, SendCall.accepted]
  | failed hok => cases hok.symm.trans hsafe
  | release hempty =>
    obtain ⟨hwait, hold, hnew⟩ := hmine rfl
    refine h.advance hc (by rw [hwait]; rfl) (fun _ => hempty) (fun _ => rfl) ?_
    simp only [Sends.order, hold, hnew]
    simp [SendCall.inHand, SendCall.accepted]
  | swap =>
    obtain ⟨_, hold, hnew⟩ := hmine rfl
    refine h.advance hc rfl (fun _ => rfl) (fun _ => rfl) ?_
    simp only [Sends.order, hold, hnew]
    simp [SendCall.inHand, SendCall.accepted]
  | drained =>
    obtain ⟨_, hold, hnew⟩ := hmine rfl
    refine h.advance hc rfl h.ready (fun _ => rfl) ?_
    simp only [Sends.order, hold, hnew]
    simp [SendCall.inHand, SendCall.accepted]
  | drain p toSend =>
    obtain ⟨_, hold, hnew⟩ := hmine rfl
    refine h.advance hc rfl h.ready (fun _ => rfl) ?_
    simp only [Sends.order, hold, hnew]
    simp [SendCall.inHand, SendCall.accepted]

theorem Sends.Inv.enter {w : Sends β} (h : w.Inv) (data : β) :
    Sends.Inv (w.enter ⟨w.calls.length, data, .start⟩) ∧
      Sends.order (w.enter ⟨w.calls.length, data, .start⟩) = w.order := by
  have horder : Sends.order (w.enter ⟨w.calls.length, data, .start⟩) = w.order := by
    simp [Sends.order, World.enter, SendCall.inHand]
  have hcases : ∀ j d, (w.enter ⟨w.calls.length, data, .start⟩).calls[j]? = some d →
      w.calls[j]? = some d ∨ j = w.calls.length ∧ d = ⟨w.calls.length, data, .start⟩ := by
    intro j d hj
    rw [World.enter, List.getElem?_append] at hj
    split at hj
    · exact .inl hj
    · obtain ⟨hlt, hd⟩ := List.getElem?_eq_some_iff.mp hj
      simp only [List.length_singleton, List.getElem_singleton] at hlt hd
      exact .inr ⟨by omega, hd.symm⟩
  refine ⟨⟨?_, ?_, h.ready, ?_, ?_⟩, horder⟩
  · intro j d hj
    rcases hcases j d hj with hj | ⟨rfl, rfl⟩
    · exact h.ids j d hj
    · rfl
  · rw [World.enter, sum_enter, h.owner]
    rfl
  · intro j d hj
    rw [horder]
    rcases hcases j d hj with hj | ⟨rfl, rfl⟩
    · exact h.once j d hj
    · rw [SendCall.accepted, if_neg Bool.false_ne_true, List.filter_eq_nil_iff]
      intro p hp
      have := h.known p hp
      simp only [decide_eq_true_eq]
      omega
  · intro p hp
    rw [horder] at hp
    have := h.known p hp
    rw [World.enter, List.length_append]
    omega

theorem Sends.step_inv {w w' : Sends β} {a : SendAction β} (h : w.Inv) (hg : sendGuard w a)
    (hs : w.step a = some w') : w'.Inv ∧ w.order <+: w'.order := by
  cases a with
  | enter data =>
    cases hs
    obtain ⟨hinv, horder⟩ := h.enter data
    exact ⟨hinv, horder ▸ List.prefix_refl _⟩
  | next i ok =>
    obtain ⟨c, s, c', hc, hrun, rfl⟩ := advance_cases hs
    exact h.run hc (hg c hc) hrun

theorem Sends.init_inv : Sends.Inv (Sends.init : Sends β) := by
  refine ⟨?_, rfl, fun _ => rfl, ?_, ?_⟩
  · intro i c h
    cases h
  · intro i c h
    cases h
  · intro p h
    cases h

/-- Along a guarded run the order only grows at its end. -/
theorem Sends.run_inv {w w' : Sends β} {as : List (SendAction β)} (h : w.Inv)
    (hg : Guarded Sends.step sendGuard w as) (hw : exec Sends.step w as = some w') :
    w'.Inv ∧ w.order <+: w'.order := by
  refine @exec_guarded _ _ Sends.step sendGuard (fun v => v.Inv ∧ w.order <+: v.order) ?_ w w' as
    ⟨h, List.prefix_refl _⟩ hg hw
  rintro s a t ⟨hs, hpre⟩ hga hst
  obtain ⟨ht, hpre'⟩ := Sends.step_inv hs hga hst
  exact ⟨ht, hpre.trans hpre'⟩

theorem Sends.Inv.quiet {w : Sends β} (h : w.Inv)
    (hq : ∀ c ∈ w.calls, c.point.isReturned = true) :
    w.shared.bfState = .ready ∧ w.shared.sendBuffer = [] ∧ w.order = w.shared.passed := by
  have hzero : ∀ n ∈ w.calls.map SendCall.owner, n = 0 := by
    intro n hn
    obtain ⟨c, hc, rfl⟩ := List.mem_map.mp hn
    have hret := hq c hc
    unfold SendPoint.isReturned at hret
    unfold SendCall.owner
    split at hret
    · rename_i heq
      rw [heq]
    · cases hret
  have hsum : (w.calls.map SendCall.owner).sum = 0 := List.sum_eq_zero_iff_forall_eq_nat.mpr hzero
  have hready : w.shared.bfState = .ready := by
    have howner := h.owner
    rw [hsum] at howner
    cases hbf : w.shared.bfState with
    | ready => rfl
    | waiting =>
      rw [hbf] at howner
      cases howner
  refine ⟨hready, h.ready hready, ?_⟩
  rw [Sends.order, inHand_nil_of_sum hsum, h.ready hready, List.append_nil, List.append_nil]

theorem SendCall.accepted_of_returned {c : SendCall β} (h : c.point.isReturned = true) :
    c.accepted = true := by
  unfold SendPoint.isReturned at h
  unfold SendCall.accepted
  split at h
  · rename_i heq
    rw [heq]
  · cases h

/-- In a run whose own sends all succeed and whose frames are queued while the queue has an
owner, no frame is lost, stranded or overtaken. -/
theorem co_sendFrame_in_order (as bs : List (SendAction β)) (w w' : Sends β)
    (hg : Guarded Sends.step sendGuard Sends.init (as ++ bs))
    (hw : exec Sends.step Sends.init as = some w) (hw' : exec Sends.step w bs = some w') :
    SentInOrder w w' := by
  obtain ⟨hga, hgb⟩ := hg.append hw
  have hinv := (Sends.run_inv Sends.init_inv hga hw).1
  obtain ⟨hinv', hgrow⟩ := Sends.run_inv hinv hgb hw'
  refine ⟨fun hq => (hinv'.quiet hq).2.1, fun hq => (hinv'.quiet hq).1, ?_, ?_⟩
  · intro hq c hc hret
    obtain ⟨i, hi⟩ := List.mem_iff_getElem?.mp hc
    have honce := hinv'.once i c hi
    rw [(hinv'.quiet hq).2.2, c.accepted_of_returned (by rw [hret]; rfl), if_pos rfl] at honce
    rw [hinv'.ids i c hi, honce]
  · intro c hc hret d hd hlater hpassed
    have hin : c.packet ∈ w.order := by
      obtain ⟨i, hi⟩ := List.mem_iff_getElem?.mp hc
      have honce := hinv.once i c hi
      rw [c.accepted_of_returned hret, if_pos rfl] at honce
      exact (List.mem_filter.mp (honce ▸ List.mem_singleton_self _)).1
    have hout : d.packet ∉ w.order := by
      intro hmem
      have hlt : d.id < w.calls.length := hinv.known _ hmem
      omega
    have hpre : w'.shared.passed <+: w'.order := by
      rw [Sends.order, List.append_assoc]
      exact List.prefix_append _ _
    rcases List.prefix_or_prefix_of_prefix hpre hgrow with hshort | ⟨r, hlong⟩
    · exact absurd (hshort.subset hpassed) hout
    · exact ⟨w.order, r, hlong.symm, hin, hout⟩

/-- Call 1 queues its frame while call 0 owns the state. -/
def queueBehind : List (SendAction Char) :=
  [.enter 'a', .next 0 true, .enter 'b', .next 1 true, .next 1 true]

/-- Call 2 does the same, and call 0 sends all three; the second send fails. -/
def drainBoth : List (SendAction Char) :=
  [.enter 'c', .next 0 true, .next 2 true, .next 2 true, .next 0 true, .next 0 false, .next 0 true,
    .next 0 true, .next 0 true]

theorem queued_frames_sent_in_order :
    ∃ w w' : Sends Char, exec Sends.step Sends.init queueBehind = some w ∧
      exec Sends.step w drainBoth = some w' ∧
      w'.shared.passed = [(0, 'a'), (1, 'b'), (2, 'c')] ∧ SentInOrder w w' :=
  ⟨_, _, rfl, rfl, rfl, co_sendFrame_in_order queueBehind drainBoth _ _ (by decide) rfl rfl⟩

/-- The own send of call 0 fails; `m_bf_state` stays WAITING and call 1 only queues. -/
def failedOwnSend : List (SendAction Char) :=
  [.enter 'a', .next 0 true, .next 0 false, .enter 'b', .next 1 true, .next 1 true]

/-- Call 1 loses the exchange to call 0 and queues its frame after call 0 has found the queue
empty. -/
def lateEnqueue : List (SendAction Char) :=
  [.enter 'a', .next 0 true, .enter 'b', .next 1 true, .next 0 true, .next 0 true, .next 1 true]

def stranded : Sends Char :=
  ⟨⟨.ready, [(1, 'b')], [(0, 'a')]⟩, [⟨0, 'a', .returned 0⟩, ⟨1, 'b', .returned 0⟩]⟩

/-- A third call starts then and passes its own frame on first. -/
def overtaken : Sends Char :=
  ⟨⟨.waiting, [(1, 'b')], [(0, 'a'), (2, 'c')]⟩,
    [⟨0, 'a', .returned 0⟩, ⟨1, 'b', .returned 0⟩, ⟨2, 'c', .swap⟩]⟩

theorem frames_stranded_and_overtaken :
    (∃ w : Sends Char, exec Sends.step Sends.init failedOwnSend = some w ∧ ¬ SentInOrder w w) ∧
    (exec Sends.step Sends.init lateEnqueue = some stranded ∧ ¬ SentInOrder stranded stranded) ∧
    exec Sends.step stranded [.enter 'c', .next 2 true, .next 2 true] = some overtaken ∧
      ¬ SentInOrder stranded overtaken := by
  refine ⟨⟨_, rfl, fun h => ?_⟩, ⟨rfl, fun h => ?_⟩, rfl, fun h => ?_⟩
  · exact absurd (h.ready (by decide)) (by decide)
  · exact absurd (h.buffer (by decide)) (by decide)
  · obtain ⟨l, r, hpassed, hfirst, -⟩ := h.order ⟨1, 'b', .returned 0⟩ (by simp [stranded]) rfl
      ⟨2, 'c', .swap⟩ (by simp [overtaken]) (by decide) (by decide)
    have hmem : (1, 'b') ∈ overtaken.shared.passed := hpassed ▸ List.mem_append_left r hfirst
    exact absurd hmem (by decide)

end MSylar.WebSocket
