import Mathlib.Data.Finset.Card
import Mathlib.Order.Interval.Finset.Nat
import Mathlib.Tactic.NormNum
import MSylar.Basic.IdAllocator

/-!
# Sessions of the server (wsserver.cc:296-314, 377-441)

`WsServer` keeps its sessions in a table of fixed size; the index of a session is an id of a
`PackedIDAllocator`, whose bitmap grows by itself. `none` is undefined behaviour or a failed
assertion.
-/

namespace MSylar.WebSocket
open MSylar.Execution MSylar.Word MSylar.Basic
variable {σ : Type*}

structure WsServer (σ : Type*) where
  sessions : List (Option σ)
  sessionMutexs : ℕ
  sessionIdAllocator : PackedIDAllocator
  sessionCount : ℕ

namespace WsServer

-- The constructors; `maxSession * 64` is a product of `int`s.
def new (maxSession : ℕ) : Option (WsServer σ) :=
  if 2^31 ≤ maxSession * 64 then none
  else some ⟨List.replicate (maxSession * 64) none, maxSession, .new maxSession, 0⟩

/-- `make` constructs the session for an id, `init` says whether its timer could be added and
`grows` whether the bitmap of the allocator could be resized. -/
def createSession (s : WsServer σ) (make : ℕ → σ) (init grows : Bool) :
    Option (Option σ × WsServer σ) :=
  (s.sessionIdAllocator.alloc grows).bind fun r =>
    if r.1 < 0 then some (none, { s with sessionIdAllocator := r.2 })
    else
      match s.sessions[r.1.toNat]? with
      | some none =>
        if !init then
          (r.2.free r.1).map fun freed => (none, { s with sessionIdAllocator := freed.2 })
        else if s.sessionMutexs ≤ r.1.toNat / 64 then none
        else
          let session := make r.1.toNat
          some (some session, { s with
            sessions := s.sessions.set r.1.toNat (some session)
            sessionIdAllocator := r.2
            sessionCount := (s.sessionCount + 1) % 2^32 })
      | _ => none

def removeSession (s : WsServer σ) (sessionId : ℤ) : Option (ℤ × WsServer σ) :=
  if sessionId < 0 ∨ int32 s.sessions.length ≤ sessionId then some (-1, s)
  else if s.sessionMutexs ≤ sessionId.toNat / 64 ∨ s.sessions.length ≤ sessionId.toNat then none
  else
    (s.sessionIdAllocator.free sessionId).map fun r => (0, { s with
      sessions := s.sessions.set sessionId.toNat none
      sessionIdAllocator := r.2
      sessionCount := (s.sessionCount + (2^32 - 1)) % 2^32 })

def live (s : WsServer σ) : Finset ℕ :=
  (Finset.range s.sessions.length).filter fun id => s.sessions[id]?.join.isSome

/-- An id is allocated iff its slot holds a session, and the count is that of the sessions. -/
structure Consistent (s : WsServer σ) : Prop where
  bits : ∀ id, Bitmap.test s.sessionIdAllocator.bitMap id = true ↔ id ∈ s.live
  count : s.sessionCount = s.live.card

end WsServer

inductive SessionOp (σ : Type*) where
  | create (make : ℕ → σ) (init grows : Bool)
  | remove (sessionId : ℕ)

namespace WsServer

def step (s : WsServer σ) : SessionOp σ → Option (WsServer σ)
  | .create make init grows => (s.createSession make init grows).map Prod.snd
  | .remove sessionId => (s.removeSession sessionId).map Prod.snd

def Legal (s : WsServer σ) : SessionOp σ → Prop
  | .create _ _ _ => True
  | .remove sessionId => sessionId ∈ s.live

/-- The id that `createSession` gets is in range and its slot is empty; with all slots in use it
returns a null pointer and changes nothing. -/
def Creates (s : WsServer σ) (make : ℕ → σ) (init grows : Bool) : Prop :=
  (s.live.card = s.sessions.length → s.createSession make init grows = some (none, s)) ∧
  (s.live.card < s.sessions.length → ∃ (id : ℕ) (a : PackedIDAllocator) (s' : WsServer σ),
    s.sessionIdAllocator.alloc grows = some ((id : ℤ), a) ∧ id < s.sessions.length ∧
    id / 64 < s.sessionMutexs ∧ s.sessions[id]? = some none ∧
    s.createSession make init grows = some (if init then some (make id) else none, s') ∧
    s'.Consistent)

def Keeps (s : WsServer σ) : SessionOp σ → Prop
  | .create make init grows => s.Consistent ∧ s.Creates make init grows
  | .remove sessionId => s.Consistent ∧
      ∃ s', s.removeSession sessionId = some (0, s') ∧ s'.Consistent

def sizeAfterAlloc (s : WsServer σ) (grows : Bool) : ℕ :=
  if s.live.card + 1 = s.sessionIdAllocator.getSize ∧ grows = true
    then 2 * s.sessionIdAllocator.getSize else s.sessionIdAllocator.getSize

/-- A session is created while a slot is empty and no resize of the bitmap has failed, and ids
are given back, also after a failed `init`, only up to the size of the bitmap as an `int`. -/
def Fits (s : WsServer σ) : SessionOp σ → Prop
  | .create _ init grows => s.live.card < s.sessions.length ∧ 0 ≤ s.sessionIdAllocator.nextBit ∧
      (init = false → 64 * s.sessionIdAllocator.nextChunk + s.sessionIdAllocator.nextBit ≤
        int32 (s.sizeAfterAlloc grows))
  | .remove sessionId => sessionId ≤ int32 s.sessionIdAllocator.getSize

/-! ### One call -/

structure Inv (s : WsServer σ) : Prop where
  slots : s.sessions.length = s.sessionMutexs * 64
  small : s.sessions.length < 2^31
  count : s.sessionCount = s.live.card
  sound : s.sessionIdAllocator.Sound s.live

variable {s : WsServer σ}

theorem Inv.consistent (h : s.Inv) : s.Consistent := ⟨h.sound.1, h.count⟩

theorem mem_live {id : ℕ} : id ∈ s.live ↔ ∃ x, s.sessions[id]? = some (some x) := by
  unfold live
  rw [Finset.mem_filter, Finset.mem_range]
  constructor
  · rintro ⟨_, h⟩
    obtain ⟨x, hx⟩ := Option.isSome_iff_exists.mp h
    exact ⟨x, Option.join_eq_some_iff.mp hx⟩
  · rintro ⟨x, hx⟩
    exact ⟨(List.getElem?_eq_some_iff.mp hx).1, by rw [hx]; rfl⟩

theorem live_lt {id : ℕ} (h : id ∈ s.live) : id < s.sessions.length :=
  Finset.mem_range.mp (Finset.mem_filter.mp h).1

theorem live_card_le : s.live.card ≤ s.sessions.length := by
  rw [← Finset.card_range s.sessions.length]
  exact Finset.card_filter_le ..

theorem slot_empty {id : ℕ} (hlt : id < s.sessions.length) (h : id ∉ s.live) :
    s.sessions[id]? = some none := by
  rw [List.getElem?_eq_getElem hlt]
  cases hslot : s.sessions[id] with
  | none => rfl
  | some x => exact absurd (mem_live.mpr ⟨x, by rw [List.getElem?_eq_getElem hlt, hslot]⟩) h

theorem mem_live_set {id n : ℕ} {v : Option σ} {m c : ℕ} {a : PackedIDAllocator} :
    n ∈ live ⟨s.sessions.set id v, m, a, c⟩ ↔
      n < s.sessions.length ∧ (if n = id then v.isSome = true else n ∈ s.live) := by
  rw [mem_live]
  simp only [List.getElem?_set]
  by_cases hn : n = id
  · subst hn
    by_cases hlt : n < s.sessions.length <;> cases v <;> simp [hlt]
  · rw [if_neg (Ne.symm hn), if_neg hn, ← mem_live]
    exact ⟨fun h => ⟨live_lt h, h⟩, And.right⟩

theorem live_create {id m c : ℕ} {x : σ} {a : PackedIDAllocator} (hlt : id < s.sessions.length) :
    live ⟨s.sessions.set id (some x), m, a, c⟩ = insert id s.live := by
  ext n
  rw [mem_live_set, Finset.mem_insert]
  by_cases hn : n = id
  · simp [hn, hlt]
  · simpa [hn] using live_lt

theorem live_remove {id m c : ℕ} {a : PackedIDAllocator} :
    live ⟨s.sessions.set id none, m, a, c⟩ = s.live.erase id := by
  ext n
  rw [mem_live_set, Finset.mem_erase]
  by_cases hn : n = id
  · simp [hn]
  · simpa [hn] using live_lt

theorem createSession_eq {make : ℕ → σ} {init grows : Bool} {id : ℕ} {a : PackedIDAllocator}
    (halloc : s.sessionIdAllocator.alloc grows = some ((id : ℤ), a))
    (hslot : s.sessions[id]? = some none) (hmutex : id / 64 < s.sessionMutexs) :
    s.createSession make init grows =
      if init then some (some (make id), { s with
        sessions := s.sessions.set id (some (make id))
        sessionIdAllocator := a
        sessionCount := (s.sessionCount + 1) % 2^32 })
      else (a.free id).map fun freed => (none, { s with sessionIdAllocator := freed.2 }) := by
  have hid : ¬ (id : ℤ) < 0 := by omega
  rw [createSession, halloc, Option.bind_some, if_neg hid]
  simp only [Int.toNat_natCast, hslot]
  cases init with
  | true => simp only [Bool.not_true, Bool.false_eq_true, if_false, if_true, if_neg hmutex.not_ge]
  | false => simp only [Bool.not_false, Bool.false_eq_true, if_false, if_true]

theorem createSession_out {make : ℕ → σ} {init grows : Bool} {id : ℕ} {a : PackedIDAllocator}
    (halloc : s.sessionIdAllocator.alloc grows = some ((id : ℤ), a))
    (hslot : s.sessions.length ≤ id) : s.createSession make init grows = none := by
  have hid : ¬ (id : ℤ) < 0 := by omega
  rw [createSession, halloc, Option.bind_some, if_neg hid]
  simp only [Int.toNat_natCast, List.getElem?_eq_none hslot]

theorem createSession_stuck (h : s.sessionIdAllocator.nextBit < 0) (make : ℕ → σ)
    (init grows : Bool) : s.createSession make init grows = none := by
  rw [createSession, PackedIDAllocator.alloc, if_pos (Or.inl h)]
  rfl

theorem Inv.alloc (h : s.Inv) (hroom : s.live.card < s.sessions.length)
    (hbit : 0 ≤ s.sessionIdAllocator.nextBit) (grows : Bool) :
    ∃ (id : ℕ) (a : PackedIDAllocator),
      s.sessionIdAllocator.alloc grows = some ((id : ℤ), a) ∧ id ∉ s.live ∧
      (id : ℤ) = 64 * s.sessionIdAllocator.nextChunk + s.sessionIdAllocator.nextBit ∧
      id < s.sessions.length ∧ id / 64 < s.sessionMutexs ∧ s.sessions[id]? = some none ∧
      a.Sound (insert id s.live) ∧ a.getSize = s.sizeAfterAlloc grows := by
  have hslots := h.slots
  have hsmall := h.small
  obtain hagrees | hstuck := h.sound.2
  · obtain ⟨a, halloc, hsound, hsize⟩ :=
      PackedIDAllocator.alloc_cases hagrees (hroom.trans hsmall) grows
    have hlt := lt_of_le_of_lt hagrees.next_le hroom
    exact ⟨_, a, halloc, hagrees.next.1, by omega, hlt, by omega, slot_empty hlt hagrees.next.1,
      hsound, hsize⟩
  · rw [hstuck.2] at hbit
    omega

theorem Inv.create (h : s.Inv) {make : ℕ → σ} {init grows : Bool}
    (hfits : s.Fits (.create make init grows)) :
    s.Keeps (.create make init grows) ∧
      ∀ r s', s.createSession make init grows = some (r, s') → s'.Inv := by
  obtain ⟨hroom, hbit, hback⟩ := hfits
  obtain ⟨id, a, halloc, hfree, hid, hlt, hmutex, hslot, hsound, hsize⟩ := h.alloc hroom hbit grows
  have hcreate := @createSession_eq _ s make init _ _ _ halloc hslot hmutex
  have hcount := h.count
  have hslots := h.slots
  have hsmall := h.small
  suffices hex : ∃ s', s.createSession make init grows =
      some (if init then some (make id) else none, s') ∧ s'.Inv by
    obtain ⟨s', hs', hinv⟩ := hex
    refine ⟨⟨h.consistent, fun hfull => absurd hfull hroom.ne, fun _ => ?_⟩, fun r t ht => ?_⟩
    · exact ⟨id, a, s', halloc, hlt, hmutex, hslot, hs', hinv.consistent⟩
    · rw [hs'] at ht
      obtain ⟨_, rfl⟩ := Prod.mk.inj (Option.some.inj ht)
      exact hinv
  rw [hcreate]
  cases init with
  | true =>
    refine ⟨_, rfl, ?_, ?_, ?_, ?_⟩
    · rw [List.length_set, hslots]
    · rwa [List.length_set]
    · show (s.sessionCount + 1) % 2^32 = _
      rw [live_create hlt, Finset.card_insert_of_notMem hfree, hcount]
      omega
    · rw [live_create hlt]
      exact hsound
  | false =>
    have hcard : (insert id s.live).card ≤ 2^31 := by
      rw [Finset.card_insert_of_notMem hfree]
      omega
    have hle : (id : ℤ) ≤ int32 a.getSize := by
      rw [hid, hsize]
      exact hback rfl
    obtain ⟨a', ha', hsound'⟩ := PackedIDAllocator.free_cases hsound hcard
      (Finset.mem_insert_self id s.live) hle
    rw [ha', Finset.erase_insert hfree] at *
    exact ⟨_, rfl, hslots, hsmall, hcount, hsound'⟩

theorem Inv.create_defined (h : s.Inv) {make : ℕ → σ} {init grows : Bool}
    (hsome : s.createSession make init grows ≠ none) :
    s.live.card < s.sessions.length ∧ 0 ≤ s.sessionIdAllocator.nextBit := by
  have hle := @live_card_le _ s
  have hsmall := h.small
  have hbit : 0 ≤ s.sessionIdAllocator.nextBit := by
    by_contra hneg
    exact hsome (createSession_stuck (not_le.mp hneg) make init grows)
  refine ⟨?_, hbit⟩
  by_contra hge
  obtain hagrees | hstuck := h.sound.2
  · obtain ⟨a, halloc, _, _⟩ := PackedIDAllocator.alloc_cases hagrees (by omega) grows
    refine hsome (createSession_out halloc ?_)
    by_contra hlt
    have hall : s.live = Finset.range s.sessions.length :=
      Finset.eq_of_subset_of_card_le (fun n hn => Finset.mem_range.mpr (live_lt hn))
        (by rw [Finset.card_range]; omega)
    apply hagrees.next.1
    rw [hall, Finset.mem_range]
    omega
  · rw [hstuck.2] at hbit
    omega

theorem Inv.fits_create (h : s.Inv) {make : ℕ → σ} {init grows : Bool}
    (hkeeps : s.Keeps (.create make init grows)) : s.Fits (.create make init grows) := by
  obtain ⟨_, hfullcase, hroomcase⟩ := hkeeps
  have hsome : s.createSession make init grows ≠ none := by
    intro hnone
    rw [hnone] at hfullcase hroomcase
    rcases (@live_card_le _ s).lt_or_eq with hlt | heq
    · obtain ⟨_, _, _, _, _, _, _, hnone', _⟩ := hroomcase hlt
      cases hnone'
    · cases hfullcase heq
  obtain ⟨hroom, hbit⟩ := h.create_defined hsome
  refine ⟨hroom, hbit, fun hinit => ?_⟩
  obtain ⟨id, a, halloc, hfree, hid, hlt, hmutex, hslot, hsound, hsize⟩ := h.alloc hroom hbit grows
  obtain ⟨_, _, s', _, _, _, _, hcreate, hcons⟩ := hroomcase hroom
  by_contra hback
  have hrefused : int32 a.getSize < (id : ℤ) := by
    rw [hid, hsize]
    exact not_le.mp hback
  rw [createSession_eq halloc hslot hmutex, hinit,
    PackedIDAllocator.free_refused hrefused] at hcreate
  simp only [Bool.false_eq_true, if_false, Option.map_some, Option.some.injEq,
    Prod.mk.injEq] at hcreate
  obtain ⟨_, rfl⟩ := hcreate
  -- the id stays allocated and its slot empty
  exact hfree ((hcons.bits id).mp ((hsound.1 id).mpr (Finset.mem_insert_self id s.live)))

theorem Inv.create_cases (h : s.Inv) (hfew : 2 * s.sessions.length < 2^31)
    (hsize : s.sessionIdAllocator.getSize ≤ 2 * s.sessions.length) {make : ℕ → σ}
    {init grows : Bool} {q : Option σ} {s' : WsServer σ}
    (hcreate : s.createSession make init grows = some (q, s')) :
    s'.Inv ∧ s'.sessionIdAllocator.getSize ≤ 2 * s.sessions.length ∧
      (q = none ∧ s'.sessions = s.sessions ∨
        ∃ id, q = some (make id) ∧ s.sessions[id]? = some none ∧
          s'.sessions = s.sessions.set id (some (make id))) := by
  obtain ⟨hroom, hbit⟩ := h.create_defined (by rw [hcreate]; exact Option.some_ne_none _)
  obtain ⟨id, a, halloc, hfree, hid, hlt, hmutex, hslot, hsound, ha⟩ := h.alloc hroom hbit grows
  have hgrown : s.sizeAfterAlloc grows ≤ 2 * s.sessions.length := by
    unfold sizeAfterAlloc
    split <;> omega
  have hback : (id : ℤ) ≤ int32 (s.sizeAfterAlloc grows) := by
    have hin := PackedIDAllocator.mem_lt_getSize hsound.1 (Finset.mem_insert_self id s.live)
    rw [ha] at hin
    rw [int32_of_lt (by omega)]
    omega
  refine ⟨(h.create ⟨hroom, hbit, fun _ => hid ▸ hback⟩).2 q s' hcreate, ?_⟩
  rw [createSession_eq halloc hslot hmutex] at hcreate
  cases init with
  | true =>
    cases hcreate
    exact ⟨ha.trans_le hgrown, .inr ⟨id, rfl, hslot, rfl⟩⟩
  | false =>
    simp only [Bool.false_eq_true, if_false, Option.map_eq_some_iff, Prod.mk.injEq] at hcreate
    obtain ⟨freed, hfreed, rfl, rfl⟩ := hcreate
    exact ⟨((PackedIDAllocator.free_getSize hfreed).trans ha).trans_le hgrown, .inl ⟨rfl, rfl⟩⟩

theorem Inv.remove_eq (h : s.Inv) {sessionId : ℕ} (hlive : sessionId ∈ s.live) :
    s.removeSession sessionId = (s.sessionIdAllocator.free sessionId).map fun r => (0, { s with
      sessions := s.sessions.set sessionId none
      sessionIdAllocator := r.2
      sessionCount := (s.sessionCount + (2^32 - 1)) % 2^32 }) := by
  have hlt := live_lt hlive
  have hslots := h.slots
  have hsmall := int32_of_lt h.small
  rw [removeSession, if_neg (by omega), if_neg (by omega)]
  simp only [Int.toNat_natCast]

theorem Inv.remove (h : s.Inv) {sessionId : ℕ} (hlive : sessionId ∈ s.live)
    (hfits : s.Fits (.remove sessionId)) :
    ∃ s', s.removeSession sessionId = some (0, s') ∧ s'.Inv ∧ s'.live = s.live.erase sessionId := by
  have hcard := @live_card_le _ s
  have hsmall := h.small
  have hpos := Finset.card_pos.mpr ⟨sessionId, hlive⟩
  obtain ⟨a, hfree, hsound⟩ := PackedIDAllocator.free_cases h.sound (by omega) hlive hfits
  rw [h.remove_eq hlive, hfree]
  refine ⟨_, rfl, ⟨?_, ?_, ?_, ?_⟩, live_remove⟩
  · rw [List.length_set, h.slots]
  · rwa [List.length_set]
  · show (s.sessionCount + (2^32 - 1)) % 2^32 = _
    rw [live_remove, Finset.card_erase_of_mem hlive, h.count]
    omega
  · rw [live_remove]
    exact hsound

theorem Inv.remove_small (h : s.Inv) (hfew : 2 * s.sessions.length < 2^31)
    (hsize : s.sessionIdAllocator.getSize ≤ 2 * s.sessions.length) {id : ℕ} (hlive : id ∈ s.live) :
    ∃ s', s.removeSession id = some (0, s') ∧ s'.Inv ∧
      s'.sessionIdAllocator.getSize ≤ 2 * s.sessions.length ∧
      s'.sessions = s.sessions.set id none ∧
      Bitmap.test s'.sessionIdAllocator.bitMap id = false := by
  have hin := PackedIDAllocator.mem_lt_getSize h.sound.1 hlive
  have hfits : s.Fits (.remove id) := by
    show (id : ℤ) ≤ int32 s.sessionIdAllocator.getSize
    rw [int32_of_lt (by omega)]
    omega
  obtain ⟨s', hremove, hinv, hlive'⟩ := h.remove hlive hfits
  have heq := hremove
  rw [h.remove_eq hlive, Option.map_eq_some_iff] at heq
  obtain ⟨⟨r, a⟩, hfree, hpair⟩ := heq
  cases hpair
  refine ⟨_, hremove, hinv, (PackedIDAllocator.free_getSize hfree).trans_le hsize, rfl, ?_⟩
  have hbits := hinv.sound.1 id
  rw [hlive'] at hbits
  rw [← Bool.not_eq_true, hbits]
  exact Finset.notMem_erase id s.live

theorem Inv.fits_remove (h : s.Inv) {sessionId : ℕ} (hlive : sessionId ∈ s.live)
    (hkeeps : s.Keeps (.remove sessionId)) : s.Fits (.remove sessionId) := by
  obtain ⟨_, s', hremove, hcons⟩ := hkeeps
  by_contra hback
  have hrefused : int32 s.sessionIdAllocator.getSize < (sessionId : ℤ) := not_le.mp hback
  rw [h.remove_eq hlive, PackedIDAllocator.free_refused hrefused] at hremove
  simp only [Option.map_some, Option.some.injEq, Prod.mk.injEq, true_and] at hremove
  subst hremove
  have hmem := (hcons.bits sessionId).mp ((h.sound.1 sessionId).mpr hlive)
  rw [live_remove] at hmem
  exact Finset.notMem_erase sessionId s.live hmem

theorem Inv.keeps_iff (h : s.Inv) {op : SessionOp σ} (hl : s.Legal op) :
    s.Keeps op ↔ s.Fits op := by
  cases op with
  | create make init grows => exact ⟨h.fits_create, fun hfits => (h.create hfits).1⟩
  | remove sessionId =>
    refine ⟨h.fits_remove hl, fun hfits => ⟨h.consistent, ?_⟩⟩
    obtain ⟨s', hremove, hinv, _⟩ := h.remove hl hfits
    exact ⟨s', hremove, hinv.consistent⟩

theorem Inv.step (h : s.Inv) {op : SessionOp σ} (hl : s.Legal op) (hfits : s.Fits op)
    {s' : WsServer σ} (hstep : s.step op = some s') : s'.Inv := by
  cases op with
  | create make init grows =>
    rw [WsServer.step, Option.map_eq_some_iff] at hstep
    obtain ⟨⟨r, t⟩, hcreate, rfl⟩ := hstep
    exact (h.create hfits).2 r t hcreate
  | remove sessionId =>
    rw [WsServer.step, Option.map_eq_some_iff] at hstep
    obtain ⟨⟨r, t⟩, hremove, rfl⟩ := hstep
    obtain ⟨t', ht', hinv, _⟩ := h.remove hl hfits
    rw [hremove] at ht'
    obtain ⟨_, rfl⟩ := Prod.mk.inj (Option.some.inj ht')
    exact hinv

theorem new_live (n m c : ℕ) (a : PackedIDAllocator) :
    live (⟨List.replicate n none, m, a, c⟩ : WsServer σ) = ∅ := by
  apply Finset.eq_empty_of_forall_notMem
  intro id hid
  obtain ⟨x, hx⟩ := mem_live.mp hid
  simp [List.getElem?_replicate] at hx

theorem new_inv {maxSession : ℕ} {s : WsServer σ} (h1 : 1 ≤ maxSession)
    (h : new maxSession = some s) : s.Inv := by
  unfold new at h
  split at h
  · cases h
  · obtain rfl := Option.some.inj h
    refine ⟨List.length_replicate .., ?_, ?_, ?_⟩
    · rw [List.length_replicate]
      omega
    · rw [new_live]
      rfl
    · have hagrees := PackedIDAllocator.new_agrees h1
      rw [new_live]
      exact ⟨hagrees.bits, Or.inl hagrees⟩

/-! ### Sequences of calls -/

theorem new_eq {maxSession : ℕ} (h : maxSession < 2^25) :
    (new maxSession : Option (WsServer σ)) =
      some ⟨List.replicate (maxSession * 64) none, maxSession, .new maxSession, 0⟩ := by
  rw [new, if_neg (by omega)]

theorem Inv.keeps_run (h : s.Inv) {ops : List (SessionOp σ)}
    (hlegal : Guarded WsServer.step WsServer.Legal s ops) :
    Guarded WsServer.step WsServer.Keeps s ops ↔ Guarded WsServer.step WsServer.Fits s ops := by
  refine guarded_iff (fun t op ht hl => Inv.keeps_iff ht hl) ?_ h hlegal
  intro t op t' ht hl hkeeps hstep
  exact ht.step hl ((ht.keeps_iff hl).mp hkeeps) hstep

theorem Inv.creates_le (h : s.Inv) {make : ℕ → σ} {n : ℕ}
    (hfits : Guarded WsServer.step WsServer.Fits s (List.replicate n (.create make true true))) :
    s.live.card + n ≤ s.sessions.length := by
  induction n generalizing s with
  | zero => exact live_card_le
  | succ n ih =>
    obtain ⟨hfit, hrest⟩ := hfits
    obtain ⟨hroom, hbit, _⟩ := id hfit
    obtain ⟨id, a, halloc, hfree, _, hlt, hmutex, hslot, _⟩ := h.alloc hroom hbit true
    have hstep : s.step (.create make true true) = some { s with
        sessions := s.sessions.set id (some (make id))
        sessionIdAllocator := a
        sessionCount := (s.sessionCount + 1) % 2^32 } := by
      rw [WsServer.step, createSession_eq halloc hslot hmutex, if_pos rfl, Option.map_some]
    have hlegal : s.Legal (.create make true true) := trivial
    have hle := ih (h.step hlegal hfit hstep) (hrest _ hstep)
    rw [live_create hlt, Finset.card_insert_of_notMem hfree, List.length_set] at hle
    omega

end WsServer

theorem creates_legal (make : ℕ → σ) (n : ℕ) (s : WsServer σ) :
    Guarded WsServer.step WsServer.Legal s (List.replicate n (.create make true true)) := by
  induction n generalizing s with
  | zero => trivial
  | succ n ih => exact ⟨trivial, fun t _ => ih t⟩

/-- Over every sequence of calls the slots, ids and count agree exactly as long as the table can
be built and every call fits. -/
theorem slots_and_ids_agree_iff {maxSession : ℕ} (hmax : 1 ≤ maxSession)
    {ops : List (SessionOp σ)} (hlegal : ∀ s, WsServer.new maxSession = some s →
      Guarded WsServer.step WsServer.Legal s ops) :
    (∃ s, WsServer.new maxSession = some s ∧ Guarded WsServer.step WsServer.Keeps s ops) ↔
      maxSession < 2^25 ∧ ∀ s, WsServer.new maxSession = some s →
        Guarded WsServer.step WsServer.Fits s ops := by
  constructor
  · rintro ⟨s, hnew, hkeeps⟩
    refine ⟨?_, fun t ht => ?_⟩
    · by_contra hbig
      rw [WsServer.new, if_pos (by omega)] at hnew
      cases hnew
    · rw [hnew] at ht
      obtain rfl := Option.some.inj ht
      exact ((WsServer.new_inv hmax hnew).keeps_run (hlegal s hnew)).mp hkeeps
  · rintro ⟨hsmall, hfits⟩
    have hnew := @WsServer.new_eq σ _ hsmall
    exact ⟨_, hnew, ((WsServer.new_inv hmax hnew).keeps_run (hlegal _ hnew)).mpr (hfits _ hnew)⟩

instance WsServer.decidableLegal (s : WsServer σ) : ∀ op, Decidable (s.Legal op)
  | .create _ _ _ => isTrue trivial
  | .remove sessionId => inferInstanceAs (Decidable (sessionId ∈ s.live))

instance WsServer.decidableFits (s : WsServer σ) : ∀ op, Decidable (s.Fits op)
  | .create _ init grows => inferInstanceAs (Decidable (s.live.card < s.sessions.length ∧
      0 ≤ s.sessionIdAllocator.nextBit ∧ (init = false →
        64 * s.sessionIdAllocator.nextChunk + s.sessionIdAllocator.nextBit ≤
          int32 (s.sizeAfterAlloc grows))))
  | .remove sessionId =>
    inferInstanceAs (Decidable (sessionId ≤ int32 s.sessionIdAllocator.getSize))

def reconnect : List (SessionOp ℕ) := [.create id true true, .remove 0, .create id true true]

/-- The second session gets the id of the first one. -/
theorem reconnected_session_agrees :
    (1 ≤ 1 ∧ ∀ s : WsServer ℕ, WsServer.new 1 = some s →
      Guarded WsServer.step WsServer.Legal s reconnect) ∧
    ∃ s t : WsServer ℕ, WsServer.new 1 = some s ∧ Guarded WsServer.step WsServer.Keeps s reconnect ∧
      exec WsServer.step s reconnect = some t ∧ t.sessions[0]? = some (some 0) ∧
      t.sessionCount = 1 := by
  obtain ⟨s, hnew⟩ : ∃ s : WsServer ℕ, WsServer.new 1 = some s := ⟨_, WsServer.new_eq (by norm_num)⟩
  have hrun : (WsServer.new 1).all (fun s : WsServer ℕ =>
      Guarded WsServer.step WsServer.Legal s reconnect ∧
      Guarded WsServer.step WsServer.Fits s reconnect ∧
      (exec WsServer.step s reconnect).map (fun t => (t.sessions[0]?, t.sessionCount)) =
        some (some (some 0), 1)) = true := by
    decide +kernel
  simp only [hnew, Option.all_some, decide_eq_true_eq] at hrun
  obtain ⟨hlegal, hfits, hend⟩ := hrun
  have hall : ∀ P : WsServer ℕ → Prop, P s → ∀ t, WsServer.new 1 = some t → P t := by
    intro P hs t ht
    rw [hnew] at ht
    exact Option.some.inj ht ▸ hs
  have hlegal' := hall (Guarded WsServer.step WsServer.Legal · reconnect) hlegal
  obtain ⟨t, ht, hkeeps⟩ := (slots_and_ids_agree_iff le_rfl hlegal').mpr
    ⟨by norm_num, hall (Guarded WsServer.step WsServer.Fits · reconnect) hfits⟩
  rw [hnew] at ht
  obtain rfl := Option.some.inj ht
  obtain ⟨t, ht, hslots⟩ := Option.map_eq_some_iff.mp hend
  rw [Prod.mk.injEq] at hslots
  exact ⟨⟨le_rfl, hlegal'⟩, s, t, hnew, hkeeps, ht, hslots.1, hslots.2⟩

/-- The 65th session of a server for 64 gets an id outside the table. -/
theorem last_slot_overrun :
    ¬ ∀ (maxSession : ℕ) (ops : List (SessionOp ℕ)), 1 ≤ maxSession →
      (∀ s, WsServer.new maxSession = some s → Guarded WsServer.step WsServer.Legal s ops) →
      ∃ s, WsServer.new maxSession = some s ∧ Guarded WsServer.step WsServer.Keeps s ops := by
  intro hall
  obtain ⟨s, hnew, hkeeps⟩ := hall 1 (List.replicate 65 (.create id true true)) le_rfl
    fun s _ => creates_legal id 65 s
  have hinv := WsServer.new_inv le_rfl hnew
  have hle := hinv.creates_le ((hinv.keeps_run (creates_legal id 65 s)).mp hkeeps)
  rw [WsServer.new_eq (by norm_num)] at hnew
  obtain rfl := Option.some.inj hnew
  rw [List.length_replicate] at hle
  omega

end MSylar.WebSocket
