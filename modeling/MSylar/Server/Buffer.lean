import Mathlib.Data.List.TakeDrop
import MSylar.Server.Session

/-!
# The bytes in a session's buffer (session.cc:66-129)

`Buffered` adds the contents of the array to the positions of `Session`, together with the bytes
received on the socket so far and the number of them that have been consumed.
-/

namespace MSylar.Server
open MSylar.Execution MSylar.Word
variable {β : Type*}

/-- What `recv` returns; it writes nothing when it fails. -/
inductive Recv (β : Type*) where
  | data (bytes : List β)
  | closed
  | error (timeout critical : Bool)

namespace Recv

def length : Recv β → ℤ
  | .data bytes => bytes.length
  | .closed => 0
  | .error timeout _ => if timeout then -2 else -1

def bytes : Recv β → List β
  | .data bytes => bytes
  | _ => []

def critical : Recv β → Bool
  | .error _ critical => critical
  | _ => false

theorem length_nonpos {r : Recv β} (h : r.bytes = []) : r.length ≤ 0 := by
  cases r with
  | data bytes =>
    cases bytes with
    | nil => exact le_rfl
    | cons x bytes => cases h
  | closed => exact le_rfl
  | error timeout critical => cases timeout <;> simp [length]

end Recv

structure Buffered (β : Type*) where
  session : Session
  memory : List β
  received : List β
  consumed : ℕ

namespace Buffered

def start (session : Session) (memory : List β) : Buffered β := ⟨session, memory, [], 0⟩

def overlay (memory : List β) (pos : ℕ) (bytes : List β) : List β :=
  memory.take pos ++ bytes ++ memory.drop (pos + bytes.length)

/-- `recv` writes to the region it is given, where it is called. -/
def receive (b : Buffered β) (s : Session) (r : Recv β) : Buffered β :=
  match b.session.recvRegion with
  | none => { b with session := s }
  | some region => ⟨s, overlay b.memory region.1 r.bytes, b.received ++ r.bytes, b.consumed⟩

/-- `recv` writes past the end of the array. -/
def Overruns (b : Buffered β) (r : Recv β) : Prop :=
  ∃ region ∈ b.session.recvRegion, b.session.allocated < region.1 + r.bytes.length

instance (b : Buffered β) (r : Recv β) : Decidable (b.Overruns r) :=
  inferInstanceAs (Decidable (∃ region ∈ b.session.recvRegion,
    b.session.allocated < region.1 + r.bytes.length))

/-- Returns the result, the position that `*buffer` points to and the session afterwards. -/
def recvMessage (b : Buffered β) (r : Recv β) (length : ℕ) : Option (ℤ × ℕ × Buffered β) :=
  (b.session.recvMessage r.length r.critical length).map fun res =>
    (res.1, res.2.beginPos, b.receive res.2 r)

def consume (b : Buffered β) (length : ℕ) : ℕ × Buffered β :=
  ((b.session.consume length).1,
    { b with session := (b.session.consume length).2
             consumed := b.consumed + (b.session.consume length).1 })

/-- The bytes that a caller of `recvMessage` may read. -/
def exposed (b : Buffered β) (pos : ℕ) (rt : ℤ) : List β := (b.memory.drop pos).take rt.toNat

/-- The received bytes that have not been consumed. -/
def unread (b : Buffered β) : List β := b.received.drop b.consumed

/-- `[m_buffer_begin_pos, m_buffer_end_pos)`. -/
def window (b : Buffered β) : List β := (b.memory.take b.session.endPos).drop b.session.beginPos

end Buffered

inductive BufferCall (β : Type*) where
  | recvMessage (r : Recv β)
  | consume (length : ℕ)

namespace Buffered

def step (b : Buffered β) : BufferCall β → Option (Buffered β)
  | .recvMessage r => (b.recvMessage r uint64Max).map fun res => res.2.2
  | .consume length => some (b.consume length).2

/-- `recv` returns at most as many bytes as there is room for. -/
def Legal (b : Buffered β) : BufferCall β → Prop
  | .recvMessage r => ∀ region ∈ b.session.recvRegion, r.bytes.length ≤ region.2
  | .consume length => length < 2^31

def Delivered (b : Buffered β) : BufferCall β → Prop
  | .recvMessage r => ∃ rt pos b', b.recvMessage r uint64Max = some (rt, pos, b') ∧
      b'.window = b'.unread ∧
      b'.unread = b.unread ++ (if b.session.recvRegion = none then [] else r.bytes) ∧
      (0 < rt → rt = b'.unread.length ∧ b'.exposed pos rt = b'.unread) ∧
      (rt ≤ 0 → b'.session = b.session ∧ b'.memory = b.memory)
  | .consume length => (b.consume length).1 = min length b.unread.length ∧
      (b.consume length).2.window = (b.consume length).2.unread ∧
      (b.consume length).2.unread = b.unread.drop length

/-! ### One call -/

structure Inv (b : Buffered β) : Prop where
  positive : 0 < b.session.bufferSize
  bounds : b.session.InBounds
  small : b.session.bufferSize < 2^31
  array : b.memory.length = b.session.allocated
  held : b.window = b.unread
  consumed : b.consumed ≤ b.received.length
  reset : b.session.beginPos < b.session.endPos ∨ b.session.beginPos = 0 ∧ b.session.endPos = 0

theorem overlay_length {memory : List β} {pos : ℕ} {bytes : List β}
    (h : pos + bytes.length ≤ memory.length) : (overlay memory pos bytes).length = memory.length := by
  simp only [overlay, List.length_append, List.length_take, List.length_drop]
  omega

theorem overlay_nil (memory : List β) (pos : ℕ) : overlay memory pos [] = memory := by
  simp only [overlay, List.append_nil, List.length_nil, Nat.add_zero, List.take_append_drop]

theorem take_overlay {memory : List β} {pos : ℕ} {bytes : List β} (h : pos ≤ memory.length) :
    (overlay memory pos bytes).take (pos + bytes.length) = memory.take pos ++ bytes := by
  have hlen : (memory.take pos ++ bytes).length = pos + bytes.length := by
    rw [List.length_append, List.length_take, Nat.min_eq_left h]
  rw [overlay, ← hlen, List.take_left]

theorem Inv.window_length {b : Buffered β} (h : b.Inv) :
    b.unread.length = b.session.endPos - b.session.beginPos := by
  have hsize := h.bounds.size
  have hreceived := h.bounds.received
  have harray := h.array
  rw [← h.held, window, List.length_drop, List.length_take]
  omega

theorem available_eq {s : Session} (h : s.InBounds) (hsmall : s.bufferSize < 2^31) :
    s.available uint64Max = ((s.endPos - s.beginPos : ℕ) : ℤ) := by
  have hconsumed := h.consumed
  have hreceived := h.received
  have hint : int32 (sub64 s.endPos s.beginPos) = ((s.endPos - s.beginPos : ℕ) : ℤ) := by
    rw [sub64_of_le hconsumed (by omega)]
    exact int32_of_lt (by omega)
  unfold Session.available
  dsimp only
  rw [hint, if_pos]
  unfold uint64Max
  omega

/-- The bytes that a call of `recvMessage` adds. -/
def got (b : Buffered β) (r : Recv β) : List β :=
  if b.session.recvRegion = none then [] else r.bytes

theorem receive_nil {b : Buffered β} {r : Recv β} (h : r.bytes = []) :
    b.receive b.session r = b := by
  unfold receive
  cases b.session.recvRegion with
  | none => rfl
  | some region =>
    dsimp only
    rw [h, overlay_nil, List.append_nil]

theorem window_exposed {b : Buffered β} (h : b.Inv) :
    b.exposed b.session.beginPos b.unread.length = b.unread := by
  have hlen := h.window_length
  have hconsumed := h.bounds.consumed
  rw [exposed, Int.toNat_natCast, hlen, ← List.drop_take, ← window, h.held]

/-- The positions after a `recv` of `n` bytes. -/
def filled (s : Session) (n : ℕ) : Session :=
  { s with totalReceived := ((s.totalReceived + (n : ℤ)) % 2^64).toNat, endPos := s.endPos + n }

theorem receive_some {b : Buffered β} {s : Session} {region : ℕ × ℕ} {r : Recv β}
    (hregion : b.session.recvRegion = some region) :
    b.receive s r = ⟨s, overlay b.memory region.1 r.bytes, b.received ++ r.bytes, b.consumed⟩ := by
  unfold receive
  rw [hregion]

theorem Inv.received {b : Buffered β} (h : b.Inv) {bytes : List β} {region : ℕ × ℕ}
    (hregion : b.session.recvRegion = some region) (hfits : bytes.length ≤ region.2)
    (hne : bytes ≠ []) : (b.receive (filled b.session bytes.length) (.data bytes)).Inv := by
  obtain ⟨hroom, rfl⟩ := Session.recvRegion_eq hregion
  have hsize := h.bounds.size
  have harray := h.array
  have hbegin := h.bounds.consumed
  have hold := h.consumed
  have hpos : 0 < bytes.length := List.length_pos_iff.mpr hne
  dsimp only at hfits
  rw [receive_some hregion]
  refine ⟨h.positive, ⟨hsize, by dsimp only [filled]; omega, by dsimp only [filled]; omega⟩,
    h.small, ?_, ?_, ?_, .inl (by dsimp only [filled]; omega)⟩
  · dsimp only [Recv.bytes]
    rw [overlay_length (by omega)]
    exact harray
  · dsimp only [window, unread, Recv.bytes, filled]
    rw [take_overlay (by omega), List.drop_append_of_le_length (by rw [List.length_take]; omega),
      List.drop_append_of_le_length hold]
    exact congrArg (· ++ bytes) h.held
  · dsimp only [Recv.bytes]
    rw [List.length_append]
    omega

theorem recvMessage_failed {s : Session} {region : ℕ × ℕ} (hregion : s.recvRegion = some region)
    {r : Recv β} (hr : r.length ≤ 0) (length : ℕ) :
    ∃ rt ≤ 0, s.recvMessage r.length r.critical length = some (rt, s) := by
  have herror : ∀ recvLen : ℤ, recvLen = -1 ∨ recvLen = -2 →
      ∃ rt ≤ 0, s.recvMessage recvLen r.critical length = some (rt, s) := by
    intro recvLen hlen
    refine ⟨if r.critical then -1 else -2, by split <;> decide, ?_⟩
    simp only [Session.recvMessage, hregion]
    rw [if_neg (by omega), if_pos hlen]
  by_cases hzero : r.length = 0
  · refine ⟨0, le_rfl, ?_⟩
    simp only [Session.recvMessage, hregion]
    rw [if_pos hzero]
  · refine herror _ ?_
    cases r with
    | data bytes =>
      dsimp only [Recv.length] at hr hzero
      omega
    | closed => exact absurd rfl hzero
    | error timeout critical => cases timeout <;> simp [Recv.length]

theorem recvMessage_filled {s : Session} {region : ℕ × ℕ} (hregion : s.recvRegion = some region)
    {n : ℕ} (hfits : n ≤ region.2) (hpos : 0 < n) (hsmall : s.bufferSize < 2^64) (critical : Bool)
    (length : ℕ) :
    s.recvMessage n critical length = some ((filled s n).available length, filled s n) := by
  obtain ⟨hroom, rfl⟩ := Session.recvRegion_eq hregion
  dsimp only at hfits
  have hend : ((s.endPos + (n : ℤ)) % 2^64).toNat = s.endPos + n := by omega
  simp only [Session.recvMessage, hregion]
  rw [if_neg (by omega), if_neg (by omega), hend, if_pos (by omega)]
  rfl

/-- `recvMessage` fails and changes nothing, or it exposes everything that is unread. -/
theorem Inv.recvMessage {b : Buffered β} (h : b.Inv) {r : Recv β} (hl : b.Legal (.recvMessage r)) :
    ∃ rt pos b', b.recvMessage r uint64Max = some (rt, pos, b') ∧ b'.Inv ∧
      b'.received = b.received ++ b.got r ∧ b'.consumed = b.consumed ∧
      b'.session.bufferSize = b.session.bufferSize ∧
      b'.session.endPos = b.session.endPos + (b.got r).length ∧
      (rt ≤ 0 ∧ b' = b ∧ b.got r = [] ∧ b.session.recvRegion ≠ none ∨
        0 < rt ∧ rt = b'.unread.length ∧ pos = b'.session.beginPos) := by
  cases hregion : b.session.recvRegion with
  | none =>
    have hsame : b.receive b.session r = b := by
      unfold receive
      rw [hregion]
    have hgot : b.got r = [] := by rw [got, if_pos hregion]
    have hfull : b.session.beginPos < b.session.endPos := by
      have hnot : ¬ b.session.endPos < b.session.bufferSize := by
        intro hlt
        rw [Session.recvRegion, if_pos hlt] at hregion
        cases hregion
      have hpositive := h.positive
      rcases h.reset with hlt | ⟨_, hzero⟩ <;> omega
    have havail := available_eq h.bounds h.small
    refine ⟨b.session.available uint64Max, _, b, ?_, h, by rw [hgot, List.append_nil], rfl, rfl,
      by rw [hgot, List.length_nil, Nat.add_zero], .inr ⟨?_, ?_, rfl⟩⟩
    · simp only [Buffered.recvMessage, Session.recvMessage, hregion, Option.map_some, hsame]
    · rw [havail]
      omega
    · rw [havail, h.window_length]
  | some region =>
    have hwaits : b.session.recvRegion ≠ none := by
      rw [hregion]
      exact Option.some_ne_none _
    have hgot : b.got r = r.bytes := by rw [got, if_neg hwaits]
    by_cases hr : r.bytes = []
    · obtain ⟨rt, hrt, hrecv⟩ := recvMessage_failed hregion (Recv.length_nonpos hr) uint64Max
      refine ⟨rt, b.session.beginPos, b, ?_, h, ?_, rfl, rfl, ?_,
        .inl ⟨hrt, rfl, hgot.trans hr, hregion ▸ hwaits⟩⟩
      · rw [Buffered.recvMessage, hrecv, Option.map_some, receive_nil hr]
      · rw [hgot, hr, List.append_nil]
      · rw [hgot, hr, List.length_nil, Nat.add_zero]
    · cases r with
      | closed => exact absurd rfl hr
      | error timeout critical => exact absurd rfl hr
      | data bytes =>
        have hfits : bytes.length ≤ region.2 := hl region hregion
        have hpos : 0 < bytes.length := List.length_pos_iff.mpr hr
        have hfilled := recvMessage_filled hregion hfits hpos
          (h.small.trans (by norm_num)) false uint64Max
        have hinv := h.received hregion hfits hr
        have hlen := hinv.window_length
        rw [receive_some hregion] at hinv hlen
        refine ⟨(filled b.session bytes.length).available uint64Max,
          (filled b.session bytes.length).beginPos, _, ?_, hinv, by rw [hgot], rfl, rfl,
          by rw [hgot]; rfl, ?_⟩
        · show (b.session.recvMessage bytes.length false uint64Max).map _ = _
          rw [hfilled, Option.map_some, receive_some hregion]
        · have havail := available_eq hinv.bounds hinv.small
          dsimp only at havail hlen
          have hbegin := h.bounds.consumed
          refine .inr ⟨?_, ?_, rfl⟩
          · rw [havail]
            dsimp only [filled]
            omega
          · rw [havail, hlen]

theorem Inv.consume {b : Buffered β} (h : b.Inv) {n : ℕ} (hn : n < 2^31) :
    (b.consume n).2.Inv ∧ (b.consume n).1 = min n b.unread.length ∧
      (b.consume n).2.received = b.received ∧
      (b.consume n).2.consumed = b.consumed + min n b.unread.length := by
  have hlen := h.window_length
  have hbegin := h.bounds.consumed
  have hend := h.bounds.received
  have hsmall := h.small
  have hadd : add64 b.session.beginPos n = b.session.beginPos + n := add64_of_lt (by omega)
  have hread : b.unread.length = b.received.length - b.consumed := by rw [unread, List.length_drop]
  have hle := h.consumed
  unfold Buffered.consume Session.consume
  dsimp only
  rw [hadd]
  by_cases hall : b.session.endPos ≤ b.session.beginPos + n
  · have hsub : sub64 n (b.session.beginPos + n - b.session.endPos) =
        n - (b.session.beginPos + n - b.session.endPos) := sub64_of_le (by omega) (by omega)
    have hmin : min n b.unread.length = n - (b.session.beginPos + n - b.session.endPos) := by omega
    rw [if_pos hall, hsub, ← hmin]
    refine ⟨⟨h.positive, ⟨h.bounds.size, le_rfl, Nat.zero_le _⟩, hsmall, h.array, ?_, ?_,
      .inr ⟨rfl, rfl⟩⟩, rfl, rfl, rfl⟩
    · have hnone : b.received.drop (b.consumed + min n b.unread.length) = [] :=
        List.drop_eq_nil_of_le (by omega)
      exact hnone.symm
    · dsimp only
      omega
  · have hmin : min n b.unread.length = n := by omega
    rw [if_neg hall, hmin]
    refine ⟨⟨h.positive, ⟨h.bounds.size, by dsimp only; omega, hend⟩, hsmall, h.array, ?_, ?_,
      .inl (by dsimp only; omega)⟩, rfl, rfl, rfl⟩
    · have hheld := congrArg (List.drop n) h.held
      simpa only [window, unread, List.drop_drop] using hheld
    · dsimp only
      omega

theorem recvRegion_eq_none {s : Session} : s.recvRegion = none ↔ s.bufferSize ≤ s.endPos := by
  simp [Session.recvRegion]

/-- A full buffer stays full until all of it has been consumed. -/
theorem Inv.recvRegion_consume {b : Buffered β} (h : b.Inv) {n : ℕ} (hn : n < 2^31) :
    (b.consume n).2.session.recvRegion = none ↔
      b.session.recvRegion = none ∧ n < b.unread.length := by
  have hlen := h.window_length
  have hbegin := h.bounds.consumed
  have hend := h.bounds.received
  have hsmall := h.small
  have hpositive := h.positive
  have hadd : add64 b.session.beginPos n = b.session.beginPos + n := add64_of_lt (by omega)
  unfold Buffered.consume Session.consume
  dsimp only
  rw [hadd, recvRegion_eq_none, recvRegion_eq_none]
  by_cases hall : b.session.endPos ≤ b.session.beginPos + n
  · rw [if_pos hall]
    dsimp only
    omega
  · rw [if_neg hall]
    dsimp only
    omega

theorem Inv.waits {b : Buffered β} (h : b.Inv) (hall : b.received.length ≤ b.consumed) :
    b.session.recvRegion ≠ none := by
  intro hnone
  rw [recvRegion_eq_none] at hnone
  have hlen := h.window_length
  have hpositive := h.positive
  have hbegin := h.bounds.consumed
  rw [unread, List.drop_eq_nil_of_le hall, List.length_nil] at hlen
  rcases h.reset with hreset | hreset <;> omega

/-- Everything received has been consumed; the size that `setBufferSize` has set may be larger than the
array. -/
structure Cleared (b : Buffered β) : Prop where
  array : b.memory.length = b.session.allocated
  allocated : b.session.allocated < 2^31
  size : b.session.bufferSize < 2^32
  beginPos : b.session.beginPos = 0
  endPos : b.session.endPos = 0

theorem Cleared.received {b : Buffered β} (h : b.Cleared) {bytes : List β} {region : ℕ × ℕ}
    (hregion : b.session.recvRegion = some region) (hroom : bytes.length ≤ region.2)
    (harray : bytes.length ≤ b.session.allocated) (hne : bytes ≠ []) :
    ∃ b', b.recvMessage (.data bytes) uint64Max = some ((bytes.length : ℤ), 0, b') ∧
      b'.exposed 0 bytes.length = bytes ∧ (b'.consume bytes.length).2.Cleared ∧
      (b'.consume bytes.length).2.session.bufferSize = b.session.bufferSize ∧
      (b'.consume bytes.length).2.session.allocated = b.session.allocated := by
  have hstart : region.1 = 0 := by
    rw [(Session.recvRegion_eq hregion).2]
    exact h.endPos
  have hpos : 0 < bytes.length := List.length_pos_iff.mpr hne
  have hsmall := h.allocated
  have hfilled := recvMessage_filled hregion hroom hpos (h.size.trans (by norm_num)) false uint64Max
  have hend : (filled b.session bytes.length).endPos = bytes.length := by
    dsimp only [filled]
    rw [h.endPos, Nat.zero_add]
  have hbegin : (filled b.session bytes.length).beginPos = 0 := h.beginPos
  have havail : (filled b.session bytes.length).available uint64Max = bytes.length := by
    have hint : int32 (sub64 (filled b.session bytes.length).endPos
        (filled b.session bytes.length).beginPos) = bytes.length := by
      rw [hend, hbegin, sub64_of_le (Nat.zero_le _) (by omega), Nat.sub_zero]
      exact int32_of_lt (by omega)
    unfold Session.available
    dsimp only
    rw [hint, if_pos]
    unfold uint64Max
    omega
  have hmemory : overlay b.memory region.1 bytes = bytes ++ b.memory.drop bytes.length := by
    rw [overlay, hstart, List.take_zero, List.nil_append, Nat.zero_add]
  refine ⟨b.receive (filled b.session bytes.length) (.data bytes), ?_, ?_, ?_⟩
  · show (b.session.recvMessage bytes.length false uint64Max).map _ = _
    rw [hfilled, Option.map_some]
    dsimp only
    rw [havail, hbegin]
  · rw [receive_some hregion]
    dsimp only [exposed, Recv.bytes]
    rw [hmemory, List.drop_zero, Int.toNat_natCast, List.take_left]
  · have hall : (filled b.session bytes.length).endPos ≤
        add64 (filled b.session bytes.length).beginPos bytes.length := by
      rw [hend, hbegin, add64_of_lt (by omega), Nat.zero_add]
    have hreset : ((filled b.session bytes.length).consume bytes.length).2 =
        { filled b.session bytes.length with beginPos := 0, endPos := 0 } := by
      rw [Session.consume, if_pos hall]
    rw [receive_some hregion]
    dsimp only [Buffered.consume, Recv.bytes]
    rw [hreset]
    refine ⟨⟨?_, hsmall, h.size, rfl, rfl⟩, rfl, rfl⟩
    dsimp only
    rw [overlay_length (by rw [h.array, hstart]; omega)]
    exact h.array

/-- What a `recv` that stays in the array writes is exposed as a whole, and consuming it clears the
buffer again. -/
theorem Cleared.recvMessage {b : Buffered β} (h : b.Cleared) {r : Recv β}
    (hl : b.Legal (.recvMessage r)) (hfits : ¬ b.Overruns r) :
    ∃ rt pos b', b.recvMessage r uint64Max = some (rt, pos, b') ∧
      (rt ≤ 0 ∧ b.got r = [] ∨
        0 < rt ∧ rt = (b.got r).length ∧ b'.exposed pos rt = b.got r ∧
          (b.got r).length ≤ b.session.allocated ∧ (b'.consume (b.got r).length).2.Cleared) := by
  cases hregion : b.session.recvRegion with
  | none =>
    have hzero : b.session.available uint64Max = 0 := by
      unfold Session.available
      rw [h.beginPos, h.endPos]
      rfl
    refine ⟨b.session.available uint64Max, b.session.beginPos, b.receive b.session r, ?_,
      .inl ⟨hzero.le, if_pos hregion⟩⟩
    simp only [Buffered.recvMessage, Session.recvMessage, hregion, Option.map_some]
  | some region =>
    have hgot : b.got r = r.bytes := by
      rw [got, if_neg]
      rw [hregion]
      exact Option.some_ne_none _
    rw [hgot]
    by_cases hr : r.bytes = []
    · obtain ⟨rt, hrt, hrecv⟩ := recvMessage_failed hregion (Recv.length_nonpos hr) uint64Max
      refine ⟨rt, b.session.beginPos, b.receive b.session r, ?_, .inl ⟨hrt, hr⟩⟩
      rw [Buffered.recvMessage, hrecv, Option.map_some]
    · cases r with
      | closed => exact absurd rfl hr
      | error timeout critical => exact absurd rfl hr
      | data bytes =>
        have harray : bytes.length ≤ b.session.allocated := by
          by_contra hover
          have hlong : region.1 + bytes.length ≤ b.session.allocated :=
            not_lt.mp fun hlt => hfits ⟨region, hregion, hlt⟩
          omega
        obtain ⟨b', hrecv, hexposed, hcleared, -⟩ :=
          h.received hregion (hl region hregion) harray hr
        exact ⟨_, _, b', hrecv, .inr ⟨Int.natCast_pos.mpr (List.length_pos_iff.mpr hr), rfl,
          hexposed, harray, hcleared⟩⟩

/-- A larger size makes `new char[]` throw. -/
theorem basic_lt {c : Config} {kind : Kind} {s : Session} (hnew : Session.new c kind = some s) :
    c.basic.toNat < 2^31 := by
  by_contra hlarge
  rw [Session.new, if_pos ((int32_neg_iff c.basic.toNat_lt).mpr (not_lt.mp hlarge))] at hnew
  cases hnew

theorem start_cleared {c : Config} {kind : Kind} {s : Session} (hnew : Session.new c kind = some s)
    {memory : List β} (hmemory : memory.length = s.allocated) : (start s memory).Cleared := by
  have hs := Session.new_eq hnew
  have hbasic := basic_lt hnew
  subst hs
  exact ⟨hmemory, hbasic, Session.bufferSize_lt c kind, rfl, rfl⟩

theorem Inv.delivered {b : Buffered β} (h : b.Inv) {call : BufferCall β} (hl : b.Legal call) :
    b.Delivered call := by
  cases call with
  | recvMessage r =>
    obtain ⟨rt, pos, b', hrecv, hinv, hreceived, hconsumed, _, _, hcase⟩ := h.recvMessage hl
    refine ⟨rt, pos, b', hrecv, hinv.held, ?_, fun hpos => ?_, fun hneg => ?_⟩
    · rw [unread, hreceived, hconsumed, List.drop_append_of_le_length h.consumed]
      rfl
    · obtain ⟨hneg, _⟩ | ⟨_, rfl, rfl⟩ := hcase
      · exact absurd hneg (not_le.mpr hpos)
      · exact ⟨rfl, window_exposed hinv⟩
    · obtain ⟨_, rfl, _⟩ | ⟨hpos, _⟩ := hcase
      · exact ⟨rfl, rfl⟩
      · exact absurd hpos (not_lt.mpr hneg)
  | consume n =>
    obtain ⟨hinv, hrt, hreceived, hconsumed⟩ := h.consume hl
    refine ⟨hrt, hinv.held, ?_⟩
    rw [unread, hreceived, hconsumed, ← List.drop_drop, ← unread]
    rcases Nat.le_total n b.unread.length with hle | hle
    · rw [Nat.min_eq_left hle]
    · rw [Nat.min_eq_right hle, List.drop_eq_nil_of_le le_rfl, List.drop_eq_nil_of_le hle]

theorem Inv.step {b b' : Buffered β} (h : b.Inv) {call : BufferCall β} (hl : b.Legal call)
    (hstep : b.step call = some b') : b'.Inv := by
  cases call with
  | recvMessage r =>
    obtain ⟨rt, pos, b'', hrecv, hinv, _⟩ := h.recvMessage hl
    rw [Buffered.step, hrecv, Option.map_some, Option.some.injEq] at hstep
    exact hstep ▸ hinv
  | consume n => exact Option.some.inj hstep ▸ (h.consume hl).1

theorem start_inv {c : Config} {kind : Kind} {s : Session} (hnew : Session.new c kind = some s)
    (hpos : 0 < c.bufferSize kind) (hsize : c.bufferSize kind ≤ c.basic.toNat) {memory : List β}
    (hmemory : memory.length = s.allocated) : (start s memory).Inv := by
  have hs := Session.new_eq hnew
  have hbasic := basic_lt hnew
  subst hs
  exact ⟨hpos, ⟨hsize, le_rfl, Nat.zero_le _⟩, hsize.trans_lt hbasic, hmemory, rfl, le_rfl,
    .inr ⟨rfl, rfl⟩⟩

end Buffered

/-- A session whose buffer is large enough hands on the received stream byte by byte, over every
sequence of calls. -/
theorem session_delivers_stream {c : Config} {kind : Kind} {s : Session}
    (hnew : Session.new c kind = some s) (hpos : 0 < c.bufferSize kind)
    (hsize : c.bufferSize kind ≤ c.basic.toNat) {memory : List β}
    (hmemory : memory.length = s.allocated) {calls : List (BufferCall β)}
    (hlegal : Guarded Buffered.step Buffered.Legal (.start s memory) calls) :
    Guarded Buffered.step Buffered.Delivered (.start s memory) calls := by
  have hiff : ∀ (b : Buffered β) call, b.Inv → b.Legal call → (b.Delivered call ↔ True) :=
    fun b call hb hl => iff_true_intro (hb.delivered hl)
  refine (guarded_iff hiff ?_ (Buffered.start_inv hnew hpos hsize hmemory) hlegal).mpr
    (guarded_true _ _ _)
  intro b call b' hb hl _ hstep
  exact hb.step hl hstep

theorem two_requests_delivered :
    ∃ s, Session.new .default .http = some s ∧
      Guarded Buffered.step Buffered.Legal (.start s (List.replicate 1024 0))
        [.recvMessage (.data [1, 2, 3]), .consume 2, .recvMessage .closed] ∧
      Guarded Buffered.step Buffered.Delivered (.start s (List.replicate 1024 0))
        [.recvMessage (.data [1, 2, 3]), .consume 2, .recvMessage .closed] := by
  have hnew : Session.new .default .http = some ⟨1024, 1024, 0, 0, 0⟩ :=
    Session.new_of_lt .http (by decide)
  have hlegal : Guarded Buffered.step Buffered.Legal
      (.start ⟨1024, 1024, 0, 0, 0⟩ (List.replicate 1024 0))
      [.recvMessage (.data [1, 2, 3]), .consume 2, .recvMessage .closed] := by
    refine ⟨fun region hregion => ?_, fun _ _ =>
      ⟨(by decide : 2 < 2^31), fun _ _ => ⟨fun _ _ => ?_, ?_⟩⟩⟩
    · obtain ⟨_, rfl⟩ := Session.recvRegion_eq hregion
      decide
    · exact Nat.zero_le _
    · exact fun _ _ => trivial
  exact ⟨_, hnew, hlegal, session_delivers_stream hnew (by decide) (by decide)
    List.length_replicate hlegal⟩

end MSylar.Server
