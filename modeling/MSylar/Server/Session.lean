import Mathlib.Tactic.NormNum
import MSylar.Lib.Execution
import MSylar.Lib.Word

/-!
# Receive buffer of a session (session.cc:6-129, session.hpp:32, httpServer.cc:28-40,
wsserver.cc:73-81)

`Session` allocates its buffer with the size configured for the basic server; `HttpSession` and
`WsSession` then set the size up to which the buffer is filled from their own configuration.
-/

namespace MSylar.Server
open MSylar.Execution MSylar.Word

structure Config where
  basic : UInt32
  http : UInt32
  websocket : UInt32

def Config.default : Config := ⟨1024, 1024, 4096⟩

inductive Kind where
  | http
  | websocket

def Config.bufferSize (c : Config) : Kind → ℕ
  | .http => c.http.toNat
  | .websocket => c.websocket.toNat

structure Session where
  allocated : ℕ
  bufferSize : ℕ
  beginPos : ℕ
  endPos : ℕ
  totalReceived : ℕ
  deriving DecidableEq

namespace Session

/-- The constructors; `new char[buffer_size]` with a negative `int` throws. -/
def new (c : Config) (kind : Kind) : Option Session :=
  if int32 c.basic.toNat < 0 then none
  else some ⟨(int32 c.basic.toNat).toNat, c.bufferSize kind, 0, 0, 0⟩

def recvRegion (s : Session) : Option (ℕ × ℕ) :=
  if s.endPos < s.bufferSize then some (s.endPos, s.bufferSize - s.endPos) else none

def available (s : Session) (length : ℕ) : ℤ :=
  let rtLength := int32 (sub64 s.endPos s.beginPos)
  if (rtLength % 2^64).toNat < length then rtLength else int32 length

/-- `recvLen` is the result of `recv` where it is called, and `critical` says whether `errno` is
one of the important errors. `none` is the failed assertion. -/
def recvMessage (s : Session) (recvLen : ℤ) (critical : Bool) (length : ℕ) :
    Option (ℤ × Session) :=
  match s.recvRegion with
  | none => some (s.available length, s)
  | some _ =>
    if recvLen = 0 then some (0, s)
    else if recvLen = -1 ∨ recvLen = -2 then some (if critical then -1 else -2, s)
    else
      let t := { s with
        totalReceived := ((s.totalReceived + recvLen) % 2^64).toNat
        endPos := ((s.endPos + recvLen) % 2^64).toNat }
      if t.endPos ≤ t.bufferSize then some (t.available length, t) else none

def consume (s : Session) (length : ℕ) : ℕ × Session :=
  let beginPos := add64 s.beginPos length
  if s.endPos ≤ beginPos then
    (sub64 length (beginPos - s.endPos), { s with beginPos := 0, endPos := 0 })
  else (length, { s with beginPos := beginPos })

end Session

inductive SessionCall where
  | recvMessage (recvLen : ℤ) (critical : Bool) (length : ℕ)
  | consume (length : ℕ)

namespace Session

def step (s : Session) : SessionCall → Option Session
  | .recvMessage recvLen critical length =>
    (s.recvMessage recvLen critical length).map Prod.snd
  | .consume length => some (s.consume length).2

/-- `recv` returns at most as many bytes as it was asked for, and `-1` or `-2` for an error. -/
def Legal (s : Session) : SessionCall → Prop
  | .recvMessage recvLen _ _ => ∀ r, s.recvRegion = some r → -2 ≤ recvLen ∧ recvLen ≤ r.2
  | .consume _ => True

structure InBounds (s : Session) : Prop where
  size : s.bufferSize ≤ s.allocated
  consumed : s.beginPos ≤ s.endPos
  received : s.endPos ≤ s.bufferSize

/-- The region given to `recv` lies in the array, and the positions are in order before and after
the call. -/
def Safe (s : Session) : SessionCall → Prop
  | .recvMessage recvLen critical length => s.InBounds ∧
      (∀ r, s.recvRegion = some r → r.1 + r.2 ≤ s.allocated) ∧
      ∃ rt t, s.recvMessage recvLen critical length = some (rt, t) ∧ t.InBounds
  | .consume length => s.InBounds ∧ (s.consume length).2.InBounds

/-! ### One call -/

theorem recvRegion_eq {s : Session} {r : ℕ × ℕ} (h : s.recvRegion = some r) :
    s.endPos < s.bufferSize ∧ r = (s.endPos, s.bufferSize - s.endPos) := by
  unfold recvRegion at h
  split at h
  · exact ⟨‹_›, (Option.some.inj h).symm⟩
  · cases h

def Inv (s : Session) : Prop := s.InBounds ∧ s.bufferSize < 2^32

theorem Inv.recvMessage {s : Session} (h : s.Inv) {recvLen : ℤ} (critical : Bool) (length : ℕ)
    (hl : s.Legal (.recvMessage recvLen critical length)) :
    ∃ rt t, s.recvMessage recvLen critical length = some (rt, t) ∧ t.Inv := by
  have hreceived := h.1.received
  have hconsumed := h.1.consumed
  have hsize := h.2
  unfold Session.recvMessage
  cases hregion : s.recvRegion with
  | none => exact ⟨_, s, rfl, h⟩
  | some r =>
    obtain ⟨hroom, rfl⟩ := recvRegion_eq hregion
    have hlen := hl _ hregion
    dsimp only at hlen ⊢
    by_cases hzero : recvLen = 0
    · rw [if_pos hzero]
      exact ⟨_, s, rfl, h⟩
    by_cases herror : recvLen = -1 ∨ recvLen = -2
    · rw [if_neg hzero, if_pos herror]
      exact ⟨_, s, rfl, h⟩
    have hend : ((s.endPos + recvLen) % 2^64).toNat = s.endPos + recvLen.toNat := by omega
    have hbegin : s.beginPos ≤ s.endPos + recvLen.toNat := by omega
    have hfill : s.endPos + recvLen.toNat ≤ s.bufferSize := by omega
    rw [if_neg hzero, if_neg herror, hend, if_pos hfill]
    exact ⟨_, _, rfl, ⟨h.1.size, hbegin, hfill⟩, hsize⟩

theorem Inv.consume {s : Session} (h : s.Inv) (length : ℕ) : (s.consume length).2.Inv := by
  have hreceived := h.1.received
  unfold Session.consume
  dsimp only
  split_ifs with hall
  · exact ⟨⟨h.1.size, le_rfl, Nat.zero_le _⟩, h.2⟩
  · exact ⟨⟨h.1.size, (not_le.mp hall).le, hreceived⟩, h.2⟩

theorem Inv.safe {s : Session} (h : s.Inv) {call : SessionCall} (hl : s.Legal call) :
    s.Safe call := by
  cases call with
  | recvMessage recvLen critical length =>
    refine ⟨h.1, fun r hr => ?_, ?_⟩
    · obtain ⟨hroom, rfl⟩ := recvRegion_eq hr
      have hsize := h.1.size
      show s.endPos + (s.bufferSize - s.endPos) ≤ s.allocated
      omega
    · obtain ⟨rt, t, ht, hinv⟩ := h.recvMessage critical length hl
      exact ⟨rt, t, ht, hinv.1⟩
  | consume length => exact ⟨h.1, (h.consume length).1⟩

theorem Inv.step {s t : Session} (h : s.Inv) {call : SessionCall} (hl : s.Legal call)
    (hstep : s.step call = some t) : t.Inv := by
  cases call with
  | recvMessage recvLen critical length =>
    obtain ⟨rt, t', ht', hinv⟩ := h.recvMessage critical length hl
    rw [Session.step, ht', Option.map_some, Option.some.injEq] at hstep
    exact hstep ▸ hinv
  | consume length => exact Option.some.inj hstep ▸ h.consume length

theorem Inv.safe_run {s : Session} (h : s.Inv) {calls : List SessionCall}
    (hlegal : Guarded Session.step Session.Legal s calls) :
    Guarded Session.step Session.Safe s calls := by
  have hiff : ∀ t call, Inv t → t.Legal call → (t.Safe call ↔ True) :=
    fun t call ht hl => iff_true_intro (ht.safe hl)
  refine (guarded_iff hiff ?_ h hlegal).mpr (guarded_true _ _ _)
  intro t call t' ht hl _ hstep
  exact ht.step hl hstep

theorem new_of_lt {c : Config} (kind : Kind) (h : c.basic.toNat < 2^31) :
    new c kind = some ⟨c.basic.toNat, c.bufferSize kind, 0, 0, 0⟩ := by
  have hint := int32_of_lt h
  rw [new, hint, if_neg (by omega), Int.toNat_natCast]

theorem new_eq {c : Config} {kind : Kind} {s : Session} (h : new c kind = some s) :
    s = ⟨c.basic.toNat, c.bufferSize kind, 0, 0, 0⟩ := by
  by_cases hbasic : c.basic.toNat < 2^31
  · rw [new_of_lt kind hbasic] at h
    exact (Option.some.inj h).symm
  · rw [new, if_pos ((int32_neg_iff c.basic.toNat_lt).mpr (not_lt.mp hbasic))] at h
    cases h

theorem bufferSize_lt (c : Config) (kind : Kind) : c.bufferSize kind < 2^32 := by
  cases kind with
  | http => exact c.http.toNat_lt
  | websocket => exact c.websocket.toNat_lt

end Session

/-- A session stays inside its array over every sequence of calls exactly if the size configured
for its kind is not larger than the one configured for the basic server. -/
theorem recv_in_bounds_iff {c : Config} {kind : Kind} {s : Session}
    (hnew : Session.new c kind = some s) {calls : List SessionCall}
    (hlegal : Guarded Session.step Session.Legal s calls) :
    s.InBounds ∧ Guarded Session.step Session.Safe s calls ↔
      c.bufferSize kind ≤ c.basic.toNat := by
  have hs := Session.new_eq hnew
  constructor
  · rintro ⟨hbounds, _⟩
    have hsize := hbounds.size
    rwa [hs] at hsize
  · intro hle
    have hinv : s.Inv := by
      rw [hs]
      exact ⟨⟨hle, le_rfl, Nat.zero_le _⟩, Session.bufferSize_lt c kind⟩
    exact ⟨hinv.1, hinv.safe_run hlegal⟩

theorem http_session_in_bounds :
    ∃ s, Session.new .default .http = some s ∧
      Guarded Session.step Session.Legal s [.recvMessage 300 false 1024, .consume 200] ∧
      Guarded Session.step Session.Safe s [.recvMessage 300 false 1024, .consume 200] := by
  have hnew : Session.new .default .http = some ⟨1024, 1024, 0, 0, 0⟩ :=
    Session.new_of_lt .http (by decide)
  have hlegal : Guarded Session.step Session.Legal ⟨1024, 1024, 0, 0, 0⟩
      [.recvMessage 300 false 1024, .consume 200] := by
    refine ⟨fun r hr => ?_, fun _ _ => ⟨trivial, fun _ _ => trivial⟩⟩
    obtain ⟨_, rfl⟩ := Session.recvRegion_eq hr
    norm_num
  exact ⟨_, hnew, hlegal, ((recv_in_bounds_iff hnew hlegal).mpr (by decide)).2⟩

/-- With the default configuration a WebSocket session gives `recv` a region past its array. -/
theorem default_websocket_out_of_bounds :
    ¬ ∀ (c : Config) (kind : Kind) (s : Session) (calls : List SessionCall),
      Session.new c kind = some s → Guarded Session.step Session.Legal s calls →
      s.InBounds ∧ Guarded Session.step Session.Safe s calls := by
  intro hall
  have hlegal : Guarded Session.step Session.Legal ⟨1024, 4096, 0, 0, 0⟩
      [.recvMessage 4096 false 4096] := by
    refine ⟨fun r hr => ?_, fun _ _ => trivial⟩
    obtain ⟨_, rfl⟩ := Session.recvRegion_eq hr
    norm_num
  obtain ⟨_, ⟨_, hregion, _⟩, _⟩ := hall .default .websocket _ _
    (Session.new_of_lt .websocket (by decide)) hlegal
  exact absurd (hregion (0, 4096) (by decide)) (by decide)

end MSylar.Server
