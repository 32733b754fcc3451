import Mathlib.Data.List.Basic
import Mathlib.Data.List.Infix
import MSylar.Lib.Execution
import MSylar.Lib.Word

/-!
# Sending a response (httpServer.cc:157-177, wsserver.cc:321-342)

The loop of `co_sendResp` gets one result of `send` after another; `send` is given what is
left of the response. The results are what the socket returned, so `accepted` is what the
other side can read.
-/

namespace MSylar.Server
open MSylar.Execution MSylar.Word
variable {β : Type*}

def epipe : ℤ := 32

/-- What `sendMessage` returned, and `errno` after it. -/
structure Sent where
  count : ℤ
  errno : ℤ
  deriving DecidableEq

/-- The locals of `co_sendResp`, the bytes that the socket has taken and the result. -/
structure SendResp (β : Type*) where
  resp : List β
  offset : ℤ
  accepted : List β
  returned : Option ℤ
  deriving DecidableEq

namespace SendResp

/-- The head of the loop; the result is an `int`. -/
def loop (s : SendResp β) : SendResp β :=
  if s.offset < s.resp.length then s else { s with returned := some (int32 s.resp.length) }

def start (resp : List β) : SendResp β := loop ⟨resp, 0, [], none⟩

/-- `send` fails, or takes at least one byte of those it is offered. -/
def Legal (s : SendResp β) (r : Sent) : Prop :=
  r.count = -1 ∨ 1 ≤ r.count ∧ r.count ≤ s.resp.length - s.offset

instance (s : SendResp β) (r : Sent) : Decidable (s.Legal r) :=
  inferInstanceAs (Decidable (_ ∨ _))

/-- One round of the loop, for the result `r`. -/
def round (s : SendResp β) (r : Sent) : SendResp β :=
  let taken := { s with
    accepted := s.accepted ++ (s.resp.drop s.offset.toNat).take r.count.toNat }
  let sendSize := int32 r.count
  if sendSize = -1 ∧ r.errno = epipe then { taken with returned := some (int32 s.resp.length) }
  else if sendSize = -1 then { taken with returned := some (-1) }
  else loop { taken with offset := s.offset + sendSize }

def step (s : SendResp β) (r : Sent) : Option (SendResp β) :=
  if s.returned = none ∧ s.Legal r then some (s.round r) else none

end SendResp

/-- The end of `WsServer::handShake`; `opening` says that the request was an opening frame, and
`rt` is what `co_sendResp` returned. -/
def handShake (opening : Bool) (rt : ℤ) : ℤ :=
  if opening then if rt = -1 then -1 else 0 else -1

namespace SendResp

/-- The socket has taken a prefix of the response, and the result tells whether it is all. -/
structure Reports (resp : List β) (s : SendResp β) : Prop where
  taken : s.accepted <+: resp
  whole : s.returned = some (resp.length : ℤ) ↔ s.accepted = resp
  failed : ∀ rt ∈ s.returned, s.accepted ≠ resp → rt = -1
  handshake : ∀ rt ∈ s.returned, ∀ opening, handShake opening rt = 0 → s.accepted = resp

/-- The call is in its loop, at a position of the response. -/
structure Sending (resp : List β) (s : SendResp β) : Prop where
  same : s.resp = resp
  nonneg : 0 ≤ s.offset
  left : s.offset < resp.length
  accepted : s.accepted = resp.take s.offset.toNat
  running : s.returned = none

variable {resp : List β} {s t : SendResp β}

theorem Sending.not_whole (h : Sending resp s) : s.accepted ≠ resp := by
  intro heq
  have hlen := congrArg List.length heq
  have hnonneg := h.nonneg
  have hleft := h.left
  rw [h.accepted, List.length_take] at hlen
  omega

theorem Sending.reports (h : Sending resp s) : Reports resp s where
  taken := h.accepted ▸ List.take_prefix _ _
  whole := by simp [h.running, h.not_whole]
  failed := by simp [h.running]
  handshake := by simp [h.running]

theorem exec_returned {rt : ℤ} (h : s.returned = some rt) {sends : List Sent}
    (hrun : exec step s sends = some t) : sends = [] ∧ t = s := by
  cases sends with
  | nil =>
    rw [exec, Option.some.injEq] at hrun
    exact ⟨rfl, hrun.symm⟩
  | cons r sends =>
    obtain ⟨u, hu, -⟩ := exec_cons hrun
    simp [step, h] at hu

/-! ### One round -/

/-- A call that has returned with all bytes taken. -/
structure Complete (resp : List β) (s : SendResp β) : Prop where
  accepted : s.accepted = resp
  returned : s.returned = some (resp.length : ℤ)

theorem Complete.reports (h : Complete resp s) : Reports resp s where
  taken := by rw [h.accepted]
  whole := by simp [h.returned, h.accepted]
  failed := by simp [h.accepted]
  handshake := by simp [h.accepted]

/-- The head of the loop goes on, or returns with all bytes taken. -/
theorem loop_spec (hresp : resp.length < 2^31) (hsame : s.resp = resp) (hnonneg : 0 ≤ s.offset)
    (hle : s.offset ≤ resp.length) (hacc : s.accepted = resp.take s.offset.toNat)
    (hrunning : s.returned = none) : Sending resp s.loop ∨ Complete resp s.loop := by
  unfold loop
  rw [hsame]
  by_cases hlt : s.offset < resp.length
  · rw [if_pos hlt]
    exact Or.inl ⟨hsame, hnonneg, hlt, hacc, hrunning⟩
  · rw [if_neg hlt]
    refine Or.inr ⟨?_, by rw [int32_of_lt hresp]⟩
    exact hacc.trans (List.take_of_length_le (by omega))

/-- What a round leaves behind: the call goes on, or has returned in one of three ways. -/
theorem round_spec (hresp : resp.length < 2^31) (hs : Sending resp s) {r : Sent}
    (hlegal : s.Legal r) :
    (r.count ≠ -1 ∧ (Sending resp (s.round r) ∨ Complete resp (s.round r))) ∨
      r.count = -1 ∧ (s.round r).accepted = s.accepted ∧
        (s.round r).returned = some (if r.errno = epipe then (resp.length : ℤ) else -1) := by
  have hnonneg := hs.nonneg
  have hleft := hs.left
  unfold Legal at hlegal
  rw [hs.same] at hlegal
  by_cases hfail : r.count = -1
  · refine Or.inr ⟨hfail, ?_⟩
    have hminus : int32 (-1) = -1 := by decide
    unfold round
    by_cases herrno : r.errno = epipe
    · simp [hfail, hminus, herrno, hs.same, int32_of_lt hresp]
    · simp [hfail, hminus, herrno]
  · refine Or.inl ⟨hfail, ?_⟩
    obtain ⟨n, hn⟩ := Int.eq_ofNat_of_zero_le (show 0 ≤ r.count by omega)
    have hsize : int32 r.count = r.count := by rw [hn, int32_of_lt (by omega)]
    have hround : s.round r = loop { s with
        accepted := s.accepted ++ (s.resp.drop s.offset.toNat).take r.count.toNat
        offset := s.offset + r.count } := by
      unfold round
      simp only [hsize, hfail, false_and, if_false]
    rw [hround]
    refine loop_spec hresp hs.same (show 0 ≤ s.offset + r.count by omega)
      (show s.offset + r.count ≤ resp.length by omega) ?_ hs.running
    show s.accepted ++ _ = _
    rw [hs.accepted, hs.same, ← List.take_add, ← Int.toNat_add hnonneg (by omega)]

theorem step_inv {r : Sent} (h : step s r = some t) : s.Legal r ∧ t = s.round r := by
  unfold step at h
  split at h
  · rename_i hr
    exact ⟨hr.2, (Option.some.inj h).symm⟩
  · cases h

/-! ### The whole call -/

/-- No result says that the other side has closed the connection. -/
def NoPipe (sends : List Sent) : Prop := ∀ r ∈ sends, ¬(r.count = -1 ∧ r.errno = epipe)

theorem run_spec (hresp : resp.length < 2^31) {sends : List Sent} (hs : Sending resp s)
    (hrun : exec step s sends = some t) : Reports resp t ↔ NoPipe sends := by
  induction sends generalizing s with
  | nil =>
    rw [exec, Option.some.injEq] at hrun
    exact iff_of_true (hrun ▸ hs.reports) (by simp [NoPipe])
  | cons r sends ih =>
    obtain ⟨u, hu, hrest⟩ := exec_cons hrun
    obtain ⟨hlegal, rfl⟩ := step_inv hu
    have hcons : NoPipe (r :: sends) ↔ ¬(r.count = -1 ∧ r.errno = epipe) ∧ NoPipe sends :=
      List.forall_mem_cons
    rcases round_spec hresp hs hlegal with ⟨hok, hsending | hcomplete⟩ | ⟨hfail, hacc, hret⟩
    · rw [ih hsending hrest, hcons]
      simp [hok]
    · obtain ⟨rfl, rfl⟩ := exec_returned hcomplete.returned hrest
      refine iff_of_true hcomplete.reports (hcons.mpr ⟨fun h => hok h.1, by simp [NoPipe]⟩)
    · obtain ⟨rfl, rfl⟩ := exec_returned hret hrest
      have hpart : (s.round r).accepted ≠ resp := hacc ▸ hs.not_whole
      by_cases hpipe : r.errno = epipe
      · rw [if_pos hpipe] at hret
        refine iff_of_false (fun h => ?_) (fun h => (hcons.mp h).1 ⟨hfail, hpipe⟩)
        exact hpart (h.whole.mp hret)
      · rw [if_neg hpipe] at hret
        refine iff_of_true ⟨hacc ▸ hs.reports.taken, ?_, ?_, ?_⟩
          (hcons.mpr ⟨fun h => hpipe h.2, by simp [NoPipe]⟩)
        · rw [hret, Option.some.injEq]
          exact iff_of_false (by omega) hpart
        · rintro rt hrt -
          rw [hret, Option.mem_some] at hrt
          exact hrt.symm
        · rintro rt hrt opening hdone
          rw [hret, Option.mem_some] at hrt
          subst hrt
          simp [handShake] at hdone

theorem start_spec (hresp : resp.length < 2^31) :
    Sending resp (start resp) ∨ Complete resp (start resp) :=
  loop_spec hresp rfl le_rfl (Int.natCast_nonneg _) rfl rfl

theorem coSendResp_reports_iff (resp : List β) (hresp : resp.length < 2^31) (sends : List Sent)
    (s : SendResp β) (hrun : exec step (start resp) sends = some s) :
    Reports resp s ↔ NoPipe sends := by
  rcases start_spec hresp with hsending | hcomplete
  · exact run_spec hresp hsending hrun
  · obtain ⟨rfl, rfl⟩ := exec_returned hcomplete.returned hrun
    exact iff_of_true hcomplete.reports (by simp [NoPipe])

theorem timed_out_send_reports :
    ∃ s, exec step (start [1, 2, 3]) [⟨2, 0⟩, ⟨-1, 110⟩] = some s ∧ s.returned = some (-1) ∧
      Reports [1, 2, 3] s :=
  ⟨⟨[1, 2, 3], 2, [1, 2], some (-1)⟩, by decide +kernel, rfl,
    (coSendResp_reports_iff [1, 2, 3] (by decide) [⟨2, 0⟩, ⟨-1, 110⟩] _ (by decide +kernel)).mpr
      (by simp [NoPipe, epipe])⟩

/-- Nothing was sent, and the handshake counts as done. -/
theorem broken_pipe_is_success :
    ∃ s, exec step (start [1, 2, 3]) [⟨-1, epipe⟩] = some s ∧ s.accepted = [] ∧
      s.returned = some 3 ∧ handShake true 3 = 0 ∧ ¬Reports [1, 2, 3] s := by
  refine ⟨⟨[1, 2, 3], 0, [], some 3⟩, by decide +kernel, rfl, rfl, rfl, fun h => ?_⟩
  have hwhole := h.whole.mp rfl
  exact absurd hwhole (by decide)

end SendResp

end MSylar.Server
