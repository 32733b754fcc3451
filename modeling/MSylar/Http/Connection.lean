import MSylar.Http.RoundTrip
import MSylar.Server.Pipeline

/-!
# Requests on a connection (httpServer.cc:60-117, 281-330)

`handleClient` with the request object that the session really has. What `recv` returns is cut in
any way, and the request that a handler is called for is the one that was sent.
-/

namespace MSylar.Http
open MSylar.Execution MSylar.Lines Server.Http

/-- `m_request` of a session. -/
def requestParser : Server.Http.Parser Char Request where
  reset := .init
  consume r bytes := ((r.consume bytes).1.toOption, (r.consume bytes).2)
  ready := Request.ready
  closes r := r.getHeader "Connection".toList = "close".toList

namespace Request

/-! ### The request object and the bytes it has used -/

/-- `bytes` have been used, and the head or the body is not complete. -/
structure Open (bytes : List Char) (s : Request) : Prop where
  waiting : s.Waiting
  agrees : ∀ y, (s.consume y).1 = .error headerLimit ∨
    Agrees (init.consume (bytes ++ y)) (shift bytes.length (s.consume y))

/-- The request is complete after `bytes`. -/
def Done (bytes : List Char) (s : Request) : Prop :=
  ∃ after, Agrees (init.consume (bytes ++ after)) (.ok bytes.length, s)

theorem init_open : Open [] init := by
  refine ⟨init_waiting, fun y => .inr ?_⟩
  rw [List.nil_append]
  rcases init.consume y with ⟨_ | n, s⟩
  · exact .refl _
  · exact ⟨congrArg Except.ok (Nat.zero_add n).symm, fun _ _ => rfl⟩

theorem shift_shift (m n : ℕ) (a : Except Fault ℕ × Request) :
    shift m (shift n a) = shift (m + n) a := by
  rcases a with ⟨_ | k, s⟩
  · rfl
  · exact congrArg (Prod.mk · s) (congrArg Except.ok (Nat.add_assoc m n k).symm)

/-- A call keeps the description, or completes the request. -/
theorem Open.consume {bytes : List Char} {s s' : Request} (h : Open bytes s) {x : List Char} {n : ℕ}
    (hx : s.consume x = (.ok n, s')) :
    s'.ready = true ∧ n ≤ x.length ∧ Done (bytes ++ x.take n) s' ∨
      s'.ready = false ∧ n = x.length ∧ Open (bytes ++ x) s' := by
  have hnil := List.append_nil x
  cases h.waiting.step x with
  | refused e _ _ hrefused =>
    rw [← hnil] at hx
    have hfirst := hrefused []
    rw [hx] at hfirst
    cases hfirst
  | exceeded hexceeded _ =>
    rw [hx] at hexceeded
    cases hexceeded
  | complete m s₁ hle hready _ hcomplete =>
    have hfirst := hcomplete []
    rw [hnil, hx] at hfirst
    cases hfirst
    refine .inl ⟨hready, hle, x.drop n, ?_⟩
    rw [List.append_assoc, List.take_append_drop, List.length_append, List.length_take,
      Nat.min_eq_left hle]
    rcases h.agrees x with hlimit | hagrees
    · rw [hx] at hlimit
      cases hlimit
    · rw [hx] at hagrees
      exact hagrees
  | pending s₁ hpending hwaiting _ hmore _ =>
    rw [hx] at hpending
    cases hpending
    refine .inr ⟨hwaiting.ready, rfl, hwaiting, fun y => ?_⟩
    rcases hmore y with hlimit | hagrees
    · exact .inl hlimit
    · rcases h.agrees (x ++ y) with hlimit | hwhole
      · left
        rw [hagrees.1, shift] at hlimit
        cases hres : (s'.consume y).1 with
        | error e =>
          rw [hres] at hlimit
          exact congrArg Except.error (Except.error.inj hlimit)
        | ok m =>
          rw [hres] at hlimit
          cases hlimit
      · right
        rw [List.append_assoc, List.length_append, ← shift_shift]
        exact hwhole.trans (hagrees.shift _)

theorem Done.of_raw {r s : Request} (h : r.Sendable) (hcost : r.headCost ≤ maxHeaderSize)
    (hdone : Done r.raw s) : s.uncounted = r.received.uncounted := by
  obtain ⟨after, hagrees⟩ := hdone
  rw [consume_raw h hcost] at hagrees
  exact (hagrees.2 _ rfl).symm

theorem received_ready {r s : Request} (h : s.uncounted = r.received.uncounted) : s.ready = true :=
  congrArg Request.ready h

theorem received_getHeader {r s : Request} (h : s.uncounted = r.received.uncounted)
    (key : List Char) : s.getHeader key = r.getHeader key := by
  have hheader := congrArg (fun t : Request => t.getHeader key) h
  exact hheader

/-! ### A request that is sent -/

/-- What the head of `r` costs is within the limit, even if every byte of it comes alone. -/
def Short (r : Request) : Prop := r.headCost + 3 * r.rawHead.length + 1 ≤ maxHeaderSize

/-- The calls so far, `m` of them in the head of `r`, have charged a separator each. -/
structure Begun (r : Request) (i : ℕ) (s : Request) : Prop extends Open (r.raw.take i) s where
  charge : ∃ m ≤ i, m ≤ r.rawHead.length ∧
    ∀ y, s.charge y ≤ init.charge (r.raw.take i ++ y) + 3 * m

theorem init_begun (r : Request) : Begun r 0 init := by
  refine ⟨init_open, 0, le_rfl, Nat.zero_le _, fun y => ?_⟩
  rw [List.take_zero, List.nil_append]
  exact Nat.le_add_right _ _

/-- The limit is not met by bytes that go on with `r`. -/
theorem Begun.within {r s : Request} {i : ℕ} (hb : Begun r i s) (h : r.Sendable) (hshort : r.Short)
    (y after : List Char) (hy : r.raw.take i ++ y <+: r.raw ++ after) :
    (s.consume y).1 ≠ .error headerLimit := by
  obtain ⟨m, _, hm, hcharge⟩ := hb.charge
  obtain ⟨rest, hrest⟩ := hy
  have hcost : r.headCost ≤ maxHeaderSize := by
    unfold Short at hshort
    omega
  have hwhole := init.charge_append_le (r.raw.take i ++ y) rest
  rw [hrest, charge_raw h hcost] at hwhole
  intro hlimit
  have hover := hb.waiting.charge_of_limit hlimit
  have hthis := hcharge y
  unfold Short at hshort
  omega

/-- A call without bytes awaits no body if none was awaited. -/
theorem Waiting.consume_nil {s : Request} (h : s.Waiting) (hneeded : s.bodyBytesNeeded = 0) :
    (s.consume []).1 = .error headerLimit ∨
      (s.consume []).1 = .ok 0 ∧ (s.consume []).2.bodyBytesNeeded = 0 := by
  obtain ⟨buf, hbuf, hcut⟩ := h.head hneeded
  rw [h.consume_eq hneeded, hbuf, Option.getD_some, List.append_nil, reader.read_none hcut]
  split_ifs
  · exact .inl rfl
  · exact .inr ⟨rfl, hneeded⟩

/-- As long as no body bytes are awaited, the head is not complete. -/
theorem Begun.in_head {r s : Request} {i : ℕ} (hb : Begun r i s) (h : r.Sendable)
    (hshort : r.Short) (hlt : i < r.raw.length) (hneeded : s.bodyBytesNeeded = 0) :
    i < r.rawHead.length := by
  by_contra hge
  have hcost : r.headCost ≤ maxHeaderSize := by
    unfold Short at hshort
    omega
  rw [raw, List.length_append] at hlt
  have htake : r.raw.take i = r.rawHead ++ r.body.take (i - r.rawHead.length) := by
    rw [raw, List.take_append, List.take_of_length_le (not_lt.mp hge)]
  have hwithin := hb.within h hshort [] [] (by simpa using List.take_prefix i r.raw)
  rcases hb.waiting.consume_nil hneeded with hlimit | ⟨hok, hzero⟩
  · exact hwithin hlimit
  rcases hb.agrees [] with hlimit | ⟨hres, hstate⟩
  · exact hwithin hlimit
  rw [List.append_nil, htake, consume_rawHead h hcost] at hres hstate
  rcases h.body with ⟨_, hbody⟩ | ⟨hsome, _, _⟩
  · rw [hbody, List.length_nil] at hlt
    omega
  · rw [if_neg hsome] at hres hstate
    have hsame := congrArg (fun t : Request => t.bodyBytesNeeded) (hstate _ rfl)
    have hleft : r.body.length - (r.body.take (i - r.rawHead.length)).length =
        (s.consume []).2.bodyBytesNeeded := hsame
    rw [hzero, List.length_take] at hleft
    omega

theorem Begun.consume {r s : Request} {i : ℕ} (hb : Begun r i s) (h : r.Sendable)
    (hshort : r.Short) (hlt : i < r.raw.length) {x : List Char} (hne : x ≠ [])
    (hfits : x <+: r.raw.drop i ∨ r.raw.drop i <+: x) :
    ∃ s', s.consume x = (.ok (min x.length (r.raw.length - i)), s') ∧
      (i + x.length < r.raw.length ∧ Begun r (i + x.length) s' ∨
        r.raw.length ≤ i + x.length ∧ s'.uncounted = r.received.uncounted) := by
  have hpos := List.length_pos_iff.mpr hne
  have hcost : r.headCost ≤ maxHeaderSize := by
    unfold Short at hshort
    omega
  obtain ⟨rest, after, hwhole, hrest⟩ : ∃ rest after, r.raw.take i ++ (x ++ rest) = r.raw ++ after ∧
      (r.raw.length ≤ i + x.length → rest = []) := by
    rcases hfits with ⟨rest, hrest⟩ | ⟨after, hafter⟩
    · refine ⟨rest, [], ?_, fun hle => ?_⟩
      · rw [hrest, List.take_append_drop, List.append_nil]
      · have hlength := congrArg List.length hrest
        rw [List.length_append, List.length_drop] at hlength
        exact List.length_eq_zero_iff.mp (by omega)
    · refine ⟨[], after, ?_, fun _ => rfl⟩
      rw [List.append_nil, ← hafter, ← List.append_assoc, List.take_append_drop]
  have hwithin : (s.consume (x ++ rest)).1 ≠ .error headerLimit :=
    hb.within h hshort (x ++ rest) after (by rw [hwhole])
  have hwithin' : (s.consume x).1 ≠ .error headerLimit := by
    refine hb.within h hshort x after ?_
    rw [← hwhole, ← List.append_assoc]
    exact List.prefix_append _ _
  have htake : (r.raw.take i).length = i := by
    rw [List.length_take, Nat.min_eq_left hlt.le]
  obtain ⟨hres, hstate⟩ := (hb.agrees (x ++ rest)).resolve_left hwithin
  rw [hwhole, consume_raw h hcost, htake] at hres hstate
  specialize hstate _ rfl
  -- what is used when all bytes are there
  have hall : ∀ n s', s.consume (x ++ rest) = (.ok n, s') →
      n = r.raw.length - i ∧ s'.uncounted = r.received.uncounted := by
    intro n s' hconsume
    rw [shift, hconsume] at hres hstate
    have hn : r.raw.length = i + n := Except.ok.inj hres
    exact ⟨by omega, hstate.symm⟩
  have hnil := List.append_nil x
  cases hb.waiting.step x with
  | refused e _ _ hrefused =>
    rw [shift, hrefused rest] at hres
    cases hres
  | exceeded hexceeded _ => exact absurd hexceeded hwithin'
  | complete n s₁ hle _ _ hcomplete =>
    obtain ⟨rfl, hreceived⟩ := hall n s₁ (hcomplete rest)
    have hfirst := hcomplete []
    rw [hnil] at hfirst
    exact ⟨s₁, by rw [hfirst, Nat.min_eq_right hle], .inr ⟨by omega, hreceived⟩⟩
  | pending s₁ hpending hwaiting _ hmore hcharge =>
    have hpart : i + x.length < r.raw.length := by
      by_contra hend
      rw [hrest (not_lt.mp hend), hnil] at hall
      have hready := received_ready (hall _ _ hpending).2
      rw [hwaiting.ready] at hready
      cases hready
    have hx : x <+: r.raw.drop i := by
      rcases hfits with hfits | hfits
      · exact hfits
      · have hlength := hfits.length_le
        rw [List.length_drop] at hlength
        omega
    have hbytes : r.raw.take (i + x.length) = r.raw.take i ++ x := by
      rw [List.take_add, ← List.prefix_iff_eq_take.mp hx]
    refine ⟨s₁, by rw [hpending, Nat.min_eq_left (by omega)], .inl ⟨hpart, ?_, ?_⟩⟩
    · rw [hbytes]
      rcases hb.toOpen.consume hpending with ⟨hready, _⟩ | ⟨_, _, hopen⟩
      · rw [hwaiting.ready] at hready
        cases hready
      · exact hopen
    · obtain ⟨m, hmi, hm, hprev⟩ := hb.charge
      rw [hbytes]
      by_cases hneeded : s.bodyBytesNeeded = 0
      · have hhead := hb.in_head h hshort hlt hneeded
        refine ⟨m + 1, by omega, by omega, fun y => ?_⟩
        have hnext := hcharge y
        have hbefore := hprev (x ++ y)
        have hfee : reader.fee = 3 := rfl
        rw [List.append_assoc]
        omega
      · refine ⟨m, by omega, hm, fun y => ?_⟩
        have hbody : s.consume x = (.ok (min s.bodyBytesNeeded x.length), s.takeBody x) :=
          consume_body hb.waiting (Nat.pos_of_ne_zero hneeded)
        rw [hpending] at hbody
        have hs₁ : s₁ = s.takeBody x := congrArg Prod.snd hbody
        have hready := hwaiting.ready
        have hleft : s₁.bodyBytesNeeded ≠ 0 := by
          rw [hs₁] at hready ⊢
          dsimp only [takeBody] at hready ⊢
          have hmore := of_decide_eq_false hready
          omega
        rw [Request.charge, if_neg hleft]
        exact Nat.zero_le _

theorem parsed_begun {r s : Request} {i : ℕ} (h : r.Sendable) (hshort : r.Short)
    (hparsed : Parsed requestParser r.raw i s) :
    i < r.raw.length ∧ Begun r i s ∨ i = r.raw.length ∧ s.uncounted = r.received.uncounted := by
  induction hparsed with
  | reset =>
    refine .inl ⟨?_, init_begun r⟩
    have hmethod := List.length_pos_iff.mpr h.method
    simp only [raw, rawHead, List.length_append]
    omega
  | @consume i s x solved s' _ hlt hne hfits hconsume ih =>
    rcases ih with ⟨_, hb⟩ | ⟨hend, _⟩
    · obtain ⟨s₁, hs₁, hnext⟩ := hb.consume h hshort hlt hne hfits
      dsimp only [requestParser] at hconsume
      rw [hs₁] at hconsume
      cases hconsume
      rcases hnext with ⟨hpart, hbegun⟩ | ⟨hall, hreceived⟩
      · rw [Nat.min_eq_left (by omega)]
        exact .inl ⟨hpart, hbegun⟩
      · rw [Nat.min_eq_right (by omega)]
        exact .inr ⟨by omega, hreceived⟩
    · omega

theorem stops_at_end {r : Request} (h : r.Sendable) (hshort : r.Short)
    (hkeep : r.getHeader "Connection".toList ≠ "close".toList) :
    StopsAtEnd requestParser r.raw := by
  refine ⟨fun i s x hparsed hlt hne hfits => ?_, fun i s hparsed => ?_, fun s hparsed => ?_⟩
  · rcases parsed_begun h hshort hparsed with ⟨_, hb⟩ | ⟨hend, _⟩
    · obtain ⟨s₁, hs₁, _⟩ := hb.consume h hshort hlt hne hfits
      dsimp only [requestParser]
      rw [hs₁]
      rfl
    · omega
  · rcases parsed_begun h hshort hparsed with ⟨hlt, hb⟩ | ⟨hend, hreceived⟩
    · refine iff_of_false (fun hready => ?_) hlt.ne
      exact absurd (hb.waiting.ready.symm.trans hready) Bool.false_ne_true
    · exact iff_of_true (received_ready hreceived) hend
  · rcases parsed_begun h hshort hparsed with ⟨hlt, _⟩ | ⟨_, hreceived⟩
    · exact absurd hlt (lt_irrefl _)
    · refine decide_eq_false fun hclose => hkeep ?_
      rw [← received_getHeader hreceived]
      exact hclose

/-! ### The request object during a connection -/

/-- What the request object of a session has been given. -/
structure Described (c : Client Char Request) : Prop where
  receiving : c.point = .receiving → Open c.current c.request
  received : ∀ total, c.point = .checking (.received total) → Done c.current c.request
  handling : c.point = .handling → c.handled.getLast? = some c.current ∧ Done c.current c.request

theorem Described.of_point {c : Client Char Request}
    (h : c.point = .checking .closed ∨ c.point = .checking .failed ∨ c.point = .closed ∨
      c.point = .rescheduled) : Described c := by
  refine ⟨fun hpoint => ?_, fun total hpoint => ?_, fun hpoint => ?_⟩
  all_goals
    rw [hpoint] at h
    rcases h with h | h | h | h <;> cases h

/-- What `parse` does: it fails, or `consume` uses some bytes and says whether that is all. -/
theorem parse_cases {β σ : Type*} (P : Server.Http.Parser β σ) (maxRequestSize : ℕ)
    (c : Client β σ) (bytes : List β) :
    (c.parse P maxRequestSize bytes).point = .checking .failed ∨
      ∃ n s', P.consume c.request bytes = (some n, s') ∧
        (c.parse P maxRequestSize bytes).current = c.current ++ bytes.take n ∧
        (c.parse P maxRequestSize bytes).request = s' ∧
        (P.ready s' = true ∧ (∃ total, (c.parse P maxRequestSize bytes).point =
            .checking (.received total)) ∨
          P.ready s' = false ∧ (c.parse P maxRequestSize bytes).point = c.point) := by
  unfold Client.parse
  rcases P.consume c.request bytes with ⟨_ | n, s'⟩
  · exact .inl rfl
  · dsimp only
    split_ifs with hlong hready
    · exact .inl rfl
    · refine .inr ⟨n, s', rfl, ?_, (Client.updateSession_request P _).1, .inl ⟨hready, _, rfl⟩⟩
      unfold Client.updateSession
      split_ifs <;> rfl
    · exact .inr ⟨n, s', rfl, rfl, rfl, .inr ⟨Bool.eq_false_iff.mpr hready, rfl⟩⟩

theorem Described.parse {c : Client Char Request} (h : Described c) (hpoint : c.point = .receiving)
    (maxRequestSize : ℕ) (bytes : List Char) :
    Described (c.parse requestParser maxRequestSize bytes) := by
  rcases parse_cases requestParser maxRequestSize c bytes with
    hfailed | ⟨n, s', hconsume, hcurrent, hrequest, hcase⟩
  · exact .of_point (.inr (.inl hfailed))
  have hused : c.request.consume bytes = (.ok n, s') := by
    dsimp only [requestParser] at hconsume
    cases hres : c.request.consume bytes with
    | mk res s₁ =>
      rw [hres, Prod.mk.injEq] at hconsume
      obtain ⟨hsome, rfl⟩ := hconsume
      cases res with
      | error e => cases hsome
      | ok m =>
        cases hsome
        rfl
  rcases hcase with ⟨hready, total, hnext⟩ | ⟨hpart, hnext⟩
  · rcases (h.receiving hpoint).consume hused with ⟨_, _, hdone⟩ | ⟨hfalse, _⟩
    · refine ⟨fun hp => ?_, fun _ _ => ?_, fun hp => ?_⟩
      · cases hnext.symm.trans hp
      · rw [hcurrent, hrequest]
        exact hdone
      · cases hnext.symm.trans hp
    · cases hready.symm.trans hfalse
  · rw [hpoint] at hnext
    rcases (h.receiving hpoint).consume hused with ⟨htrue, _⟩ | ⟨_, hn, hopen⟩
    · cases htrue.symm.trans hpart
    · refine ⟨fun _ => ?_, fun total hp => ?_, fun hp => ?_⟩
      · rw [hcurrent, hrequest, hn, List.take_length]
        exact hopen
      · cases hnext.symm.trans hp
      · cases hnext.symm.trans hp

theorem Described.recvRequest {c c' : Client Char Request} (h : Described c)
    (hpoint : c.point = .receiving) {maxRequestSize : ℕ} {r : Server.Recv Char}
    (hrecv : c.recvRequest requestParser maxRequestSize r = some c') : Described c' := by
  obtain ⟨res, _, rfl⟩ := Option.map_eq_some_iff.mp hrecv
  have hsame : Described { c with buffered := res.2.2 } :=
    ⟨h.receiving, h.received, h.handling⟩
  dsimp only
  split_ifs
  · exact .of_point (.inl rfl)
  · exact .of_point (.inr (.inl rfl))
  · exact hsame.parse hpoint maxRequestSize _

/-- A receive that has failed may be taken for a request where `errno` is `EAGAIN`. -/
theorem Described.check {c : Client Char Request} (h : Described c) {o : Outcome}
    (hpoint : c.point = .checking o) (ho : o ≠ .failed) (errno : ℤ) :
    Described (c.check o errno) := by
  have hfinish : Described c.finish := by
    rcases Client.finish_point_cases c with hclosed | hrescheduled
    · exact .of_point (.inr (.inr (.inl hclosed)))
    · exact .of_point (.inr (.inr (.inr hrescheduled)))
  have hcases : c.check o errno = c.finish ∨ ∃ total, o = .received total ∧
      c.check o errno = { c with
        isKeepAlive := c.keepAlive, point := .handling, handled := c.handled ++ [c.current] } := by
    unfold Client.check
    split_ifs with hzero
    · exact .inl rfl
    · exact .inl rfl
    · exact .inl rfl
    · cases o with
      | received total => exact .inr ⟨total, rfl, rfl⟩
      | closed => exact absurd rfl hzero
      | failed => exact absurd rfl ho
  rcases hcases with hend | ⟨total, rfl, hhandling⟩
  · exact hend ▸ hfinish
  · rw [hhandling]
    refine ⟨fun hp => ?_, fun _ hp => ?_, fun _ => ⟨List.getLast?_concat, h.received total hpoint⟩⟩
    · cases hp
    · cases hp

theorem Described.respond {c : Client Char Request} (keep : Bool) :
    Described (c.respond requestParser keep) := by
  unfold Client.respond
  dsimp only
  split_ifs
  · refine ⟨fun _ => init_open, fun _ hp => ?_, fun hp => ?_⟩
    · cases hp
    · cases hp
  · rcases Client.finish_point_cases { c with
      keepAlive := keep, isKeepAlive := keep, responseCount := c.responseCount + 1 } with
      hclosed | hrescheduled
    · exact .of_point (.inr (.inr (.inl hclosed)))
    · exact .of_point (.inr (.inr (.inr hrescheduled)))

/-! ### Requests that are sent on one connection -/

/-- A keep-alive request within the limits of the server. -/
structure Servable (maxRequestSize : ℕ) (r : Request) : Prop where
  sendable : r.Sendable
  short : r.Short
  keepAlive : r.getHeader "Connection".toList ≠ "close".toList
  limit : r.raw.length ≤ maxRequestSize
  int : r.raw.length < 2^31

theorem requests_of_servable {maxRequestSize : ℕ} {reqs : List Request}
    (hall : ∀ r ∈ reqs, r.Servable maxRequestSize) (hcount : reqs.length ≤ 999) :
    Requests requestParser maxRequestSize (reqs.map raw) := by
  have hmem : ∀ bytes ∈ reqs.map raw, ∃ r : Request, r.Servable maxRequestSize ∧ r.raw = bytes := by
    intro bytes hbytes
    obtain ⟨r, hr, hraw⟩ := List.mem_map.mp hbytes
    exact ⟨r, hall r hr, hraw⟩
  refine ⟨fun bytes hbytes => ?_, fun bytes hbytes => ?_, fun bytes hbytes => ?_,
    fun bytes hbytes => ?_, by rwa [List.length_map]⟩
  all_goals obtain ⟨r, hr, rfl⟩ := hmem bytes hbytes
  · exact stops_at_end hr.sendable hr.short hr.keepAlive
  · rcases parsed_begun hr.sendable hr.short .reset with ⟨hlt, _⟩ | ⟨_, hreceived⟩
    · exact List.length_pos_iff.mp hlt
    · cases received_ready hreceived
  · exact hr.limit
  · exact hr.int

theorem recv_client {maxRequestSize k : ℕ} {w w' : Net Char Request}
    (h : w.step requestParser maxRequestSize (.recv k) = some w') :
    ∃ r, w.client.recvRequest requestParser maxRequestSize r = some w'.client := by
  have hpoint := (Net.step_recv h).1
  have hclient : ∀ {r : Server.Recv Char} {f : Client Char Request → Net Char Request},
      (∀ c, (f c).client = c) →
      (w.client.step requestParser maxRequestSize (.recv r)).map f = some w' →
        w.client.recvRequest requestParser maxRequestSize r = some w'.client := by
    intro r f hf hstep
    obtain ⟨c, hc, rfl⟩ := Option.map_eq_some_iff.mp hstep
    rw [Client.step, if_pos hpoint] at hc
    rw [hc, hf]
  cases hregion : w.client.buffered.session.recvRegion with
  | none =>
    simp only [Net.step, hregion] at h
    exact ⟨_, hclient (fun _ => rfl) h⟩
  | some region =>
    simp only [Net.step, hregion] at h
    split_ifs at h
    · exact ⟨_, hclient (fun _ => rfl) h⟩
    · exact ⟨_, hclient (fun _ => rfl) h⟩

/-- The invariant of a connection, with what the request object holds. -/
theorem described_step {maxRequestSize : ℕ} {reqs : List (List Char)}
    (hall : Requests requestParser maxRequestSize reqs) {w w' : Net Char Request} {a : NetAction}
    (h : Net.Inv requestParser reqs w ∧ Described w.client)
    (hstep : w.step requestParser maxRequestSize a = some w') :
    Net.Inv requestParser reqs w' ∧ Described w'.client := by
  obtain ⟨hinv, hdesc⟩ := h
  refine ⟨(hinv.step hall hstep).1, ?_⟩
  cases a with
  | recv k =>
    obtain ⟨r, hrecv⟩ := recv_client hstep
    exact hdesc.recvRequest (Net.step_recv hstep).1 hrecv
  | check errno =>
    obtain ⟨c, hc, rfl⟩ := Option.map_eq_some_iff.mp hstep
    cases hpoint : w.client.point with
    | checking o =>
      simp only [Client.step, hpoint, Option.some.injEq] at hc
      have ho : o ≠ .failed := by
        rintro rfl
        cases hinv.phase with
        | idle hpoint' => cases hpoint.symm.trans hpoint'
        | reading _ _ hreading => cases hpoint.symm.trans hreading.point
        | received _ hpoint' => cases hpoint.symm.trans hpoint'
        | handling _ hpoint' => cases hpoint.symm.trans hpoint'
        | ended _ hpoint' => rcases hpoint' with hpoint' | hpoint' <;> cases hpoint.symm.trans hpoint'
      exact hc ▸ hdesc.check hpoint ho errno
    | _ =>
      simp only [Client.step, hpoint] at hc
      cases hc
  | respond =>
    obtain ⟨c, hc, rfl⟩ := Option.map_eq_some_iff.mp hstep
    simp only [Client.step, Option.ite_none_right_eq_some, Option.some.injEq] at hc
    obtain ⟨_, rfl⟩ := hc
    exact .respond _

/-- Every run ends, with the connection closed, and calls the handlers for the requests in order,
each time with the request that was sent. -/
theorem requests_served {c : Server.Config} {s : Server.Session}
    (hnew : Server.Session.new c .http = some s) (hpos : 0 < c.bufferSize .http)
    (hsize : c.bufferSize .http ≤ c.basic.toNat) {memory : List Char}
    (hmemory : memory.length = s.allocated) {maxRequestSize : ℕ} {reqs : List Request}
    (hall : ∀ r ∈ reqs, r.Servable maxRequestSize) (hcount : reqs.length ≤ 999)
    {actions : List NetAction} {w : Net Char Request}
    (hrun : exec (Net.step requestParser maxRequestSize)
      (.start requestParser (.start s memory) (reqs.map raw).flatten) actions = some w) :
    actions.length ≤ 6 * (reqs.map raw).flatten.length + 2 ∧
      w.client.handled <+: reqs.map raw ∧
      (w.client.point = .handling → ∃ r, reqs[w.client.handled.length - 1]? = some r ∧
        w.client.request.uncounted = r.received.uncounted) ∧
      ((∀ a, w.step requestParser maxRequestSize a = none) → w.client.point = .closed) ∧
      (w.client.point = .closed →
        (w.client.handled = reqs.map raw ↔ Timely (reqs.map raw) 0 w.recvs)) := by
  have hreqs := requests_of_servable hall hcount
  have hstart : Net.Inv requestParser (reqs.map raw)
      (.start requestParser (.start s memory) (reqs.map raw).flatten) :=
    Net.start_net_inv hreqs (Server.Buffered.start_inv hnew hpos hsize hmemory)
  have hdesc : Described (.start requestParser (.start s memory)) := by
    refine ⟨fun _ => init_open, fun _ hp => ?_, fun hp => ?_⟩
    · cases hp
    · cases hp
  obtain ⟨hinv, hwork⟩ := hstart.run hreqs hrun
  have hdescribed := (exec_invariant (fun _ _ _ h hstep => described_step hreqs h hstep)
    ⟨hstart, hdesc⟩ hrun).2
  refine ⟨?_, hinv.handled_prefix, fun hpoint => ?_, hinv.progress hreqs, hinv.all_handled_iff⟩
  · have hwork' : (Net.start requestParser (.start s memory) (reqs.map raw).flatten).work =
        6 * (reqs.map raw).flatten.length + 2 := by
      show 3 * (2 * (reqs.map raw).flatten.length + 0) + 2 = _
      omega
    omega
  · obtain ⟨hlast, hdone⟩ := hdescribed.handling hpoint
    have hindex : (reqs.map raw)[w.client.handled.length - 1]? = some w.client.current := by
      rw [List.getLast?_eq_getElem?] at hlast
      obtain ⟨rest, hrest⟩ := hinv.handled_prefix
      rw [← hrest]
      exact List.getElem?_append_left (List.getElem?_eq_some_iff.mp hlast).1 ▸ hlast
    rw [List.getElem?_map, Option.map_eq_some_iff] at hindex
    obtain ⟨r, hr, hraw⟩ := hindex
    have hservable := hall r (List.mem_of_getElem? hr)
    refine ⟨r, hr, Done.of_raw hservable.sendable ?_ (hraw ▸ hdone)⟩
    have hshort := hservable.short
    unfold Short at hshort
    omega

def twoPosts : List Request :=
  ["hello".toList, "world".toList].map fun value =>
    { simplePost with toParser := simplePost.setBody value }

theorem twoPosts_servable : ∀ r ∈ twoPosts, r.Servable 10485760 := by
  have hall : ∀ r ∈ twoPosts, ∃ value : List Char, value.length ≤ maxBodySize ∧
      r = { simplePost with toParser := simplePost.setBody value } ∧ r.Short ∧
      r.getHeader "Connection".toList ≠ "close".toList ∧ r.raw.length ≤ 10485760 := by
    intro r hr
    rcases List.mem_pair.mp hr with rfl | rfl
    · exact ⟨_, by decide, rfl, by unfold Short; decide +kernel, by decide, by decide +kernel⟩
    · exact ⟨_, by decide, rfl, by unfold Short; decide +kernel, by decide, by decide +kernel⟩
  intro r hr
  obtain ⟨value, hmax, rfl, hshort, hkeep, hlimit⟩ := hall r hr
  exact ⟨simplePost_sendable.setBody hmax, hshort, hkeep, hlimit, by omega⟩

theorem second_post_served :
    ∃ w, exec (Net.step requestParser 10485760) (.start requestParser
        (.start ⟨1024, 1024, 0, 0, 0⟩ (List.replicate 1024 ' ')) (twoPosts.map raw).flatten)
        [.recv 20, .recv 60, .check 0, .respond, .recv 20, .recv 12, .check 0] = some w ∧
      w.client.point = .handling ∧ w.client.request.body = "world".toList := by
  have hlast : (exec (Net.step requestParser 10485760) (.start requestParser
      (.start ⟨1024, 1024, 0, 0, 0⟩ (List.replicate 1024 ' ')) (twoPosts.map raw).flatten)
      [.recv 20, .recv 60, .check 0, .respond, .recv 20, .recv 12, .check 0]).map
        (fun w => (w.client.point, w.client.handled.length)) = some (.handling, 2) := by
    decide +kernel
  obtain ⟨w, hrun, hw⟩ := Option.map_eq_some_iff.mp hlast
  rw [Prod.mk.injEq] at hw
  obtain ⟨hpoint, hhandled⟩ := hw
  obtain ⟨_, _, hserved, _⟩ := requests_served (Server.Session.new_of_lt .http (by decide) :
    Server.Session.new .default .http = _) (by decide) (by decide) List.length_replicate
    twoPosts_servable (by decide) hrun
  obtain ⟨r, hr, hrequest⟩ := hserved hpoint
  rw [hhandled] at hr
  cases hr
  exact ⟨w, hrun, hpoint, congrArg (fun t : Request => t.body) hrequest⟩

/-- One `recv` returns both requests, and the connection is closed with the second one in the
buffer. -/
theorem second_post_lost :
    ¬ ∀ actions w, exec (Net.step requestParser 10485760) (.start requestParser
        (.start ⟨1024, 1024, 0, 0, 0⟩ (List.replicate 1024 ' ')) (twoPosts.map raw).flatten)
        actions = some w → w.client.point = .closed → w.client.handled = twoPosts.map raw := by
  intro hall
  have hlast : (exec (Net.step requestParser 10485760) (.start requestParser
      (.start ⟨1024, 1024, 0, 0, 0⟩ (List.replicate 1024 ' ')) (twoPosts.map raw).flatten)
      [.recv 112, .check 0, .respond, .recv 0, .check 0]).map
        (fun w => (w.client.point, w.client.handled.length)) = some (.closed, 1) := by
    decide +kernel
  obtain ⟨w, hrun, hw⟩ := Option.map_eq_some_iff.mp hlast
  rw [Prod.mk.injEq] at hw
  have hlength := congrArg List.length (hall _ w hrun hw.1)
  rw [hw.2] at hlength
  exact absurd hlength (by decide)

/-- An empty line is no request: `consume` throws, and with `EAGAIN` left in `errno` the handler is
called all the same. -/
theorem empty_line_handled :
    ¬ ∀ actions, Guarded (Client.step requestParser 4096) (Client.Proper requestParser)
      (.start requestParser (.start ⟨1024, 1024, 0, 0, 0⟩ (List.replicate 1024 ' '))) actions := by
  intro hall
  obtain ⟨_, hchecked⟩ := hall [.recv (.data ['\r', '\n']), .check eagain]
  obtain ⟨hproper, _⟩ := hchecked _ rfl
  have hready := (hproper .failed rfl).1 rfl
  exact absurd hready (by decide)

end Request

end MSylar.Http
