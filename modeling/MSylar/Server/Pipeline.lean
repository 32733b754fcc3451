import MSylar.Server.Http

/-!
# Requests that arrive on one connection (httpServer.cc:60-117, 281-330; session.cc:75-129)

The client sends `reqs` and then the end of the stream, and `recv` cuts the bytes into chunks as it
likes. `recvMessage` waits in `recv` before it hands out bytes that are already in the buffer, so a
complete request may still be in the buffer when the end of the stream is met.
-/

namespace MSylar.Server.Http
open MSylar.Execution MSylar.Word
variable {β σ : Type*}

/-- The request object after the first `i` bytes of `r`, given to it in chunks of which the last one
may go on with other bytes. -/
inductive Parsed (P : Parser β σ) (r : List β) : ℕ → σ → Prop where
  | reset : Parsed P r 0 P.reset
  | consume {i : ℕ} {s : σ} {chunk : List β} {solved : ℕ} {s' : σ} (h : Parsed P r i s)
    (hlt : i < r.length) (hne : chunk ≠ []) (hfits : chunk <+: r.drop i ∨ r.drop i <+: chunk)
    (hconsume : P.consume s chunk = (some solved, s')) : Parsed P r (i + solved) s'

/-- `consume` reads `r` and stops at its end; it is a keep-alive request. -/
structure StopsAtEnd (P : Parser β σ) (r : List β) : Prop where
  consume : ∀ i s chunk, Parsed P r i s → i < r.length → chunk ≠ [] →
    (chunk <+: r.drop i ∨ r.drop i <+: chunk) →
    (P.consume s chunk).1 = some (min chunk.length (r.length - i))
  ready : ∀ i s, Parsed P r i s → (P.ready s = true ↔ i = r.length)
  keepAlive : ∀ s, Parsed P r r.length s → P.closes s = false

/-- `recvs` records for each `recv`, the latest first, the number of bytes received by then and
whether it returned as many as it was asked for. -/
structure Net (β σ : Type*) where
  client : Client β σ
  network : List β
  recvs : List (ℕ × Bool)

inductive NetAction where
  | recv (k : ℕ)
  | check (errno : ℤ)
  | respond

namespace Net

def start (P : Parser β σ) (b : Buffered β) (network : List β) : Net β σ := ⟨.start P b, network, []⟩

/-- `k` is the number of bytes that `recv` returns, where there are any. -/
def step (P : Parser β σ) (maxRequestSize : ℕ) (w : Net β σ) : NetAction → Option (Net β σ)
  | .recv k =>
    match w.client.buffered.session.recvRegion with
    | none => (w.client.step P maxRequestSize (.recv .closed)).map fun c => { w with client := c }
    | some region =>
      if w.network = [] then
        (w.client.step P maxRequestSize (.recv .closed)).map fun c => { w with client := c }
      else if 0 < k ∧ k ≤ region.2 ∧ k ≤ w.network.length then
        (w.client.step P maxRequestSize (.recv (.data (w.network.take k)))).map fun c =>
          ⟨c, w.network.drop k, (c.buffered.received.length, decide (k = region.2)) :: w.recvs⟩
      else none
  | .check errno =>
    (w.client.step P maxRequestSize (.check errno)).map fun c => { w with client := c }
  | .respond =>
    (w.client.step P maxRequestSize (.respond w.client.keepAlive)).map fun c =>
      { w with client := c }

end Net

/-- The number of requests that are not complete in the first `n` bytes. -/
def incomplete : List (List β) → ℕ → ℕ
  | [], _ => 0
  | r :: rest, n => if r.length ≤ n then incomplete rest (n - r.length) else rest.length + 1

/-- Counted back from the last `recv`, each one that did not fill the buffer leaves time for one more
request, and no more than these are incomplete. -/
def Timely (reqs : List (List β)) : ℕ → List (ℕ × Bool) → Prop
  | k, [] => reqs.length ≤ k
  | k, (n, filled) :: earlier =>
    incomplete reqs n ≤ k ∧ (filled = true ∨ Timely reqs (k + 1) earlier)

/-! ### Incomplete requests -/

/-- The number of requests that are not handled when the next `recv` is waited for. -/
def due (reqs : List (List β)) : List (ℕ × Bool) → ℕ
  | [] => reqs.length
  | (n, filled) :: earlier =>
    if filled then incomplete reqs n else max (incomplete reqs n) (due reqs earlier - 1)

theorem timely_iff (reqs : List (List β)) (recvs : List (ℕ × Bool)) (k : ℕ) :
    Timely reqs k recvs ↔ due reqs recvs ≤ k := by
  induction recvs generalizing k with
  | nil => exact Iff.rfl
  | cons recv earlier ih =>
    obtain ⟨n, filled⟩ := recv
    cases filled with
    | true => simp [Timely, due]
    | false =>
      simp only [Timely, due, ih, Bool.false_eq_true, if_false, false_or]
      omega

theorem due_filled (reqs : List (List β)) (n : ℕ) (earlier : List (ℕ × Bool)) :
    due reqs ((n, true) :: earlier) = incomplete reqs n := if_pos rfl

theorem due_partial (reqs : List (List β)) (n : ℕ) (earlier : List (ℕ × Bool)) :
    due reqs ((n, false) :: earlier) = max (incomplete reqs n) (due reqs earlier - 1) :=
  if_neg Bool.false_ne_true

theorem incomplete_append (handled rest : List (List β)) (n : ℕ) :
    incomplete (handled ++ rest) (handled.flatten.length + n) = incomplete rest n := by
  induction handled with
  | nil => simp
  | cons r handled ih =>
    rw [List.flatten_cons, List.length_append, List.cons_append, incomplete, if_pos (by omega)]
    rw [← ih]
    congr 1
    omega

theorem incomplete_zero {rest : List (List β)} (hne : ∀ r ∈ rest, r ≠ []) :
    incomplete rest 0 = rest.length := by
  cases rest with
  | nil => rfl
  | cons r rest =>
    have hpos := List.length_pos_iff.mpr (hne r List.mem_cons_self)
    rw [incomplete, if_neg (by omega), List.length_cons]

theorem incomplete_le (rest : List (List β)) (n : ℕ) : incomplete rest n ≤ rest.length := by
  induction rest generalizing n with
  | nil => exact Nat.zero_le _
  | cons r rest ih =>
    have hrest := ih (n - r.length)
    rw [incomplete, List.length_cons]
    split <;> omega

/-- After `m` bytes of the requests that are left, of which the first one has been used. -/
theorem incomplete_first {r : List β} {rest : List (List β)} (hne : ∀ r ∈ rest, r ≠ []) (m : ℕ) :
    incomplete (r :: rest) (min m r.length) = max (incomplete (r :: rest) m) rest.length := by
  have hle := incomplete_le rest (m - r.length)
  by_cases hcomplete : r.length ≤ m
  · rw [Nat.min_eq_right hcomplete, incomplete, if_pos le_rfl, Nat.sub_self, incomplete_zero hne,
      incomplete, if_pos hcomplete, Nat.max_eq_right hle]
  · rw [Nat.min_eq_left (by omega), incomplete, if_neg hcomplete, Nat.max_eq_left (by omega)]

/-! ### Receiving one request -/

/-- The client has read the first bytes of `r`. -/
structure Reading (P : Parser β σ) (r : List β) (c : Client β σ) : Prop where
  point : c.point = .receiving
  begun : c.current.length < r.length
  current : c.current <+: r
  parsed : Parsed P r c.current.length c.request
  total : c.totalLength = c.current.length

/-- What is kept while a request is received. -/
structure SameRequest (c c' : Client β σ) : Prop where
  handled : c'.handled = c.handled
  responseCount : c'.responseCount = c.responseCount
  keepAlive : c'.keepAlive = c.keepAlive

theorem prefix_append_take {r current bytes : List β} (hcurrent : current <+: r)
    (hfits : bytes <+: r.drop current.length ∨ r.drop current.length <+: bytes) :
    current ++ bytes.take (min bytes.length (r.length - current.length)) <+: r := by
  obtain ⟨tail, rfl⟩ := hcurrent
  rw [List.drop_left] at hfits
  rw [List.prefix_append_right_inj, List.length_append, Nat.add_sub_cancel_left]
  rcases hfits with hfits | hfits
  · rw [Nat.min_eq_left hfits.length_le, List.take_length]
    exact hfits
  · have htake : bytes.take tail.length = tail := (List.prefix_iff_eq_take.mp hfits).symm
    rw [Nat.min_eq_right hfits.length_le]
    exact ⟨[], by rw [htake, List.append_nil]⟩

theorem Reading.parse {P : Parser β σ} {r : List β} {c : Client β σ} (h : Reading P r c)
    (hr : StopsAtEnd P r) {maxRequestSize : ℕ} (hlimit : r.length ≤ maxRequestSize)
    (hint : r.length < 2^31) {bytes : List β} (hne : bytes ≠ [])
    (hfits : bytes <+: r.drop c.current.length ∨ r.drop c.current.length <+: bytes) :
    let c' := c.parse P maxRequestSize bytes
    let solved := min bytes.length (r.length - c.current.length)
    c'.buffered = (c.buffered.consume solved).2 ∧ SameRequest c c' ∧
      c'.current.length = c.current.length + solved ∧
      (Reading P r c' ∨ c'.current = r ∧ c'.point = .checking (.received r.length)) := by
  have hused := hr.consume _ _ bytes h.parsed h.begun hne hfits
  obtain ⟨solved, request, hconsume, hsolved⟩ : ∃ solved request,
      P.consume c.request bytes = (some solved, request) ∧
        solved = min bytes.length (r.length - c.current.length) :=
    ⟨_, _, Prod.ext hused rfl, rfl⟩
  have hbegun := h.begun
  have hparsed := h.parsed.consume h.begun hne hfits hconsume
  have hready := hr.ready _ _ hparsed
  have hcurrent := prefix_append_take h.current hfits
  have hlength : (c.current ++ bytes.take solved).length = c.current.length + solved := by
    rw [List.length_append, List.length_take, hsolved]
    omega
  have htotal : add64 c.totalLength solved = c.current.length + solved := by
    rw [h.total]
    exact add64_of_lt (by omega)
  rw [← hsolved] at hcurrent
  dsimp only
  rw [← hsolved]
  unfold Client.parse
  rw [hconsume]
  dsimp only
  rw [htotal, if_neg (by omega)]
  by_cases hcomplete : r.length - c.current.length ≤ bytes.length
  · have hend : c.current.length + solved = r.length := by omega
    have hcloses : P.closes request = false := hr.keepAlive request (hend ▸ hparsed)
    rw [if_pos (hready.mpr hend), Client.updateSession, if_neg (by dsimp only; simp [hcloses])]
    refine ⟨rfl, ⟨rfl, rfl, rfl⟩, hlength, .inr ⟨?_, ?_⟩⟩
    · exact hcurrent.eq_of_length (hlength.trans hend)
    · dsimp only
      rw [hend]
  · have hpart : ¬ P.ready request = true := by
      rw [hready]
      omega
    rw [if_neg hpart]
    refine ⟨rfl, ⟨rfl, rfl, rfl⟩, hlength,
      .inl ⟨h.point, ?_, hcurrent, ?_, hlength.symm⟩⟩
    · dsimp only
      omega
    · exact hlength ▸ hparsed

/-- A round of `recvRequest` that adds `got` to the bytes in the buffer. -/
structure Round (P : Parser β σ) (r : List β) (c : Client β σ) (got : List β) (c' : Client β σ) :
    Prop where
  buffer : c'.buffered.Inv
  same : SameRequest c c'
  received : c'.buffered.received = c.buffered.received ++ got
  consumed : c'.buffered.consumed = c.buffered.consumed +
    min (c.buffered.unread ++ got).length (r.length - c.current.length)
  current : c'.current.length = c.current.length +
    min (c.buffered.unread ++ got).length (r.length - c.current.length)
  region : c'.buffered.session.recvRegion = none ↔
    c.buffered.session.bufferSize ≤ c.buffered.session.endPos + got.length ∧
      r.length - c.current.length < (c.buffered.unread ++ got).length
  read : Reading P r c' ∨ c'.current = r ∧ c'.point = .checking (.received r.length)

/-- A round that adds bytes or finds some in the full buffer. -/
theorem Reading.recvRequest {P : Parser β σ} {r : List β} {c : Client β σ} (h : Reading P r c)
    (hr : StopsAtEnd P r) {maxRequestSize : ℕ} (hlimit : r.length ≤ maxRequestSize)
    (hint : r.length < 2^31) (hb : c.buffered.Inv) {recv : Recv β}
    (hlegal : c.buffered.Legal (.recvMessage recv)) {got : List β}
    (hgot : c.buffered.got recv = got)
    (hsome : got ≠ [] ∨ c.buffered.session.recvRegion = none)
    (hfits : c.buffered.unread ++ got <+: r.drop c.current.length ∨
      r.drop c.current.length <+: c.buffered.unread ++ got) :
    ∃ c', c.recvRequest P maxRequestSize recv = some c' ∧ Round P r c got c' := by
  obtain ⟨rt, pos, b, hrecv, hinv, hreceived, hconsumed, hsize, hend, hcase⟩ :=
    hb.recvMessage hlegal
  have hunread : b.unread = c.buffered.unread ++ c.buffered.got recv := by
    rw [Buffered.unread, hreceived, hconsumed, List.drop_append_of_le_length hb.consumed]
    rfl
  rw [hgot] at hunread hreceived hend
  obtain ⟨_, _, hnone, hwaits⟩ | ⟨hpos, rfl, rfl⟩ := hcase
  · rw [hgot] at hnone
    exact (hsome.elim (fun hne => hne hnone) hwaits).elim
  rw [← hunread] at hfits
  have hne : b.unread ≠ [] := by
    intro hnil
    rw [hnil] at hpos
    exact absurd hpos (lt_irrefl _)
  have hsolved : min b.unread.length (r.length - c.current.length) < 2^31 := by omega
  have hc : Reading P r { c with buffered := b } := ⟨h.point, h.begun, h.current, h.parsed, h.total⟩
  obtain ⟨hbuffered, hsame, hcurrent, hread⟩ := hc.parse hr hlimit hint hne hfits
  obtain ⟨hinv', _, hreceived', hconsumed'⟩ := hinv.consume hsolved
  have hregion := hinv.recvRegion_consume hsolved
  refine ⟨({ c with buffered := b } : Client β σ).parse P maxRequestSize b.unread, ?_,
    hbuffered ▸ hinv', ⟨hsame.handled, hsame.responseCount, hsame.keepAlive⟩, ?_, ?_, ?_, ?_, hread⟩
  · rw [Client.recvRequest, hrecv, Option.map_some]
    dsimp only
    rw [if_neg (by omega), if_neg (by omega), Buffered.window_exposed hinv]
  · rw [hbuffered, hreceived', hreceived]
  · rw [hbuffered, hconsumed', hconsumed, ← hunread]
    omega
  · rw [hcurrent, ← hunread]
  · rw [hbuffered, hregion, Buffered.recvRegion_eq_none, hsize, hend, ← hunread]
    have hpos' := List.length_pos_iff.mpr hne
    omega

/-- A `recv` that meets the end of the stream. -/
theorem recvRequest_closed {P : Parser β σ} {c : Client β σ}
    (hwaits : c.buffered.session.recvRegion ≠ none) (maxRequestSize : ℕ) :
    c.recvRequest P maxRequestSize .closed = some { c with point := .checking .closed } := by
  obtain ⟨region, hregion⟩ := Option.ne_none_iff_exists'.mp hwaits
  have hrecv : c.buffered.session.recvMessage 0 false uint64Max = some (0, c.buffered.session) := by
    rw [Session.recvMessage, hregion]
    rfl
  have hsame : c.buffered.receive c.buffered.session .closed = c.buffered := Buffered.receive_nil rfl
  unfold Client.recvRequest Buffered.recvMessage
  rw [show (Recv.closed : Recv β).length = 0 from rfl, show (Recv.closed : Recv β).critical = false
    from rfl, hrecv, Option.map_some, hsame, Option.map_some, if_pos rfl]

/-! ### A connection -/

/-- Keep-alive requests within the limits of the server. -/
structure Requests (P : Parser β σ) (maxRequestSize : ℕ) (reqs : List (List β)) : Prop where
  stops : ∀ r ∈ reqs, StopsAtEnd P r
  nonempty : ∀ r ∈ reqs, r ≠ []
  limit : ∀ r ∈ reqs, r.length ≤ maxRequestSize
  int : ∀ r ∈ reqs, r.length < 2^31
  count : reqs.length ≤ 999

namespace Net

inductive Phase (P : Parser β σ) (reqs : List (List β)) (w : Net β σ) : Prop where
  | idle (hpoint : w.client.point = .receiving) (hreqs : w.client.handled = reqs)
    (hconsumed : w.client.buffered.consumed = reqs.flatten.length)
    (hcount : w.client.responseCount = reqs.length)
  | reading (r : List β) (rest : List (List β)) (hreading : Reading P r w.client)
    (hreqs : reqs = w.client.handled ++ r :: rest)
    (hconsumed : w.client.buffered.consumed =
      w.client.handled.flatten.length + w.client.current.length)
    (hcount : w.client.responseCount = w.client.handled.length)
  | received (rest : List (List β))
    (hpoint : w.client.point = .checking (.received w.client.current.length))
    (hreqs : reqs = w.client.handled ++ w.client.current :: rest)
    (hconsumed : w.client.buffered.consumed =
      w.client.handled.flatten.length + w.client.current.length)
    (hcount : w.client.responseCount = w.client.handled.length)
  | handling (rest : List (List β)) (hpoint : w.client.point = .handling)
    (hreqs : reqs = w.client.handled ++ rest)
    (hconsumed : w.client.buffered.consumed = w.client.handled.flatten.length)
    (hcount : w.client.responseCount + 1 = w.client.handled.length)
  | ended (rest : List (List β))
    (hpoint : w.client.point = .checking .closed ∨ w.client.point = .closed)
    (hreqs : reqs = w.client.handled ++ rest) (hdue : due reqs w.recvs = rest.length)
    (hcount : w.client.responseCount < stackDeep)

/-- The requests that are not consumed are those that are due, unless the buffer is full. -/
structure Inv (P : Parser β σ) (reqs : List (List β)) (w : Net β σ) : Prop where
  buffer : w.client.buffered.Inv
  stream : w.client.buffered.received ++ w.network = reqs.flatten
  keepAlive : w.client.keepAlive = true
  waits : w.client.buffered.session.recvRegion ≠ none →
    incomplete reqs w.client.buffered.consumed = due reqs w.recvs
  full : w.client.buffered.session.recvRegion = none →
    ∃ earlier, w.recvs = (w.client.buffered.received.length, true) :: earlier
  phase : Phase P reqs w

def rank : Point → ℕ
  | .checking (.received _) => 4
  | .handling => 3
  | .receiving => 2
  | .checking _ => 1
  | _ => 0

/-- Bounds the number of steps that are left. -/
def work (w : Net β σ) : ℕ :=
  3 * (2 * w.network.length + w.client.buffered.unread.length) + rank w.client.point

variable {P : Parser β σ} {maxRequestSize : ℕ} {reqs : List (List β)}

/-- `r` is being read, and the requests of `rest` follow it. -/
structure At (P : Parser β σ) (reqs : List (List β)) (w : Net β σ) (r : List β)
    (rest : List (List β)) : Prop where
  reading : Reading P r w.client
  reqs : reqs = w.client.handled ++ r :: rest
  consumed : w.client.buffered.consumed =
    w.client.handled.flatten.length + w.client.current.length
  count : w.client.responseCount = w.client.handled.length

/-- What `recvs` is after `got` has been received; there is no `recv` where the buffer is full. -/
inductive Recorded (w : Net β σ) : List β → List (ℕ × Bool) → Prop where
  | full (hnone : w.client.buffered.session.recvRegion = none) : Recorded w [] w.recvs
  | recv {got : List β} (hregion : w.client.buffered.session.recvRegion ≠ none) (hne : got ≠ []) :
    Recorded w got ((w.client.buffered.received.length + got.length,
      decide (w.client.buffered.session.bufferSize ≤
        w.client.buffered.session.endPos + got.length)) :: w.recvs)

/-- The bytes that are not consumed begin with those that are left of the current request. -/
theorem Inv.ahead {w : Net β σ} (h : Inv P reqs w) {r : List β} {rest : List (List β)}
    (hat : At P reqs w r rest) :
    w.client.buffered.unread ++ w.network = r.drop w.client.current.length ++ rest.flatten := by
  have hflatten : reqs.flatten = w.client.handled.flatten ++ (r ++ rest.flatten) := by
    rw [hat.reqs, List.flatten_append, List.flatten_cons]
  calc
    w.client.buffered.unread ++ w.network =
        (w.client.buffered.received ++ w.network).drop w.client.buffered.consumed :=
      (List.drop_append_of_le_length h.buffer.consumed).symm
    _ = (r ++ rest.flatten).drop w.client.current.length := by
      rw [h.stream, hflatten, hat.consumed, ← List.drop_drop, List.drop_left]
    _ = r.drop w.client.current.length ++ rest.flatten :=
      List.drop_append_of_le_length hat.reading.begun.le

section Round
variable {w : Net β σ} {r : List β} {rest : List (List β)} {got : List β} {c : Client β σ}
  {recvs : List (ℕ × Bool)}

theorem received_length (hround : Round P r w.client got c) :
    c.buffered.received.length = w.client.buffered.received.length + got.length := by
  rw [hround.received, List.length_append]

theorem Inv.unread_length (h : Inv P reqs w) (hround : Round P r w.client got c) :
    (w.client.buffered.unread ++ got).length + w.client.buffered.consumed =
      c.buffered.received.length := by
  have hle := h.buffer.consumed
  rw [received_length hround, List.length_append, Buffered.unread, List.length_drop]
  omega

/-- A full buffer that has room again has been consumed completely. -/
theorem Inv.all_consumed (h : Inv P reqs w) (hround : Round P r w.client got c)
    (hwaits : c.buffered.session.recvRegion ≠ none)
    (hfilled : w.client.buffered.session.bufferSize ≤
      w.client.buffered.session.endPos + got.length) :
    c.buffered.consumed = c.buffered.received.length := by
  have hroom := mt hround.region.mpr hwaits
  have hunread := h.unread_length hround
  have hle : (w.client.buffered.unread ++ got).length ≤ r.length - w.client.current.length :=
    not_lt.mp fun hmore => hroom ⟨hfilled, hmore⟩
  rw [hround.consumed, Nat.min_eq_left hle]
  omega

theorem Inv.due_after (h : Inv P reqs w) (hat : At P reqs w r rest)
    (hnonempty : ∀ r' ∈ rest, r' ≠ []) (hround : Round P r w.client got c)
    (hrecvs : Recorded w got recvs) (hwaits : c.buffered.session.recvRegion ≠ none) :
    incomplete reqs c.buffered.consumed = due reqs recvs := by
  have hlength := received_length hround
  cases hrecvs with
  | full hnone =>
    obtain ⟨earlier, hearlier⟩ := h.full hnone
    have hconsumed := h.all_consumed hround hwaits (Buffered.recvRegion_eq_none.mp hnone)
    rw [hearlier, due_filled, hconsumed, hlength, List.length_nil, Nat.add_zero]
  | recv hregion hne =>
    by_cases hfilled : w.client.buffered.session.bufferSize ≤
        w.client.buffered.session.endPos + got.length
    · rw [decide_eq_true hfilled, due_filled, h.all_consumed hround hwaits hfilled, hlength]
    · have hbegun := hat.reading.begun
      have hbytes := h.unread_length hround
      have hconsumed := hround.consumed
      have hbefore : incomplete (r :: rest) w.client.current.length = rest.length + 1 := by
        rw [incomplete, if_neg (by omega)]
      have hafter : c.buffered.consumed = w.client.handled.flatten.length +
          min (w.client.current.length + (w.client.buffered.unread ++ got).length) r.length := by
        rw [hat.consumed] at hconsumed
        omega
      have htotal : c.buffered.received.length = w.client.handled.flatten.length +
          (w.client.current.length + (w.client.buffered.unread ++ got).length) := by
        rw [hat.consumed] at hbytes
        omega
      rw [decide_eq_false hfilled, due_partial, ← h.waits hregion, ← hlength, hafter, htotal,
        hat.consumed, hat.reqs, incomplete_append, incomplete_append, incomplete_append, hbefore,
        Nat.add_sub_cancel]
      exact incomplete_first hnonempty _

theorem Inv.full_after (h : Inv P reqs w) (hround : Round P r w.client got c)
    (hrecvs : Recorded w got recvs) (hnone : c.buffered.session.recvRegion = none) :
    ∃ earlier, recvs = (c.buffered.received.length, true) :: earlier := by
  obtain ⟨hfilled, _⟩ := hround.region.mp hnone
  have hlength := received_length hround
  cases hrecvs with
  | full hnone' =>
    obtain ⟨earlier, hearlier⟩ := h.full hnone'
    refine ⟨earlier, ?_⟩
    rw [hearlier, hlength, List.length_nil, Nat.add_zero]
  | recv =>
    refine ⟨w.recvs, ?_⟩
    rw [hlength, decide_eq_true hfilled]

theorem At.phase_after (hat : At P reqs w r rest) (hround : Round P r w.client got c)
    (network : List β) (recvs : List (ℕ × Bool)) : Phase P reqs ⟨c, network, recvs⟩ := by
  have hreqs : reqs = c.handled ++ r :: rest := by
    rw [hround.same.handled]
    exact hat.reqs
  have hconsumed : c.buffered.consumed = c.handled.flatten.length + c.current.length := by
    rw [hround.same.handled, hround.current, hround.consumed, hat.consumed, Nat.add_assoc]
  have hcount : c.responseCount = c.handled.length := by
    rw [hround.same.handled, hround.same.responseCount]
    exact hat.count
  rcases hround.read with hread | ⟨rfl, hpoint⟩
  · exact .reading r rest hread hreqs hconsumed hcount
  · exact .received rest hpoint hreqs hconsumed hcount

theorem Inv.work_after (h : Inv P reqs w) (hat : At P reqs w r rest)
    (hround : Round P r w.client got c) (hrecvs : Recorded w got recvs) {network : List β}
    (hnetwork : w.network = got ++ network) : work ⟨c, network, recvs⟩ < w.work := by
  have hrank : rank c.point ≤ 4 := by
    rcases hround.read with hread | ⟨_, hpoint⟩
    · rw [hread.point]
      decide
    · rw [hpoint]
      exact le_rfl
  have hbytes := h.unread_length hround
  have hsome : 0 < (w.client.buffered.unread ++ got).length := by
    cases hrecvs with
    | full hnone =>
      have hunread : ¬ w.client.buffered.received.length ≤ w.client.buffered.consumed :=
        fun hle => h.buffer.waits hle hnone
      have hlength := received_length hround
      omega
    | recv _ hne =>
      have hpos := List.length_pos_iff.mpr hne
      rw [List.length_append]
      omega
  have hconsumed := hround.consumed
  have hbegun := hat.reading.begun
  have hunread : c.buffered.unread.length = c.buffered.received.length - c.buffered.consumed := by
    rw [Buffered.unread, List.length_drop]
  have hwire : w.network.length = got.length + network.length := by
    rw [hnetwork, List.length_append]
  rw [List.length_append] at hbytes hsome hconsumed
  unfold work
  rw [hat.reading.point, hunread, show rank .receiving = 2 from rfl]
  dsimp only
  omega

end Round

theorem Inv.read {w : Net β σ} (h : Inv P reqs w) (hall : Requests P maxRequestSize reqs)
    {r : List β} {rest : List (List β)} (hat : At P reqs w r rest) {recv : Recv β}
    (hlegal : w.client.buffered.Legal (.recvMessage recv)) {got network : List β}
    (hgot : w.client.buffered.got recv = got) (hnetwork : w.network = got ++ network)
    {recvs : List (ℕ × Bool)} (hrecvs : Recorded w got recvs) :
    ∃ c, w.client.recvRequest P maxRequestSize recv = some c ∧
      c.buffered.received.length = w.client.buffered.received.length + got.length ∧
      Inv P reqs ⟨c, network, recvs⟩ ∧ work ⟨c, network, recvs⟩ < w.work := by
  have hmem : r ∈ reqs := by
    rw [hat.reqs]
    exact List.mem_append_right _ List.mem_cons_self
  have hnonempty : ∀ r' ∈ rest, r' ≠ [] := by
    intro r' hr'
    refine hall.nonempty r' ?_
    rw [hat.reqs]
    exact List.mem_append_right _ (List.mem_cons_of_mem _ hr')
  have hahead := h.ahead hat
  rw [hnetwork, ← List.append_assoc] at hahead
  have hfits := List.prefix_or_prefix_of_prefix (List.prefix_append _ network)
    (hahead ▸ List.prefix_append _ rest.flatten)
  have hsome : got ≠ [] ∨ w.client.buffered.session.recvRegion = none := by
    cases hrecvs with
    | full hnone => exact .inr hnone
    | recv _ hne => exact .inl hne
  obtain ⟨c, hc, hround⟩ := hat.reading.recvRequest (hall.stops r hmem) (hall.limit r hmem)
    (hall.int r hmem) h.buffer hlegal hgot hsome hfits
  refine ⟨c, hc, received_length hround, ⟨hround.buffer, ?_,
    hround.same.keepAlive.trans h.keepAlive, h.due_after hat hnonempty hround hrecvs,
    h.full_after hround hrecvs, hat.phase_after hround network recvs⟩,
    h.work_after hat hround hrecvs hnetwork⟩
  rw [hround.received, List.append_assoc, ← hnetwork]
  exact h.stream

theorem Phase.receiving {w : Net β σ} (h : Phase P reqs w) (hpoint : w.client.point = .receiving) :
    w.client.handled = reqs ∧ w.client.buffered.consumed = reqs.flatten.length ∧
        w.client.responseCount = reqs.length ∨ ∃ r rest, At P reqs w r rest := by
  cases h with
  | idle _ hreqs hconsumed hcount => exact .inl ⟨hreqs, hconsumed, hcount⟩
  | reading r rest hreading hreqs hconsumed hcount =>
    exact .inr ⟨r, rest, hreading, hreqs, hconsumed, hcount⟩
  | received _ hpoint' => cases hpoint.symm.trans hpoint'
  | handling _ hpoint' => cases hpoint.symm.trans hpoint'
  | ended _ hpoint' => rcases hpoint' with hpoint' | hpoint' <;> cases hpoint.symm.trans hpoint'

theorem Phase.rest {w : Net β σ} (h : Phase P reqs w) (hpoint : w.client.point = .receiving) :
    ∃ rest, reqs = w.client.handled ++ rest ∧
      incomplete reqs w.client.buffered.consumed = rest.length ∧
      w.client.responseCount ≤ reqs.length := by
  rcases h.receiving hpoint with ⟨hreqs, hconsumed, hcount⟩ | ⟨r, rest, hat⟩
  · refine ⟨[], by rw [hreqs, List.append_nil], ?_, hcount.le⟩
    have hnone := incomplete_append reqs [] 0
    rw [List.append_nil, Nat.add_zero] at hnone
    rw [hconsumed, hnone]
    rfl
  · refine ⟨r :: rest, hat.reqs, ?_, ?_⟩
    · rw [hat.consumed, hat.reqs, incomplete_append, incomplete,
        if_neg (not_le.mpr hat.reading.begun), List.length_cons]
    · rw [hat.count, hat.reqs, List.length_append]
      exact Nat.le_add_right _ _

theorem Inv.closed {w : Net β σ} (h : Inv P reqs w) (hall : Requests P maxRequestSize reqs)
    (hpoint : w.client.point = .receiving)
    (hregion : w.client.buffered.session.recvRegion ≠ none) :
    Inv P reqs { w with client := { w.client with point := .checking .closed } } ∧
      work { w with client := { w.client with point := .checking .closed } } < w.work := by
  obtain ⟨rest, hreqs, hincomplete, hcount⟩ := h.phase.rest hpoint
  have hlimit := hall.count
  have hless : w.client.responseCount < stackDeep := by
    unfold stackDeep
    omega
  refine ⟨⟨h.buffer, h.stream, h.keepAlive, h.waits, h.full, ?_⟩, ?_⟩
  · exact .ended rest (.inl rfl) hreqs ((h.waits hregion).symm.trans hincomplete) hless
  · unfold work
    rw [hpoint]
    dsimp only [rank]
    omega

/-- `k` is a number of bytes that `recv` may return. -/
def Fits (w : Net β σ) (k : ℕ) : Prop :=
  ∀ region, w.client.buffered.session.recvRegion = some region → w.network ≠ [] →
    0 < k ∧ k ≤ region.2 ∧ k ≤ w.network.length

theorem step_recv {w w' : Net β σ} {k : ℕ} (h : w.step P maxRequestSize (.recv k) = some w') :
    w.client.point = .receiving ∧ w.Fits k := by
  have hreceiving : ∀ {recv : Recv β} {f : Client β σ → Net β σ},
      (w.client.step P maxRequestSize (.recv recv)).map f = some w' →
        w.client.point = .receiving := by
    intro recv f hstep
    obtain ⟨c, hc, _⟩ := Option.map_eq_some_iff.mp hstep
    simp only [Client.step, Option.ite_none_right_eq_some] at hc
    exact hc.1
  cases hregion : w.client.buffered.session.recvRegion with
  | none =>
    simp only [Net.step, hregion] at h
    refine ⟨hreceiving h, fun region hsome => ?_⟩
    rw [hregion] at hsome
    cases hsome
  | some region =>
    simp only [Net.step, hregion] at h
    split_ifs at h with hempty hk
    · exact ⟨hreceiving h, fun _ _ hne => absurd hempty hne⟩
    · refine ⟨hreceiving h, fun region' hsome _ => ?_⟩
      rw [hregion, Option.some.injEq] at hsome
      exact hsome ▸ hk

/-- Where there is another byte, a request is being read. -/
theorem Inv.unfinished {w : Net β σ} (h : Inv P reqs w) (hpoint : w.client.point = .receiving)
    (hmore : w.client.buffered.session.recvRegion = none ∨ w.network ≠ []) :
    ∃ r rest, At P reqs w r rest := by
  rcases h.phase.receiving hpoint with ⟨_, hconsumed, _⟩ | hat
  · have hstream := congrArg List.length h.stream
    have hle := h.buffer.consumed
    rw [List.length_append] at hstream
    rcases hmore with hnone | hne
    · exact absurd hnone (h.buffer.waits (by omega))
    · have hpos := List.length_pos_iff.mpr hne
      omega
  · exact hat

theorem Inv.recv {w : Net β σ} (h : Inv P reqs w) (hall : Requests P maxRequestSize reqs)
    (hpoint : w.client.point = .receiving) {k : ℕ} (hk : w.Fits k) :
    ∃ w', w.step P maxRequestSize (.recv k) = some w' ∧ Inv P reqs w' ∧ w'.work < w.work := by
  have hstep : ∀ recv, w.client.step P maxRequestSize (.recv recv) =
      w.client.recvRequest P maxRequestSize recv := fun recv => if_pos hpoint
  cases hregion : w.client.buffered.session.recvRegion with
  | none =>
    obtain ⟨r, rest, hat⟩ := h.unfinished hpoint (.inl hregion)
    have hlegal : w.client.buffered.Legal (.recvMessage (.closed : Recv β)) :=
      fun _ _ => Nat.zero_le _
    obtain ⟨c, hc, _, hinv, hwork⟩ := h.read hall hat hlegal (if_pos hregion)
      (List.nil_append _).symm (.full hregion)
    refine ⟨_, ?_, hinv, hwork⟩
    simp only [Net.step, hregion]
    rw [hstep, hc, Option.map_some]
  | some region =>
    have hwaits : w.client.buffered.session.recvRegion ≠ none := by
      rw [hregion]
      exact Option.some_ne_none _
    by_cases hempty : w.network = []
    · refine ⟨_, ?_, h.closed hall hpoint hwaits⟩
      simp only [Net.step, hregion]
      rw [if_pos hempty, hstep, recvRequest_closed hwaits, Option.map_some]
    · obtain ⟨hpos, hroom, hle⟩ := hk region hregion hempty
      obtain ⟨r, rest, hat⟩ := h.unfinished hpoint (.inr hempty)
      have htake : (w.network.take k).length = k := by
        rw [List.length_take, Nat.min_eq_left hle]
      have hlegal : w.client.buffered.Legal (.recvMessage (.data (w.network.take k))) := by
        intro region' hregion'
        rw [hregion, Option.mem_some_iff] at hregion'
        rw [← hregion', Recv.bytes, htake]
        exact hroom
      have hne : w.network.take k ≠ [] := by
        rw [← List.length_pos_iff, htake]
        exact hpos
      have hgot : w.client.buffered.got (.data (w.network.take k)) = w.network.take k :=
        if_neg hwaits
      obtain ⟨c, hc, hlength, hinv, hwork⟩ := h.read hall hat hlegal hgot
        (List.take_append_drop k w.network).symm (.recv hwaits hne)
      have hfilled : decide (w.client.buffered.session.bufferSize ≤
          w.client.buffered.session.endPos + (w.network.take k).length) = decide (k = region.2) := by
        obtain ⟨hlt, rfl⟩ := Session.recvRegion_eq hregion
        rw [htake, decide_eq_decide]
        dsimp only at hroom ⊢
        omega
      rw [hfilled, ← hlength] at hinv hwork
      refine ⟨_, ?_, hinv, hwork⟩
      simp only [Net.step, hregion]
      rw [if_neg hempty, if_pos ⟨hpos, hroom, hle⟩, hstep, hc, Option.map_some]

theorem check_received {c : Client β σ} {total : ℕ} (hpos : 0 < total) (hint : total < 2^31)
    (errno : ℤ) : c.check (.received total) errno =
      { c with isKeepAlive := c.keepAlive, point := .handling,
               handled := c.handled ++ [c.current] } := by
  have hrt : (Outcome.received total).rt = total := int32_of_lt hint
  rw [Client.check, hrt, if_neg (by omega), if_neg (by omega), if_neg (by omega)]

theorem Inv.check {w : Net β σ} (h : Inv P reqs w) (hall : Requests P maxRequestSize reqs)
    {o : Outcome} (hpoint : w.client.point = .checking o) (errno : ℤ) :
    Inv P reqs { w with client := w.client.check o errno } ∧
      work { w with client := w.client.check o errno } < w.work := by
  cases h.phase with
  | idle hpoint' => cases hpoint.symm.trans hpoint'
  | reading _ _ hreading => cases hpoint.symm.trans hreading.point
  | handling _ hpoint' => cases hpoint.symm.trans hpoint'
  | received rest hpoint' hreqs hconsumed hcount =>
    have ho : o = .received w.client.current.length := by
      cases hpoint.symm.trans hpoint'
      rfl
    have hmem : w.client.current ∈ reqs := by
      rw [hreqs]
      exact List.mem_append_right _ List.mem_cons_self
    have hpos := List.length_pos_iff.mpr (hall.nonempty _ hmem)
    rw [ho, check_received hpos (hall.int _ hmem)]
    refine ⟨⟨h.buffer, h.stream, h.keepAlive, h.waits, h.full, .handling rest rfl ?_ ?_ ?_⟩, ?_⟩
    · rw [hreqs, List.append_assoc, List.singleton_append]
    · rw [hconsumed, List.flatten_append, List.flatten_singleton, List.length_append]
    · rw [hcount, List.length_append, List.length_singleton]
    · unfold work
      rw [hpoint']
      dsimp only [rank]
      omega
  | ended rest hpoint' hreqs hdue hcount =>
    have ho : o = .closed := by
      rcases hpoint' with hpoint' | hpoint' <;> cases hpoint.symm.trans hpoint'
      rfl
    have hfinish : w.client.check o errno = { w.client with point := .closed } := by
      have hzero : Outcome.closed.rt = 0 := rfl
      rw [ho, Client.check, if_pos hzero, Client.finish,
        if_neg fun hc => absurd hc.2 (not_le.mpr hcount)]
    rw [hfinish]
    refine ⟨⟨h.buffer, h.stream, h.keepAlive, h.waits, h.full,
      .ended rest (.inr rfl) hreqs hdue hcount⟩, ?_⟩
    unfold work
    rw [hpoint, ho]
    dsimp only [rank]
    omega

theorem Inv.respond {w : Net β σ} (h : Inv P reqs w) (hall : Requests P maxRequestSize reqs)
    (hpoint : w.client.point = .handling) :
    Inv P reqs { w with client := w.client.respond P w.client.keepAlive } ∧
      work { w with client := w.client.respond P w.client.keepAlive } < w.work := by
  cases h.phase with
  | idle hpoint' => cases hpoint.symm.trans hpoint'
  | reading _ _ hreading => cases hpoint.symm.trans hreading.point
  | received _ hpoint' => cases hpoint.symm.trans hpoint'
  | ended _ hpoint' => rcases hpoint' with hpoint' | hpoint' <;> cases hpoint.symm.trans hpoint'
  | handling rest _ hreqs hconsumed hcount =>
    have hlimit := hall.count
    have hlength := congrArg List.length hreqs
    rw [List.length_append] at hlength
    have hagain : w.client.responseCount + 1 < stackDeep := by
      unfold stackDeep
      omega
    rw [Client.respond, if_pos ⟨h.keepAlive, hagain⟩]
    refine ⟨⟨h.buffer, h.stream, h.keepAlive, h.waits, h.full, ?_⟩, ?_⟩
    · cases rest with
      | nil =>
        rw [List.append_nil] at hreqs
        exact .idle rfl hreqs.symm (hreqs ▸ hconsumed) (hreqs ▸ hcount)
      | cons r rest =>
        have hpos : 0 < r.length := by
          refine List.length_pos_iff.mpr (hall.nonempty r ?_)
          rw [hreqs]
          exact List.mem_append_right _ List.mem_cons_self
        exact .reading r rest ⟨rfl, hpos, List.nil_prefix, .reset, rfl⟩ hreqs hconsumed hcount
    · unfold work
      rw [hpoint]
      dsimp only [rank]
      omega

theorem Inv.step {w w' : Net β σ} (h : Inv P reqs w) (hall : Requests P maxRequestSize reqs)
    {a : NetAction} (hstep : w.step P maxRequestSize a = some w') :
    Inv P reqs w' ∧ w'.work < w.work := by
  cases a with
  | recv k =>
    obtain ⟨hpoint, hk⟩ := step_recv hstep
    obtain ⟨w'', hstep', hinv⟩ := h.recv hall hpoint hk
    exact Option.some.inj (hstep'.symm.trans hstep) ▸ hinv
  | check errno =>
    obtain ⟨c, hc, rfl⟩ := Option.map_eq_some_iff.mp hstep
    cases hpoint : w.client.point with
    | checking o =>
      simp only [Client.step, hpoint, Option.some.injEq] at hc
      exact hc ▸ h.check hall hpoint errno
    | _ =>
      simp only [Client.step, hpoint] at hc
      cases hc
  | respond =>
    obtain ⟨c, hc, rfl⟩ := Option.map_eq_some_iff.mp hstep
    simp only [Client.step, Option.ite_none_right_eq_some, Option.some.injEq] at hc
    obtain ⟨hpoint, rfl⟩ := hc
    exact h.respond hall hpoint

/-- Some action is possible until the connection is closed. -/
theorem Inv.progress {w : Net β σ} (h : Inv P reqs w) (hall : Requests P maxRequestSize reqs)
    (hstuck : ∀ a, w.step P maxRequestSize a = none) : w.client.point = .closed := by
  cases hpoint : w.client.point with
  | receiving =>
    have hfits : w.Fits 1 := by
      intro region hregion hne
      obtain ⟨hlt, rfl⟩ := Session.recvRegion_eq hregion
      exact ⟨Nat.one_pos, Nat.sub_pos_of_lt hlt, List.length_pos_iff.mpr hne⟩
    obtain ⟨w', hstep, _⟩ := h.recv hall hpoint hfits
    rw [hstuck] at hstep
    cases hstep
  | checking o =>
    have hstep := hstuck (.check 0)
    simp only [Net.step, Client.step, hpoint, Option.map_some] at hstep
    cases hstep
  | handling =>
    have hstep := hstuck .respond
    simp only [Net.step, Client.step, hpoint, if_true, Option.map_some] at hstep
    cases hstep
  | closed => rfl
  | rescheduled =>
    exfalso
    cases h.phase with
    | idle hpoint' => cases hpoint.symm.trans hpoint'
    | reading _ _ hreading => cases hpoint.symm.trans hreading.point
    | received _ hpoint' => cases hpoint.symm.trans hpoint'
    | handling _ hpoint' => cases hpoint.symm.trans hpoint'
    | ended _ hpoint' => rcases hpoint' with hpoint' | hpoint' <;> cases hpoint.symm.trans hpoint'

theorem Inv.run {w w' : Net β σ} (h : Inv P reqs w) (hall : Requests P maxRequestSize reqs)
    {actions : List NetAction} (hrun : exec (Net.step P maxRequestSize) w actions = some w') :
    Inv P reqs w' ∧ actions.length + w'.work ≤ w.work := by
  induction actions generalizing w with
  | nil =>
    simp only [exec, Option.some.injEq] at hrun
    exact hrun ▸ ⟨h, (Nat.zero_add _).le⟩
  | cons a actions ih =>
    obtain ⟨w₁, hstep, hrest⟩ := exec_cons hrun
    obtain ⟨hinv, hless⟩ := h.step hall hstep
    obtain ⟨hinv', hle⟩ := ih hinv hrest
    refine ⟨hinv', ?_⟩
    rw [List.length_cons]
    omega

theorem start_net_inv (hall : Requests P maxRequestSize reqs) {s : Session} {memory : List β}
    (hb : (Buffered.start s memory).Inv) : Inv P reqs (start P (.start s memory) reqs.flatten) := by
  refine ⟨hb, List.nil_append _, rfl, fun _ => incomplete_zero hall.nonempty, fun hnone => ?_, ?_⟩
  · exact absurd hnone (hb.waits le_rfl)
  · cases reqs with
    | nil => exact .idle rfl rfl rfl rfl
    | cons r rest =>
      have hpos := List.length_pos_iff.mpr (hall.nonempty r List.mem_cons_self)
      exact .reading r rest ⟨rfl, hpos, List.nil_prefix, .reset, rfl⟩ rfl rfl rfl

theorem Inv.handled_prefix {w : Net β σ} (h : Inv P reqs w) : w.client.handled <+: reqs := by
  cases h.phase with
  | idle _ hreqs => exact hreqs ▸ List.prefix_rfl
  | reading _ _ _ hreqs => exact ⟨_, hreqs.symm⟩
  | received _ _ hreqs => exact ⟨_, hreqs.symm⟩
  | handling _ _ hreqs => exact ⟨_, hreqs.symm⟩
  | ended _ _ hreqs => exact ⟨_, hreqs.symm⟩

theorem Inv.all_handled_iff {w : Net β σ} (h : Inv P reqs w) (hpoint : w.client.point = .closed) :
    w.client.handled = reqs ↔ Timely reqs 0 w.recvs := by
  rw [timely_iff, Nat.le_zero]
  cases h.phase with
  | idle hpoint' => cases hpoint.symm.trans hpoint'
  | reading _ _ hreading => cases hpoint.symm.trans hreading.point
  | received _ hpoint' => cases hpoint.symm.trans hpoint'
  | handling _ hpoint' => cases hpoint.symm.trans hpoint'
  | ended rest _ hreqs hdue =>
    rw [hdue, List.length_eq_zero_iff]
    constructor
    · intro hall
      rw [hall] at hreqs
      exact List.self_eq_append_right.mp hreqs
    · intro hrest
      rw [hrest, List.append_nil] at hreqs
      exact hreqs.symm

end Net

/-- Every run ends, with the connection closed, and calls the handlers for the requests in order. It
calls them for all requests exactly if each request is complete early enough for the requests behind
it to be taken out of the buffer before the end of the stream is met. -/
theorem requests_dispatched_iff {c : Config} {s : Session} (hnew : Session.new c .http = some s)
    (hpos : 0 < c.bufferSize .http) (hsize : c.bufferSize .http ≤ c.basic.toNat) {memory : List β}
    (hmemory : memory.length = s.allocated) {P : Parser β σ} {maxRequestSize : ℕ}
    {reqs : List (List β)} (hall : Requests P maxRequestSize reqs) {actions : List NetAction}
    {w : Net β σ} (hrun : exec (Net.step P maxRequestSize)
      (.start P (.start s memory) reqs.flatten) actions = some w) :
    actions.length ≤ 6 * reqs.flatten.length + 2 ∧
      w.client.handled <+: reqs ∧
      ((∀ a, w.step P maxRequestSize a = none) → w.client.point = .closed) ∧
      (w.client.point = .closed → (w.client.handled = reqs ↔ Timely reqs 0 w.recvs)) := by
  have hstart := Net.start_net_inv hall (Buffered.start_inv hnew hpos hsize hmemory)
  obtain ⟨hinv, hwork⟩ := hstart.run hall hrun
  refine ⟨?_, hinv.handled_prefix, hinv.progress hall, hinv.all_handled_iff⟩
  have hwork' : (Net.start P (.start s memory) reqs.flatten).work = 6 * reqs.flatten.length + 2 := by
    show 3 * (2 * reqs.flatten.length + 0) + 2 = 6 * reqs.flatten.length + 2
    omega
  omega

/-! ### Requests without a body -/

/-- A blank line ends `r` and does not begin it. -/
def Head (r : List Char) : Prop :=
  (∀ j ≤ r.length, (r.take j).reverse.take 4 = blankLine ↔ j = r.length) ∧
    r.take 2 ≠ ['\r', '\n']

instance (r : List Char) : Decidable (Head r) := inferInstanceAs (Decidable (_ ∧ _))

theorem scan_head {r : List Char} (hr : Head r) {i : ℕ} (hi : i ≤ r.length) {chunk : List Char}
    (hfits : chunk <+: r.drop i ∨ r.drop i <+: chunk) :
    scan (r.take i).reverse chunk = (some (min chunk.length (r.length - i)),
      (r.take (i + min chunk.length (r.length - i))).reverse) := by
  induction chunk generalizing i with
  | nil =>
    rw [List.length_nil, Nat.zero_min, Nat.add_zero]
    rfl
  | cons x bytes ih =>
    rw [scan]
    by_cases hend : i = r.length
    · rw [if_pos ((hr.1 i hi).mpr hend), hend, Nat.sub_self, Nat.min_zero, Nat.add_zero]
    have hlt : i < r.length := by omega
    have hcons : r.drop i = r[i] :: r.drop (i + 1) := List.drop_eq_getElem_cons hlt
    rw [hcons, List.cons_prefix_cons, List.cons_prefix_cons] at hfits
    have hx : x = r[i] := by
      rcases hfits with ⟨hx, _⟩ | ⟨hx, _⟩
      · exact hx
      · exact hx.symm
    have hbytes : bytes <+: r.drop (i + 1) ∨ r.drop (i + 1) <+: bytes := by
      rcases hfits with ⟨_, hfits⟩ | ⟨_, hfits⟩
      · exact .inl hfits
      · exact .inr hfits
    have htake : x :: (r.take i).reverse = (r.take (i + 1)).reverse := by
      rw [List.take_succ_eq_append_getElem hlt, List.reverse_append, List.reverse_singleton, hx]
      rfl
    have hfirst : ¬ (x = '\n' ∧ (r.take i).reverse = ['\r']) := by
      rintro ⟨hnewline, hreturn⟩
      have hone : i = 1 := by
        have hlength := congrArg List.length hreturn
        rw [List.length_reverse, List.length_take, List.length_singleton] at hlength
        omega
      rw [hreturn, hnewline, hone] at htake
      have hbegin := congrArg List.reverse htake
      rw [List.reverse_reverse] at hbegin
      exact hr.2 hbegin.symm
    rw [if_neg fun hblank => hend ((hr.1 i hi).mp hblank), if_neg hfirst, htake, ih hlt hbytes]
    have hmin : min (x :: bytes).length (r.length - i) = min bytes.length (r.length - (i + 1)) + 1 := by
      rw [List.length_cons]
      omega
    rw [hmin, Option.map_some, ← Nat.add_assoc, Nat.add_right_comm]

theorem parsed_head {r : List Char} (hr : Head r) {i : ℕ} {s : List Char}
    (h : Parsed scanner r i s) : i ≤ r.length ∧ s = (r.take i).reverse := by
  induction h with
  | reset => exact ⟨Nat.zero_le _, rfl⟩
  | consume _ hlt _ hfits hconsume ih =>
    obtain ⟨hi, rfl⟩ := ih
    have hscan := (scan_head hr hi hfits).symm.trans hconsume
    rw [Prod.mk.injEq, Option.some.injEq] at hscan
    obtain ⟨rfl, rfl⟩ := hscan
    exact ⟨by omega, rfl⟩

theorem scanner_stops {r : List Char} (hr : Head r) : StopsAtEnd scanner r := by
  refine ⟨fun i s chunk h _ _ hfits => ?_, fun i s h => ?_, fun _ _ => rfl⟩
  · obtain ⟨hi, rfl⟩ := parsed_head hr h
    exact congrArg Prod.fst (scan_head hr hi hfits)
  · obtain ⟨hi, rfl⟩ := parsed_head hr h
    exact decide_eq_true_iff.trans (hr.1 i hi)

def getRequest : List Char := "GET / HTTP/1.1\r\nHost: a\r\n\r\n".toList

theorem getRequest_head : Head getRequest := by decide

theorem two_gets : Requests scanner 10485760 [getRequest, getRequest] := by
  have hall : ∀ r ∈ [getRequest, getRequest], r = getRequest := by
    intro r hr
    rcases List.mem_pair.mp hr with rfl | rfl <;> rfl
  refine ⟨fun r hr => ?_, fun r hr => ?_, fun r hr => ?_, fun r hr => ?_, by decide⟩
  all_goals rw [hall r hr]
  · exact scanner_stops getRequest_head
  · decide
  · decide
  · decide

def twoGets : Net Char (List Char) :=
  .start scanner (.start ⟨1024, 1024, 0, 0, 0⟩ (List.replicate 1024 ' ')) [getRequest, getRequest].flatten

theorem separate_requests_dispatched :
    ∃ w, exec (Net.step scanner 10485760) twoGets [.recv 27, .check 0, .respond, .recv 27, .check 0,
        .respond, .recv 0, .check 0] = some w ∧
      w.client.point = .closed ∧ w.client.handled = [getRequest, getRequest] := by
  obtain ⟨w, hrun, hpoint, hrecvs⟩ : ∃ w, exec (Net.step scanner 10485760) twoGets [.recv 27,
      .check 0, .respond, .recv 27, .check 0, .respond, .recv 0, .check 0] = some w ∧
      w.client.point = .closed ∧ w.recvs = [(54, false), (27, false)] := ⟨_, rfl, rfl, rfl⟩
  obtain ⟨_, _, _, hall⟩ := requests_dispatched_iff (Session.new_of_lt .http (by decide) :
    Session.new .default .http = _) (by decide) (by decide) List.length_replicate two_gets hrun
  refine ⟨w, hrun, hpoint, (hall hpoint).mpr ?_⟩
  rw [hrecvs, timely_iff]
  decide

/-- Two requests in one chunk: the second one is in the buffer when the connection is closed. -/
theorem pipelined_request_lost :
    ¬ ∀ actions w, exec (Net.step scanner 10485760) twoGets actions = some w →
      w.client.point = .closed → w.client.handled = [getRequest, getRequest] := by
  intro hall
  have hhandled := hall [.recv 54, .check 0, .respond, .recv 0, .check 0] _ rfl rfl
  exact absurd (congrArg List.length hhandled) (by decide)


end MSylar.Server.Http
