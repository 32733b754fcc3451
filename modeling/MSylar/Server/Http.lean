import MSylar.Server.Buffer

/-!
# Serving an HTTP connection (httpServer.cc:60-117, 180-191, 281-330)

`handleClient` receives one request after the other with `co_recvRequest` and calls the url
handler for it. The request parser and the handlers are parameters; `errno` is whatever earlier
system calls have left in it.
-/

namespace MSylar.Server.Http
open MSylar.Execution MSylar.Word
variable {β σ : Type*}

/-- The request object. `consume` returns the number of bytes used, or throws; `closes` says that
the `Connection` header is `close`. -/
structure Parser (β σ : Type*) where
  reset : σ
  consume : σ → List β → Option ℕ × σ
  ready : σ → Bool
  closes : σ → Bool

/-- How `co_recvRequest` returns. -/
inductive Outcome where
  | received (total : ℕ)
  | closed
  | failed
  deriving DecidableEq

def Outcome.rt : Outcome → ℤ
  | .received total => int32 total
  | .closed => 0
  | .failed => -1

inductive Point where
  | receiving
  | checking (o : Outcome)
  | handling
  | closed
  | rescheduled
  deriving DecidableEq

/-- `keepAlive` is the session's flag and `isKeepAlive` the local variable. `current` records the
bytes of the request being received and `handled` those of the requests handed to `execHandler`. -/
structure Client (β σ : Type*) where
  buffered : Buffered β
  request : σ
  totalLength : ℕ
  keepAlive : Bool
  isKeepAlive : Bool
  responseCount : ℕ
  point : Point
  current : List β
  handled : List (List β)

def stackDeep : ℕ := 1000

def eagain : ℤ := 11

namespace Client

def start (P : Parser β σ) (b : Buffered β) : Client β σ :=
  ⟨b, P.reset, 0, true, false, 0, .receiving, [], []⟩

-- `updateSession`
def updateSession (P : Parser β σ) (c : Client β σ) : Client β σ :=
  if P.closes c.request then { c with keepAlive := false } else c

/-- What `co_recvRequest` does with the bytes that `recvMessage` has exposed. -/
def parse (P : Parser β σ) (maxRequestSize : ℕ) (c : Client β σ) (bytes : List β) : Client β σ :=
  match P.consume c.request bytes with
  | (none, request) => { c with request := request, point := .checking .failed }
  | (some solved, request) =>
    let used := { c with
      buffered := (c.buffered.consume solved).2
      request := request
      totalLength := add64 c.totalLength solved
      current := c.current ++ bytes.take solved }
    if maxRequestSize < used.totalLength then { used with point := .checking .failed }
    else if P.ready request then
      { used.updateSession P with point := .checking (.received used.totalLength) }
    else used

/-- One round of the loop in `co_recvRequest`; `none` is a failed assertion. -/
def recvRequest (P : Parser β σ) (maxRequestSize : ℕ) (c : Client β σ) (r : Recv β) :
    Option (Client β σ) :=
  (c.buffered.recvMessage r uint64Max).map fun res =>
    let c := { c with buffered := res.2.2 }
    if res.1 = 0 then { c with point := .checking .closed }
    else if res.1 < 0 then { c with point := .checking .failed }
    else c.parse P maxRequestSize (c.buffered.exposed res.2.1 res.1)

/-- The end of `handleClient`, after its loop. -/
def finish (c : Client β σ) : Client β σ :=
  if c.isKeepAlive ∧ stackDeep ≤ c.responseCount then { c with point := .rescheduled }
  else { c with point := .closed }

def check (c : Client β σ) (o : Outcome) (errno : ℤ) : Client β σ :=
  if o.rt = 0 then c.finish
  else if o.rt = -1 ∧ errno ≠ eagain then c.finish
  else if o.rt = -2 then c.finish
  else { c with
    isKeepAlive := c.keepAlive
    point := .handling
    handled := c.handled ++ [c.current] }

/-- The handler has returned and left the session's flag at `keep`. -/
def respond (P : Parser β σ) (c : Client β σ) (keep : Bool) : Client β σ :=
  let c := { c with keepAlive := keep, isKeepAlive := keep, responseCount := c.responseCount + 1 }
  if c.isKeepAlive ∧ c.responseCount < stackDeep then
    { c with request := P.reset, totalLength := 0, point := .receiving, current := [] }
  else c.finish

end Client

inductive Action (β : Type*) where
  | recv (r : Recv β)
  | check (errno : ℤ)
  | respond (keep : Bool)

namespace Client

def step (P : Parser β σ) (maxRequestSize : ℕ) (c : Client β σ) : Action β → Option (Client β σ)
  | .recv r => if c.point = .receiving then c.recvRequest P maxRequestSize r else none
  | .check errno =>
    match c.point with
    | .checking o => some (c.check o errno)
    | _ => none
  | .respond keep => if c.point = .handling then some (c.respond P keep) else none

/-- A handler is called for a request that has been received completely, and a receive that failed
or met the end of the stream is followed by the close of the connection. -/
def Proper (P : Parser β σ) (c : Client β σ) : Action β → Prop
  | .check errno => ∀ o, c.point = .checking o →
      ((c.check o errno).point = .handling → P.ready c.request = true) ∧
        (o = .closed ∨ o = .failed → (c.check o errno).point = .closed)
  | _ => True

/-- `errno` is not `EAGAIN` after a failed receive. -/
def ErrnoClear (c : Client β σ) : Action β → Prop
  | .check errno => c.point = .checking .failed → errno ≠ eagain
  | _ => True

instance (c : Client β σ) : (a : Action β) → Decidable (c.ErrnoClear a)
  | .check errno => inferInstanceAs (Decidable (c.point = .checking .failed → errno ≠ eagain))
  | .recv _ => isTrue trivial
  | .respond _ => isTrue trivial

/-! ### Handlers and failed receives -/

structure Inv (P : Parser β σ) (c : Client β σ) : Prop where
  ready : ∀ total, c.point = .checking (.received total) → P.ready c.request = true
  count : (c.point = .receiving ∨ ∃ o, c.point = .checking o) → c.responseCount < stackDeep

theorem updateSession_request (P : Parser β σ) (c : Client β σ) :
    (c.updateSession P).request = c.request ∧ (c.updateSession P).responseCount = c.responseCount := by
  unfold updateSession
  split <;> exact ⟨rfl, rfl⟩

theorem parse_spec (P : Parser β σ) (maxRequestSize : ℕ) (c : Client β σ) (bytes : List β) :
    (c.parse P maxRequestSize bytes).responseCount = c.responseCount ∧
      ∀ total, (c.parse P maxRequestSize bytes).point = .checking (.received total) →
        c.point = .receiving → P.ready (c.parse P maxRequestSize bytes).request = true := by
  unfold parse
  rcases P.consume c.request bytes with ⟨_ | solved, request⟩
  · exact ⟨rfl, fun total h => by cases h⟩
  · dsimp only
    split_ifs with hlong hready
    · exact ⟨rfl, fun total h => by cases h⟩
    · refine ⟨(updateSession_request P _).2, fun total _ _ => ?_⟩
      dsimp only
      rw [(updateSession_request P _).1]
      exact hready
    · refine ⟨rfl, fun total h hreceiving => ?_⟩
      dsimp only at h
      rw [hreceiving] at h
      cases h

theorem recvRequest_spec {P : Parser β σ} {maxRequestSize : ℕ} {c c' : Client β σ} {r : Recv β}
    (hc : c.point = .receiving) (h : c.recvRequest P maxRequestSize r = some c') :
    c'.responseCount = c.responseCount ∧
      ∀ total, c'.point = .checking (.received total) → P.ready c'.request = true := by
  obtain ⟨res, _, rfl⟩ := Option.map_eq_some_iff.mp h
  dsimp only
  split_ifs
  · exact ⟨rfl, fun total hp => by cases hp⟩
  · exact ⟨rfl, fun total hp => by cases hp⟩
  · obtain ⟨hcount, hready⟩ := parse_spec P maxRequestSize { c with buffered := res.2.2 }
      (({ c with buffered := res.2.2 } : Client β σ).buffered.exposed res.2.1 res.1)
    exact ⟨hcount, fun total hp => hready total hp hc⟩

theorem start_client_inv (P : Parser β σ) (b : Buffered β) : Inv P (start P b) := by
  refine ⟨fun total h => ?_, fun _ => Nat.succ_pos 999⟩
  cases h

theorem finish_point {c : Client β σ} (h : c.responseCount < stackDeep) :
    c.finish.point = .closed := by
  rw [finish, if_neg fun hc => absurd hc.2 (not_le.mpr h)]

theorem finish_point_cases (c : Client β σ) :
    c.finish.point = .closed ∨ c.finish.point = .rescheduled := by
  unfold finish
  split
  · exact .inr rfl
  · exact .inl rfl

theorem check_failed {c : Client β σ} {errno : ℤ} (hcount : c.responseCount < stackDeep) :
    (errno ≠ eagain → (c.check .failed errno).point = .closed) ∧
      (errno = eagain → (c.check .failed errno).point = .handling) := by
  unfold check
  rw [if_neg (by decide)]
  constructor
  · intro hclear
    rw [if_pos ⟨rfl, hclear⟩]
    exact finish_point hcount
  · intro hstale
    rw [if_neg fun h => h.2 hstale, if_neg (by decide)]

theorem check_closed {c : Client β σ} (errno : ℤ) (hcount : c.responseCount < stackDeep) :
    (c.check .closed errno).point = .closed := by
  have hzero : Outcome.closed.rt = 0 := rfl
  rw [check, if_pos hzero]
  exact finish_point hcount

theorem Inv.proper_iff {P : Parser β σ} {c : Client β σ} (h : Inv P c) (a : Action β) :
    c.Proper P a ↔ c.ErrnoClear a := by
  cases a with
  | recv r => exact Iff.rfl
  | respond keep => exact Iff.rfl
  | check errno =>
    constructor
    · intro hproper hpoint hstale
      have hclosed := (hproper .failed hpoint).2 (.inr rfl)
      rw [(check_failed (h.count (.inr ⟨_, hpoint⟩))).2 hstale] at hclosed
      cases hclosed
    · intro hclear o hpoint
      have hcount := h.count (.inr ⟨o, hpoint⟩)
      cases o with
      | received total =>
        exact ⟨fun _ => h.ready total hpoint, fun ho => by rcases ho with ho | ho <;> cases ho⟩
      | closed =>
        have hclosed := check_closed errno hcount
        refine ⟨fun hhandling => ?_, fun _ => hclosed⟩
        rw [hclosed] at hhandling
        cases hhandling
      | failed =>
        have hclosed := (check_failed hcount).1 (hclear hpoint)
        refine ⟨fun hhandling => ?_, fun _ => hclosed⟩
        rw [hclosed] at hhandling
        cases hhandling

/-- Past the loop nothing is left to check. -/
theorem Inv.of_point {P : Parser β σ} {c : Client β σ}
    (h : c.point = .handling ∨ c.point = .closed ∨ c.point = .rescheduled) : Inv P c := by
  constructor
  · intro total hpoint
    rw [hpoint] at h
    rcases h with h | h | h <;> cases h
  · rintro (hpoint | ⟨o, hpoint⟩)
    all_goals
      rw [hpoint] at h
      rcases h with h | h | h <;> cases h

theorem check_point_cases (c : Client β σ) (o : Outcome) (errno : ℤ) :
    (c.check o errno).point = .handling ∨ (c.check o errno).point = .closed ∨
      (c.check o errno).point = .rescheduled := by
  unfold check
  split_ifs
  · exact .inr (finish_point_cases c)
  · exact .inr (finish_point_cases c)
  · exact .inr (finish_point_cases c)
  · exact .inl rfl

theorem Inv.step {P : Parser β σ} {maxRequestSize : ℕ} {c c' : Client β σ} {a : Action β}
    (h : Inv P c) (hstep : c.step P maxRequestSize a = some c') : Inv P c' := by
  cases a with
  | recv r =>
    simp only [Client.step, Option.ite_none_right_eq_some] at hstep
    obtain ⟨hreceiving, hrecv⟩ := hstep
    obtain ⟨hcount, hready⟩ := recvRequest_spec hreceiving hrecv
    exact ⟨hready, fun _ => hcount ▸ h.count (.inl hreceiving)⟩
  | check errno =>
    cases hpoint : c.point with
    | checking o =>
      simp only [Client.step, hpoint, Option.some.injEq] at hstep
      exact hstep ▸ .of_point (check_point_cases c o errno)
    | _ =>
      simp only [Client.step, hpoint] at hstep
      cases hstep
  | respond keep =>
    simp only [Client.step, Option.ite_none_right_eq_some, Option.some.injEq] at hstep
    obtain ⟨_, rfl⟩ := hstep
    unfold respond
    dsimp only
    split_ifs with hagain
    · refine ⟨fun total hp => ?_, fun _ => hagain.2⟩
      cases hp
    · exact .of_point (.inr (finish_point_cases _))

end Client

/-- Over every run, handlers are called for complete requests only and every failed receive closes
the connection, exactly if `errno` is never `EAGAIN` when a failed receive is checked. -/
theorem handler_only_on_ready_iff (P : Parser β σ) (maxRequestSize : ℕ) (b : Buffered β)
    (actions : List (Action β)) :
    Guarded (Client.step P maxRequestSize) (Client.Proper P) (.start P b) actions ↔
      Guarded (Client.step P maxRequestSize) Client.ErrnoClear (.start P b) actions := by
  refine guarded_iff (fun c a hc _ => hc.proper_iff a) ?_ (Client.start_client_inv P b)
    (guarded_true _ _ _)
  intro c a c' hc _ _ hstep
  exact hc.step hstep

/-! ### A request line by line -/

def blankLine : List Char := ['\n', '\r', '\n', '\r']

/-- Reads up to the first blank line, and throws where it comes before a request line. The state
holds the bytes of the request, the latest first. -/
def scan (head : List Char) : List Char → Option ℕ × List Char
  | [] => (some 0, head)
  | x :: bytes =>
    if head.take 4 = blankLine then (some 0, head)
    else if x = '\n' ∧ head = ['\r'] then (none, x :: head)
    else ((scan (x :: head) bytes).1.map (· + 1), (scan (x :: head) bytes).2)

def scanner : Parser Char (List Char) := ⟨[], scan, fun head => head.take 4 = blankLine, fun _ => false⟩

/-- A request that cannot be parsed is given to its handler when an earlier call has left `EAGAIN`
in `errno`. -/
theorem malformed_request_handled :
    ¬ ∀ actions, Guarded (Client.step scanner 4096) (Client.Proper scanner)
      (.start scanner (.start ⟨1024, 1024, 0, 0, 0⟩ (List.replicate 1024 ' '))) actions := by
  intro hall
  obtain ⟨_, hchecked⟩ := hall [.recv (.data ['\r', '\n']), .check eagain]
  obtain ⟨hproper, _⟩ := hchecked _ rfl
  have hready := (hproper .failed rfl).1 rfl
  exact absurd hready (by decide)

end MSylar.Server.Http
