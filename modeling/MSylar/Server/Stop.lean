import Mathlib.Data.List.Basic
import MSylar.Lib.Calls
import MSylar.Lib.Execution

/-!
# Stopping a server (tcpServer.cc:107-166, socket.cc:358-373, httpServer.cc:333-362)

`stop()` may be called by several threads while the coroutines that accept connections run. Each
of them works on one listening socket; `HttpServer` has its own `startAccept`. A coroutine that is
scheduled waits in `tasks` until a thread begins it.
-/

namespace MSylar.Server
open MSylar.Calls MSylar.Execution

structure Sock where
  fd : ℤ
  isConnected : Bool
  deriving DecidableEq

namespace Sock

/-- `TcpServer::bind` leaves a socket so; only `init` and `connect` set `m_isConnected`. -/
def listening (fd : ℤ) : Sock := ⟨fd, false⟩

/-- The socket after `close`, and what it passes to `closeFd`. -/
def close (s : Sock) : Sock × List ℤ :=
  if s.isConnected = false ∨ s.fd = -1 then (s, [])
  else if s.fd ≠ -1 then (⟨-1, false⟩, [s.fd])
  else (⟨s.fd, false⟩, [])

theorem close_listening (fd : ℤ) : (listening fd).close = (listening fd, []) := rfl

end Sock

inductive ServerKind where
  | tcp
  | http
  deriving DecidableEq

/-- `tasks` holds the sockets of the `startAccept` coroutines that are scheduled; `rescheduled` tells
of each that was scheduled by another one whether that one left its loop after `m_stop` was set. -/
structure TcpServer where
  kind : ServerKind
  isStop : Bool
  sockets : List Sock
  closedFds : List ℤ
  clients : List ℕ
  tasks : List ℕ
  rescheduled : List Bool

inductive StopPoint where
  | check
  | set
  | closing (k : ℕ)
  | returned
  deriving DecidableEq

inductive AcceptPoint where
  | test
  | accepting
  | left (stopped : Bool)
  | finished
  deriving DecidableEq

structure Accept where
  sock : ℕ
  count : ℕ
  point : AcceptPoint
  deriving DecidableEq

inductive ServerCall where
  | stop (p : StopPoint)
  | accept (a : Accept)
  deriving DecidableEq

namespace TcpServer

/-- A step of `stop`. -/
def stop (s : TcpServer) : StopPoint → Option (TcpServer × StopPoint)
  | .check => some (s, if s.isStop then .returned else .set)
  | .set => some ({ s with isStop := true }, .closing 0)
  | .closing k =>
    match s.sockets[k]? with
    | some sock => some ({ s with
        sockets := s.sockets.set k sock.close.1
        closedFds := s.closedFds ++ sock.close.2 }, .closing (k + 1))
    | none => some (s, .returned)
  | .returned => none

/-- The test at the head of the loop of `startAccept`. -/
def acceptTest (s : TcpServer) (a : Accept) : Accept :=
  if s.isStop then { a with point := .left true }
  else match s.kind with
    | .tcp => { a with point := .accepting }
    | .http =>
      if a.count - 1 ≠ 0 then { a with count := a.count - 1, point := .accepting }
      else { a with count := a.count - 1, point := .left false }

/-- What follows the loop; only `HttpServer` has anything there. -/
def reschedule (s : TcpServer) (a : Accept) (stopped : Bool) : TcpServer :=
  match s.kind with
  | .tcp => s
  | .http => { s with
      tasks := s.tasks ++ [a.sock]
      rescheduled := s.rescheduled ++ [stopped] }

/-- A step of `startAccept`; `client` is the result of `accept`. -/
def startAccept (client : Option ℕ) (s : TcpServer) (a : Accept) : Option (TcpServer × Accept) :=
  match a.point with
  | .test => some (s, s.acceptTest a)
  | .accepting => some ({ s with clients := s.clients ++ client.toList }, { a with point := .test })
  | .left stopped => some (s.reschedule a stopped, { a with point := .finished })
  | .finished => none

def run (client : Option ℕ) (s : TcpServer) : ServerCall → Option (TcpServer × ServerCall)
  | .stop p => (s.stop p).map fun r => (r.1, .stop r.2)
  | .accept a => (s.startAccept client a).map fun r => (r.1, .accept r.2)

end TcpServer

inductive ServerAction where
  | callStop
  | begin (k : ℕ)
  | next (i : ℕ) (client : Option ℕ)

abbrev ServerRun := World TcpServer ServerCall

namespace ServerRun

/-- After `start`: one coroutine is scheduled for each listening socket. -/
def start (kind : ServerKind) (fds : List ℤ) : ServerRun :=
  ⟨⟨kind, false, fds.map Sock.listening, [], [], List.range fds.length, []⟩, []⟩

def step (w : ServerRun) : ServerAction → Option ServerRun
  | .callStop => some (w.enter (.stop .check))
  | .begin k => w.shared.tasks[k]?.map fun sock =>
      World.enter ⟨{ w.shared with tasks := w.shared.tasks.eraseIdx k }, w.calls⟩
        (.accept ⟨sock, 1000, .test⟩)
  | .next i client => w.advance (TcpServer.run client) i

def Returned (w : ServerRun) : Prop := ∃ c ∈ w.calls, c = ServerCall.stop .returned

/-- A server whose `stop()` has returned has closed its listening sockets, each once, and nobody
has scheduled an accept loop after leaving one because of it. -/
structure Stopped (fds : List ℤ) (w : ServerRun) : Prop where
  closedOnce : w.Returned → ∀ fd ∈ fds, w.shared.closedFds.count fd = 1
  unset : w.Returned → ∀ sock ∈ w.shared.sockets, sock.fd = -1
  quiet : true ∉ w.shared.rescheduled

/-- The step does not return from `stop()` while there are listening sockets, and is not the end of
an `HttpServer::startAccept` that has met `m_stop`. -/
def Clean (s : TcpServer) : ServerCall → Prop
  | .stop .check => s.isStop = true → s.sockets = []
  | .stop (.closing k) => s.sockets[k]? = none → s.sockets = []
  | .accept a => ¬(s.kind = .http ∧ a.point = .left true)
  | .stop .set => True
  | .stop .returned => True

def guard (w : ServerRun) : ServerAction → Prop
  | .next i _ => ∀ c ∈ w.calls[i]?, Clean w.shared c
  | _ => True

instance (s : TcpServer) : DecidablePred (Clean s)
  | .stop .check => inferInstanceAs (Decidable (s.isStop = true → s.sockets = []))
  | .stop (.closing k) => inferInstanceAs (Decidable (s.sockets[k]? = none → s.sockets = []))
  | .accept a => inferInstanceAs (Decidable ¬(s.kind = .http ∧ a.point = .left true))
  | .stop .set | .stop .returned => isTrue trivial

instance (w : ServerRun) : DecidablePred (guard w)
  | .next i _ => inferInstanceAs (Decidable (∀ c ∈ w.calls[i]?, Clean w.shared c))
  | .begin _ | .callStop => isTrue trivial

/-! ### What every step keeps -/

/-- `close` has no effect on a listening socket. -/
structure Untouched (fds : List ℤ) (s : TcpServer) : Prop where
  sockets : s.sockets = fds.map Sock.listening
  closedFds : s.closedFds = []

variable {fds : List ℤ} {s s' : TcpServer} {w w' : ServerRun}

theorem Untouched.nil_iff (h : Untouched fds s) : s.sockets = [] ↔ fds = [] := by
  rw [h.sockets, List.map_eq_nil_iff]

theorem Untouched.close (h : Untouched fds s) {k : ℕ} {sock : Sock} (hk : s.sockets[k]? = some sock) :
    Untouched fds { s with
      sockets := s.sockets.set k sock.close.1
      closedFds := s.closedFds ++ sock.close.2 } := by
  obtain ⟨hlt, hget⟩ := List.getElem?_eq_some_iff.mp hk
  have hmem : sock ∈ fds.map Sock.listening := h.sockets ▸ List.mem_of_getElem? hk
  obtain ⟨fd, -, rfl⟩ := List.mem_map.mp hmem
  rw [Sock.close_listening]
  refine ⟨?_, by rw [List.append_nil, h.closedFds]⟩
  show s.sockets.set k (Sock.listening fd) = _
  rw [← hget, List.set_getElem_self, h.sockets]

theorem run_untouched (h : Untouched fds s) {client : Option ℕ} {c c' : ServerCall}
    (hrun : TcpServer.run client s c = some (s', c')) : Untouched fds s' := by
  cases c with
  | stop p =>
    obtain ⟨⟨s₁, p₁⟩, hstop, heq⟩ := Option.map_eq_some_iff.mp hrun
    obtain ⟨rfl, -⟩ := Prod.mk.inj heq
    cases p with
    | check =>
      cases hstop
      exact h
    | set =>
      cases hstop
      exact ⟨h.sockets, h.closedFds⟩
    | closing k =>
      simp only [TcpServer.stop] at hstop
      split at hstop
      · rename_i sock hk
        cases hstop
        exact h.close hk
      · cases hstop
        exact h
    | returned => cases hstop
  | accept a =>
    obtain ⟨⟨s₁, a₁⟩, haccept, heq⟩ := Option.map_eq_some_iff.mp hrun
    obtain ⟨rfl, -⟩ := Prod.mk.inj heq
    unfold TcpServer.startAccept at haccept
    split at haccept <;> cases haccept
    · exact h
    · exact ⟨h.sockets, h.closedFds⟩
    · unfold TcpServer.reschedule
      split
      · exact h
      · exact ⟨h.sockets, h.closedFds⟩

/-- A step is clean exactly if no `stop` returns in it while there are listening sockets, and no
accept loop is scheduled again on a server that was stopped. -/
theorem run_clean (h : Untouched fds s) (hquiet : true ∉ s.rescheduled) {client : Option ℕ}
    {c c' : ServerCall} (hrun : TcpServer.run client s c = some (s', c')) :
    ((c' = .stop .returned → fds = []) ∧ true ∉ s'.rescheduled) ↔ Clean s c := by
  cases c with
  | stop p =>
    obtain ⟨⟨s₁, p₁⟩, hstop, heq⟩ := Option.map_eq_some_iff.mp hrun
    obtain ⟨rfl, rfl⟩ := Prod.mk.inj heq
    cases p with
    | check =>
      cases hstop
      rw [and_iff_left hquiet]
      unfold Clean
      rw [h.nil_iff]
      cases s.isStop <;> simp
    | set =>
      cases hstop
      simp [Clean, hquiet]
    | closing k =>
      simp only [TcpServer.stop] at hstop
      unfold Clean
      rw [h.nil_iff]
      split at hstop
      · rename_i sock hk
        cases hstop
        simp [hk, hquiet]
      · rename_i hk
        cases hstop
        simp [hk, hquiet]
    | returned => cases hstop
  | accept a =>
    obtain ⟨⟨s₁, a₁⟩, haccept, heq⟩ := Option.map_eq_some_iff.mp hrun
    obtain ⟨rfl, rfl⟩ := Prod.mk.inj heq
    unfold TcpServer.startAccept at haccept
    unfold Clean
    split at haccept <;> rename_i hpoint <;> cases haccept
    · simp [hpoint, hquiet]
    · simp [hpoint, hquiet]
    · unfold TcpServer.reschedule
      split <;> rename_i hkind <;> simp [hpoint, hkind, hquiet]

/-! ### Whole runs -/

theorem step_untouched {a : ServerAction} (h : Untouched fds w.shared) (hstep : step w a = some w') :
    Untouched fds w'.shared := by
  cases a with
  | callStop =>
    cases hstep
    exact h
  | begin k =>
    obtain ⟨sock, -, rfl⟩ := Option.map_eq_some_iff.mp hstep
    exact ⟨h.sockets, h.closedFds⟩
  | next i client =>
    obtain ⟨c, s, c', -, hrun, rfl⟩ := advance_cases hstep
    exact run_untouched h hrun

/-- No socket is ever closed, so the first part is about there being none. -/
theorem stopped_iff (h : Untouched fds w.shared) :
    Stopped fds w ↔ (w.Returned → fds = []) ∧ true ∉ w.shared.rescheduled := by
  constructor
  · rintro ⟨hclosed, -, hquiet⟩
    refine ⟨fun hret => List.eq_nil_iff_forall_not_mem.mpr fun fd hfd => ?_, hquiet⟩
    have hone := hclosed hret fd hfd
    rw [h.closedFds, List.count_nil] at hone
    exact absurd hone (by decide)
  · rintro ⟨hnil, hquiet⟩
    refine ⟨fun hret => by simp [hnil hret], fun hret => ?_, hquiet⟩
    simp [h.sockets, hnil hret]

theorem returned_enter {c : ServerCall} (hc : c ≠ .stop .returned) :
    Returned (World.enter w c) ↔ w.Returned := by
  unfold Returned World.enter
  constructor
  · exact exists_of_enter hc
  · rintro ⟨d, hd, hret⟩
    exact ⟨d, List.mem_append_left _ hd, hret⟩

theorem returned_set {i : ℕ} {client : Option ℕ} {c c' : ServerCall} (hc : w.calls[i]? = some c)
    (hrun : TcpServer.run client w.shared c = some (s', c')) :
    Returned ⟨s', w.calls.set i c'⟩ ↔ w.Returned ∨ c' = .stop .returned := by
  have hne : c ≠ .stop .returned := by
    rintro rfl
    cases hrun
  constructor
  · rintro ⟨d, hd, hret⟩
    rcases List.mem_or_eq_of_mem_set hd with hd | rfl
    · exact Or.inl ⟨d, hd, hret⟩
    · exact Or.inr hret
  · rintro (hold | hret)
    · exact exists_set hc (fun h => absurd h hne) hold
    · exact ⟨c', mem_set_self hc c', hret⟩

theorem step_stopped {a : ServerAction} (h : Untouched fds w.shared) (hgood : Stopped fds w)
    (hstep : step w a = some w') : Stopped fds w' ↔ guard w a := by
  rw [stopped_iff (step_untouched h hstep)]
  obtain ⟨hnil, hquiet⟩ := (stopped_iff h).mp hgood
  cases a with
  | callStop =>
    cases hstep
    rw [returned_enter (by decide)]
    exact iff_of_true ⟨hnil, hquiet⟩ trivial
  | begin k =>
    obtain ⟨sock, -, rfl⟩ := Option.map_eq_some_iff.mp hstep
    rw [returned_enter (by simp)]
    exact iff_of_true ⟨hnil, hquiet⟩ trivial
  | next i client =>
    obtain ⟨c, s, c', hc, hrun, rfl⟩ := advance_cases hstep
    have hguard : guard w (.next i client) ↔ Clean w.shared c := by simp [guard, hc]
    rw [returned_set hc hrun, hguard, ← run_clean h hquiet hrun, or_imp]
    exact and_congr_left fun _ => and_iff_right hnil

theorem start_untouched (kind : ServerKind) (fds : List ℤ) :
    Untouched fds (start kind fds).shared := ⟨rfl, rfl⟩

theorem start_stopped (kind : ServerKind) (fds : List ℤ) : Stopped fds (start kind fds) :=
  (stopped_iff (start_untouched kind fds)).mpr ⟨by simp [Returned, start], by simp [start]⟩

theorem stop_closes_iff (kind : ServerKind) (fds : List ℤ) (as : List ServerAction) (w : ServerRun)
    (hrun : exec step (start kind fds) as = some w) :
    (∀ bs, bs <+: as → ∀ u, exec step (start kind fds) bs = some u → Stopped fds u) ↔
      Guarded step guard (start kind fds) as :=
  forall_prefix_iff (fun _ _ _ => step_untouched) (fun _ _ _ => step_stopped)
    (start_untouched kind fds) (start_stopped kind fds) hrun

/-- A coroutine of a `TcpServer` ends when it meets `m_stop`. -/
theorem tcp_accept_ends : ∃ u, exec step (start .tcp [3]) [.begin 0, .next 0 (some 7), .callStop,
    .next 1 none, .next 1 none, .next 0 none, .next 0 none, .next 0 none] = some u ∧
    Stopped [3] u := by
  obtain ⟨u, hu⟩ : ∃ u, exec step (start .tcp [3]) [.begin 0, .next 0 (some 7), .callStop,
    .next 1 none, .next 1 none, .next 0 none, .next 0 none, .next 0 none] = some u := ⟨_, rfl⟩
  exact ⟨u, hu, (stop_closes_iff .tcp [3] _ u hu).mpr (by decide) _ (List.prefix_refl _) u hu⟩

/-- `stop()` has returned and nothing is closed; an accept loop that has met `m_stop` is scheduled
again. -/
theorem stop_leaves_open :
    (∃ u, exec step (start .tcp [3]) [.callStop, .next 0 none, .next 0 none, .next 0 none,
      .next 0 none] = some u ∧ ¬Stopped [3] u) ∧
    ∃ u, exec step (start .http [3]) [.begin 0, .callStop, .next 1 none, .next 1 none,
      .next 0 none, .next 0 none] = some u ∧ u.shared.tasks = [0] ∧ ¬Stopped [3] u := by
  refine ⟨⟨_, rfl, fun h => ?_⟩, ⟨_, rfl, rfl, fun h => h.quiet (by decide)⟩⟩
  have hone := h.closedOnce ⟨_, List.mem_cons_self, rfl⟩ 3 (by decide)
  exact absurd hone (by decide)

end ServerRun

end MSylar.Server
