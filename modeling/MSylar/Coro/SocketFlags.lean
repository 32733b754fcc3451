import Mathlib.Data.BitVec
import MSylar.Basic.FdManager

/-!
# The flags of a socket (hook.cc:476-531, 603-621, fdManager.cc:34-74)

`FdCtx::init` makes a socket non-blocking. `co_fcntl` and `co_ioctl` keep what the caller asked for
in the context and pass a call on to the kernel. A pointer is a number; an `int` is a word of 32
bits, with -1 as the word of all ones. Of the operations of `co_fcntl` only F_SETFL and F_GETFL
touch the flags.
-/

namespace MSylar.Coro
open MSylar.Basic MSylar.Execution

def oNonblock : BitVec 32 := 0x800
def oAsync : BitVec 32 := 0x2000
def fionbio : ℕ := 0x5421
def fioasync : ℕ := 0x5452

/-- The `int`s that the kernel can read; the first page of the memory is never mapped. -/
structure Memory where
  read : ℕ → Option (BitVec 32)
  firstPage : ∀ p < 4096, read p = none

/-- The kernel, by the flags that F_SETFL can change. -/
structure Kernel where
  settable : BitVec 32
  nonblock : settable.getLsbD 11 = true

inductive SysCall where
  | setfl (arg : BitVec 32)
  | getfl
  | fcntl (op arg : ℕ)
  | ioctl (op arg : ℕ)
  deriving DecidableEq

def Kernel.setfl (k : Kernel) (flags arg : BitVec 32) : BitVec 32 :=
  flags &&& ~~~k.settable ||| arg &&& k.settable

def setFlag (flag flags v : BitVec 32) : BitVec 32 :=
  if v ≠ 0 then flags ||| flag else flags &&& ~~~flag

/-- The flags after a call that the kernel has nothing against; `none` is EFAULT. -/
def Kernel.perform (k : Kernel) (mem : Memory) (flags : BitVec 32) : SysCall → Option (BitVec 32)
  | .setfl arg => some (k.setfl flags arg)
  | .getfl => some flags
  | .fcntl _ _ => some flags
  | .ioctl op arg =>
    if op = fionbio then (mem.read arg).map (setFlag oNonblock flags)
    else if op = fioasync then (mem.read arg).map (setFlag oAsync flags)
    else some flags

/-- The result of a call, `none` for a failed one, and the flags after it. The kernel may fail any
call; `outcome` is its result otherwise. -/
def Kernel.answer (k : Kernel) (mem : Memory) (flags : BitVec 32) (call : SysCall)
    (outcome : Option (BitVec 32)) : Option (BitVec 32) × BitVec 32 :=
  match outcome, k.perform mem flags call with
  | some r, some flags' => (some (if call = .getfl then flags else r), flags')
  | _, _ => (none, flags)

/-! ### The wrappers -/

def openSocket (ctx : Option FdCtx) : Option FdCtx :=
  ctx.filter fun c => !c.isClosed && c.isSocket

/-- `co_fcntl` with F_SETFL: the context after it and the call of the kernel. `!O_NONBLOCK` is 0. -/
def coFcntlSetfl (ctx : Option FdCtx) (arg : BitVec 32) : Option FdCtx × SysCall :=
  match openSocket ctx with
  | none => (ctx, .setfl arg)
  | some c =>
    let c := { c with userNoblock := decide (arg &&& oNonblock ≠ 0) }
    (some c, .setfl (if c.sysNoblock then arg ||| oNonblock else arg &&& 0))

/-- What `co_fcntl` returns for F_GETFL when the kernel has returned `value`. -/
def coFcntlGetfl (ctx : Option FdCtx) (value : BitVec 32) : BitVec 32 :=
  match openSocket ctx with
  | none => value
  | some c => if c.userNoblock then value ||| oNonblock else value &&& ~~~oNonblock

/-- `none` is the crash when `arg` points to no `int`. -/
def coIoctl (mem : Memory) (ctx : Option FdCtx) (op arg : ℕ) : Option (Option FdCtx × SysCall) :=
  if op = fionbio then do
    let userNonblock ← (mem.read arg).map fun v => decide (v ≠ 0)
    match openSocket ctx with
    | none => some (ctx, .fcntl op arg)
    | some c => some (some { c with userNoblock := userNonblock }, .ioctl op 1)
  else some (ctx, .ioctl op 1)

/-- `FdCtx::init` on a socket with these flags; `get` and `set` say whether its calls of `fcntl`
succeed. -/
def initFlags (k : Kernel) (flags : BitVec 32) (get set : Bool) : BitVec 32 :=
  let flag := if get then flags else ~~~0
  if flag &&& oNonblock = 0 then if set then k.setfl flags (flag ||| oNonblock) else flags
  else flags

/-! ### Sequences of calls -/

inductive FlagCall where
  | setfl (arg : BitVec 32)
  | getfl
  | ioctl (op arg : ℕ)

def FlagCall.direct : FlagCall → SysCall
  | .setfl arg => .setfl arg
  | .getfl => .getfl
  | .ioctl op arg => .ioctl op arg

/-- A managed socket: its context, the kernel's flags, and the flags as they were last successfully
set through the wrappers. -/
structure Socket where
  ctx : FdCtx
  flags : BitVec 32
  view : BitVec 32

/-- What one call has done: the context, the call of the kernel with its result, the kernel's flags
and the value returned. -/
structure CallDone where
  ctx : Option FdCtx
  made : SysCall
  reply : Option (BitVec 32)
  flags : BitVec 32
  returned : BitVec 32

namespace Socket
variable (k : Kernel) (mem : Memory)

def finish (s : Socket) (outcome : Option (BitVec 32)) (w : Option FdCtx × SysCall)
    (returns : BitVec 32 → BitVec 32) : CallDone :=
  let answer := k.answer mem s.flags w.2 outcome
  ⟨w.1, w.2, answer.1, answer.2, returns (answer.1.getD (~~~0))⟩

def call (s : Socket) (a : FlagCall × Option (BitVec 32)) : Option CallDone :=
  match a.1 with
  | .setfl arg => some (finish k mem s a.2 (coFcntlSetfl (some s.ctx) arg) id)
  | .getfl => some (finish k mem s a.2 (some s.ctx, .getfl) (coFcntlGetfl (some s.ctx)))
  | .ioctl op arg => (coIoctl mem (some s.ctx) op arg).map fun w => finish k mem s a.2 w id

def step (s : Socket) (a : FlagCall × Option (BitVec 32)) : Option Socket := do
  let r ← s.call k mem a
  let ctx ← r.ctx
  some ⟨ctx, r.flags,
    if r.reply.isSome then (k.perform mem s.view a.1.direct).getD s.view else s.view⟩

/-- After `init`, with no flags set through the wrappers yet. -/
def start (fd : ℕ) (flags : BitVec 32) : Socket :=
  ⟨FdCtx.new fd (some true), flags, flags &&& ~~~oNonblock⟩

/-- One call keeps the flag in the kernel, reports the flags that were set, changes nothing where it
fails, and passes other operations of `ioctl` on as they are. -/
structure VirtualCall (s : Socket) (a : FlagCall × Option (BitVec 32)) (r : CallDone) : Prop where
  kept : r.flags.getLsbD 11 = true
  reported : a.1 = .getfl → r.reply.isSome → r.returned = s.view
  failed : r.reply = none → r.flags = s.flags ∧
    r.ctx.map FdCtx.userNoblock = some s.ctx.userNoblock
  passed : ∀ op arg, a.1 = .ioctl op arg → op ≠ fionbio → r.made = .ioctl op arg

def Virtualises (s : Socket) (a : FlagCall × Option (BitVec 32)) : Prop :=
  ∀ r, s.call k mem a = some r → VirtualCall s a r

/-- A call that fails asks for the mode that the context has; another operation of `ioctl` has the
argument 1. FIONBIO always fails, since it is the address 1 that the kernel gets. -/
def Harmless (s : Socket) (a : FlagCall × Option (BitVec 32)) : Prop :=
  match a.1 with
  | .setfl arg => a.2 = none → decide (arg &&& oNonblock ≠ 0) = s.ctx.userNoblock
  | .getfl => True
  | .ioctl op arg =>
    if op = fionbio then ∀ v, mem.read arg = some v → decide (v ≠ 0) = s.ctx.userNoblock
    else arg = 1

end Socket

/-! ### The bit of O_NONBLOCK -/

theorem oNonblock_eq : oNonblock = BitVec.twoPow 32 11 := by decide

theorem getLsbD_oNonblock (i : ℕ) : oNonblock.getLsbD i = decide (i = 11) := by
  rw [oNonblock_eq, BitVec.getLsbD_twoPow]
  simp [eq_comm]

theorem asks_iff (x : BitVec 32) : decide (x &&& oNonblock ≠ 0) = x.getLsbD 11 := by
  rw [oNonblock_eq, BitVec.and_twoPow]
  cases x.getLsbD 11 <;> decide

theorem or_nonblock {x : BitVec 32} (h : x.getLsbD 11 = true) : x ||| oNonblock = x := by
  refine BitVec.eq_of_getLsbD_eq fun i _ => ?_
  rw [BitVec.getLsbD_or, getLsbD_oNonblock]
  by_cases hi : i = 11
  · rw [hi, h, Bool.true_or]
  · rw [decide_eq_false hi, Bool.or_false]

theorem and_not_nonblock {x : BitVec 32} (h : x.getLsbD 11 = false) :
    (x ||| oNonblock) &&& ~~~oNonblock = x := by
  refine BitVec.eq_of_getLsbD_eq fun i hi => ?_
  rw [BitVec.getLsbD_and, BitVec.getLsbD_or, BitVec.getLsbD_not, getLsbD_oNonblock]
  by_cases h11 : i = 11
  · rw [h11, h]
    rfl
  · simp [h11, hi]

theorem getLsbD_or_nonblock (x : BitVec 32) : (x ||| oNonblock).getLsbD 11 = true := by
  rw [BitVec.getLsbD_or, getLsbD_oNonblock, decide_eq_true rfl, Bool.or_true]

theorem Kernel.getLsbD_setfl (k : Kernel) (flags arg : BitVec 32) :
    (k.setfl flags arg).getLsbD 11 = arg.getLsbD 11 := by
  unfold Kernel.setfl
  rw [BitVec.getLsbD_or, BitVec.getLsbD_and, BitVec.getLsbD_and, BitVec.getLsbD_not, k.nonblock]
  simp

theorem Kernel.setfl_or_nonblock (k : Kernel) (flags arg : BitVec 32) :
    k.setfl (flags ||| oNonblock) (arg ||| oNonblock) = k.setfl flags arg ||| oNonblock := by
  unfold Kernel.setfl
  refine BitVec.eq_of_getLsbD_eq fun i hi => ?_
  simp only [BitVec.getLsbD_or, BitVec.getLsbD_and, BitVec.getLsbD_not, getLsbD_oNonblock, hi,
    decide_true, Bool.true_and]
  cases k.settable.getLsbD i <;> simp

/-! ### One call -/

/-- The caller's view is what the context and the kernel's flags say together. -/
structure Socket.Inv (s : Socket) : Prop where
  isOpen : openSocket (some s.ctx) = some s.ctx
  sysNoblock : s.ctx.sysNoblock = true
  user : s.ctx.userNoblock = s.view.getLsbD 11
  flags : s.flags = s.view ||| oNonblock

namespace Socket
variable {k : Kernel} {mem : Memory} {s t : Socket}

theorem openSocket_noblock {c : FdCtx} (h : openSocket (some c) = some c) (v : Bool) :
    openSocket (some { c with userNoblock := v }) = some { c with userNoblock := v } := by
  unfold openSocket at h ⊢
  rw [Option.filter_some_eq_some] at h
  exact if_pos h

theorem Inv.kept (h : Inv s) : s.flags.getLsbD 11 = true := h.flags ▸ getLsbD_or_nonblock _

theorem Inv.getfl (h : Inv s) : coFcntlGetfl (some s.ctx) s.flags = s.view := by
  unfold coFcntlGetfl
  rw [h.isOpen, h.flags]
  dsimp only
  rw [h.user]
  cases hview : s.view.getLsbD 11 with
  | true => rw [if_pos rfl, BitVec.or_assoc, BitVec.or_self, or_nonblock hview]
  | false => rw [if_neg Bool.false_ne_true, and_not_nonblock hview]

theorem call_setfl (h : Inv s) (arg : BitVec 32) (outcome : Option (BitVec 32)) :
    s.call k mem (.setfl arg, outcome) = some ⟨some { s.ctx with userNoblock := arg.getLsbD 11 },
      .setfl (arg ||| oNonblock), outcome,
      if outcome = none then s.flags else k.setfl s.flags (arg ||| oNonblock),
      outcome.getD (~~~0)⟩ := by
  unfold call coFcntlSetfl finish
  rw [h.isOpen]
  dsimp only
  rw [if_pos h.sysNoblock, asks_iff]
  cases outcome <;> rfl

theorem call_getfl (h : Inv s) (outcome : Option (BitVec 32)) :
    s.call k mem (.getfl, outcome) = some ⟨some s.ctx, .getfl, outcome.map fun _ => s.flags, s.flags,
      if outcome = none then coFcntlGetfl (some s.ctx) (~~~0) else s.view⟩ := by
  unfold call finish
  cases outcome with
  | none => rfl
  | some r =>
    rw [if_neg (Option.some_ne_none r), ← h.getfl]
    rfl

/-- The address 1 belongs to the first page, so the kernel reads nothing there. -/
theorem perform_ioctl (k : Kernel) (mem : Memory) (flags : BitVec 32) (op : ℕ) :
    k.perform mem flags (.ioctl op 1) = if op = fionbio ∨ op = fioasync then none else some flags := by
  have hread : mem.read 1 = none := mem.firstPage 1 (by norm_num)
  show (if op = fionbio then (mem.read 1).map _ else if op = fioasync then (mem.read 1).map _
    else some flags) = _
  rw [hread, Option.map_none, Option.map_none]
  by_cases hio : op = fionbio
  · rw [if_pos hio, if_pos (Or.inl hio)]
  · rw [if_neg hio]
    exact if_congr (or_iff_right hio).symm rfl rfl

theorem answer_ioctl (k : Kernel) (mem : Memory) (flags : BitVec 32) (op : ℕ)
    (outcome : Option (BitVec 32)) :
    (k.answer mem flags (.ioctl op 1) outcome).2 = flags ∧
      (op = fionbio ∨ op = fioasync → (k.answer mem flags (.ioctl op 1) outcome).1 = none) := by
  unfold Kernel.answer
  rw [perform_ioctl]
  by_cases h : op = fionbio ∨ op = fioasync
  · rw [if_pos h]
    cases outcome <;> exact ⟨rfl, fun _ => rfl⟩
  · rw [if_neg h]
    exact ⟨by cases outcome <;> rfl, fun hio => absurd hio h⟩

theorem call_fionbio (h : Inv s) {arg : ℕ} {v : BitVec 32} (hv : mem.read arg = some v)
    (outcome : Option (BitVec 32)) :
    s.call k mem (.ioctl fionbio arg, outcome) = some ⟨
      some { s.ctx with userNoblock := decide (v ≠ 0) }, .ioctl fionbio 1, none, s.flags, ~~~0⟩ := by
  obtain ⟨hflags, hnone⟩ := answer_ioctl k mem s.flags fionbio outcome
  unfold call coIoctl finish
  dsimp only
  rw [if_pos rfl, hv, h.isOpen]
  dsimp only [Option.map_some, Option.bind_eq_bind, Option.bind_some]
  rw [hflags, hnone (Or.inl rfl)]
  rfl

theorem call_fionbio_crash (k : Kernel) (s : Socket) {arg : ℕ} (hread : mem.read arg = none)
    (outcome : Option (BitVec 32)) : s.call k mem (.ioctl fionbio arg, outcome) = none := by
  unfold call coIoctl
  dsimp only
  rw [if_pos rfl, hread]
  rfl

theorem call_ioctl (k : Kernel) (mem : Memory) (s : Socket) {op : ℕ} (hop : op ≠ fionbio) (arg : ℕ)
    (outcome : Option (BitVec 32)) :
    ∃ reply returned, s.call k mem (.ioctl op arg, outcome) =
      some ⟨some s.ctx, .ioctl op 1, reply, s.flags, returned⟩ ∧ (op = fioasync → reply = none) := by
  obtain ⟨hflags, hnone⟩ := answer_ioctl k mem s.flags op outcome
  refine ⟨(k.answer mem s.flags (.ioctl op 1) outcome).1,
    (k.answer mem s.flags (.ioctl op 1) outcome).1.getD (~~~0), ?_,
    fun hasync => hnone (Or.inr hasync)⟩
  unfold call coIoctl finish
  dsimp only
  rw [if_neg hop, Option.map_some, hflags]
  rfl

theorem virtual_of_call {a : FlagCall × Option (BitVec 32)} {r : CallDone}
    (h : s.call k mem a = some r) : Virtualises k mem s a ↔ VirtualCall s a r := by
  unfold Virtualises
  rw [h]
  exact ⟨fun hall => hall r rfl, fun hr r' hr' => Option.some.inj hr' ▸ hr⟩

theorem virtual_setfl_iff (h : Inv s) (arg : BitVec 32) (outcome : Option (BitVec 32)) :
    Virtualises k mem s (.setfl arg, outcome) ↔ Harmless mem s (.setfl arg, outcome) := by
  rw [virtual_of_call (call_setfl h arg outcome)]
  unfold Harmless
  dsimp only
  rw [asks_iff]
  constructor
  · rintro hvirtual rfl
    exact Option.some.inj (hvirtual.failed rfl).2
  · intro hharmless
    refine ⟨?_, (fun hget => nomatch hget), fun hfail => ?_, fun _ _ hio => nomatch hio⟩
    · dsimp only
      split
      · exact h.kept
      · rw [k.getLsbD_setfl, getLsbD_or_nonblock]
    · obtain rfl : outcome = none := hfail
      refine ⟨?_, congrArg some (hharmless rfl)⟩
      dsimp only
      rw [if_pos rfl]

theorem virtual_getfl (h : Inv s) (outcome : Option (BitVec 32)) :
    Virtualises k mem s (.getfl, outcome) := by
  rw [virtual_of_call (call_getfl h outcome)]
  refine ⟨h.kept, fun _ hsome => ?_, fun _ => ⟨rfl, rfl⟩, fun _ _ hio => nomatch hio⟩
  cases outcome with
  | none => cases hsome
  | some r =>
    dsimp only
    rw [if_neg (Option.some_ne_none r)]

theorem virtual_fionbio_iff (h : Inv s) (arg : ℕ) (outcome : Option (BitVec 32)) :
    Virtualises k mem s (.ioctl fionbio arg, outcome) ↔
      ∀ v, mem.read arg = some v → decide (v ≠ 0) = s.ctx.userNoblock := by
  cases hread : mem.read arg with
  | none =>
    unfold Virtualises
    rw [call_fionbio_crash k s hread outcome]
    exact iff_of_true (fun _ hr => nomatch hr) fun _ hv => nomatch hv
  | some v =>
    rw [virtual_of_call (call_fionbio h hread outcome)]
    constructor
    · intro hvirtual v' hv'
      cases hv'
      exact Option.some.inj (hvirtual.failed rfl).2
    · intro hharmless
      refine ⟨h.kept, (fun hget => nomatch hget), fun _ => ⟨rfl, congrArg some (hharmless v rfl)⟩,
        ?_⟩
      rintro _ _ hio hne
      cases hio
      exact absurd rfl hne

theorem virtual_ioctl_iff (h : Inv s) {op : ℕ} (hop : op ≠ fionbio) (arg : ℕ)
    (outcome : Option (BitVec 32)) : Virtualises k mem s (.ioctl op arg, outcome) ↔ arg = 1 := by
  obtain ⟨reply, returned, hcall, -⟩ := call_ioctl k mem s hop arg outcome
  rw [virtual_of_call hcall]
  constructor
  · intro hvirtual
    have hpassed := hvirtual.passed op arg rfl hop
    exact (SysCall.ioctl.inj hpassed).2.symm
  · rintro rfl
    refine ⟨h.kept, (fun hget => nomatch hget), fun _ => ⟨rfl, rfl⟩, ?_⟩
    rintro _ _ hio -
    cases hio
    rfl

theorem virtual_iff (h : Inv s) (a : FlagCall × Option (BitVec 32)) :
    Virtualises k mem s a ↔ Harmless mem s a := by
  obtain ⟨c, outcome⟩ := a
  cases c with
  | setfl arg => exact virtual_setfl_iff h arg outcome
  | getfl => exact iff_of_true (virtual_getfl h outcome) trivial
  | ioctl op arg =>
    unfold Harmless
    dsimp only
    by_cases hop : op = fionbio
    · rw [if_pos hop, hop, virtual_fionbio_iff h]
    · rw [if_neg hop, virtual_ioctl_iff h hop]

/-! ### Whole sequences -/

theorem step_cases {a : FlagCall × Option (BitVec 32)} (h : step k mem s a = some t) :
    ∃ r ctx, s.call k mem a = some r ∧ r.ctx = some ctx ∧ t = ⟨ctx, r.flags,
      if r.reply.isSome then (k.perform mem s.view a.1.direct).getD s.view else s.view⟩ := by
  simp only [step, Option.bind_eq_bind, Option.bind_eq_some_iff, Option.some.injEq] at h
  obtain ⟨r, hr, ctx, hctx, rfl⟩ := h
  exact ⟨r, ctx, hr, hctx, rfl⟩

theorem step_inv {a : FlagCall × Option (BitVec 32)} (h : Inv s) (hok : Harmless mem s a)
    (hstep : step k mem s a = some t) : Inv t := by
  obtain ⟨r, ctx, hr, hctx, rfl⟩ := step_cases hstep
  obtain ⟨c, outcome⟩ := a
  cases c with
  | setfl arg =>
    rw [call_setfl h arg outcome, Option.some.injEq] at hr
    subst hr
    cases hctx
    unfold Harmless at hok
    dsimp only at hok
    rw [asks_iff] at hok
    cases outcome with
    | none => exact ⟨openSocket_noblock h.isOpen _, h.sysNoblock, (hok rfl).trans h.user, h.flags⟩
    | some o =>
      refine ⟨openSocket_noblock h.isOpen _, h.sysNoblock, (k.getLsbD_setfl _ _).symm, ?_⟩
      show k.setfl s.flags (arg ||| oNonblock) = k.setfl s.view arg ||| oNonblock
      rw [h.flags, k.setfl_or_nonblock]
  | getfl =>
    rw [call_getfl h outcome, Option.some.injEq] at hr
    subst hr
    cases hctx
    cases outcome <;> exact h
  | ioctl op arg =>
    by_cases hop : op = fionbio
    · subst hop
      cases hread : mem.read arg with
      | none =>
        rw [call_fionbio_crash k s hread outcome] at hr
        cases hr
      | some v =>
        rw [call_fionbio h hread outcome, Option.some.injEq] at hr
        subst hr
        cases hctx
        unfold Harmless at hok
        dsimp only at hok
        rw [if_pos rfl] at hok
        exact ⟨openSocket_noblock h.isOpen _, h.sysNoblock, (hok v hread).trans h.user, h.flags⟩
    · obtain ⟨reply, returned, hcall, hasync⟩ := call_ioctl k mem s hop arg outcome
      rw [hcall, Option.some.injEq] at hr
      subst hr
      cases hctx
      have hview : (if reply.isSome then
          (k.perform mem s.view (.ioctl op arg)).getD s.view else s.view) = s.view := by
        by_cases hfio : op = fioasync
        · rw [hasync hfio]
          rfl
        · have hperform : k.perform mem s.view (.ioctl op arg) = some s.view :=
            (if_neg hop).trans (if_neg hfio)
          rw [hperform]
          exact ite_self _
      dsimp only [FlagCall.direct]
      rw [hview]
      exact ⟨h.isOpen, h.sysNoblock, h.user, h.flags⟩

theorem start_inv (fd : ℕ) {flags : BitVec 32} (h : flags.getLsbD 11 = true) :
    Inv (start fd flags) := by
  refine ⟨rfl, rfl, ?_, ?_⟩
  · show false = (flags &&& ~~~oNonblock).getLsbD 11
    rw [BitVec.getLsbD_and, BitVec.getLsbD_not, getLsbD_oNonblock]
    simp
  · show flags = flags &&& ~~~oNonblock ||| oNonblock
    refine BitVec.eq_of_getLsbD_eq fun i hi => ?_
    rw [BitVec.getLsbD_or, BitVec.getLsbD_and, BitVec.getLsbD_not, getLsbD_oNonblock]
    by_cases h11 : i = 11
    · rw [h11, h]
      rfl
    · simp [h11, hi]

theorem initFlags_iff (k : Kernel) (flags : BitVec 32) (get set : Bool) :
    (initFlags k flags get set).getLsbD 11 = true ↔
      flags.getLsbD 11 = true ∨ get = true ∧ set = true := by
  have hzero : ∀ x : BitVec 32, x &&& oNonblock = 0 ↔ x.getLsbD 11 = false := by
    intro x
    rw [← asks_iff, decide_eq_false_iff_not, not_not]
  unfold initFlags
  cases get with
  | true =>
    simp only [if_true, true_and]
    by_cases hflags : flags.getLsbD 11 = true
    · rw [if_neg (by rw [hzero, hflags]; decide)]
      exact iff_of_true hflags (Or.inl hflags)
    · rw [if_pos ((hzero flags).mpr (Bool.eq_false_iff.mpr hflags))]
      cases set with
      | true =>
        rw [if_pos rfl, k.getLsbD_setfl, getLsbD_or_nonblock]
        exact iff_of_true rfl (Or.inr rfl)
      | false =>
        rw [if_neg Bool.false_ne_true]
        exact (or_iff_left Bool.false_ne_true).symm
  | false =>
    -- a failed F_GETFL has returned -1, which has every bit
    have hones : ¬~~~(0 : BitVec 32) &&& oNonblock = 0 := by decide
    simp only [Bool.false_eq_true, if_false, if_neg hones, false_and, or_false]

/-- The flags are those of a plain socket to the caller, from `init` on and through every call. -/
theorem virtualised_iff (k : Kernel) (mem : Memory) (fd : ℕ) (flags : BitVec 32) (get set : Bool)
    (calls : List (FlagCall × Option (BitVec 32))) :
    ((initFlags k flags get set).getLsbD 11 = true ∧
      Guarded (step k mem) (Virtualises k mem) (start fd (initFlags k flags get set)) calls) ↔
    (flags.getLsbD 11 = true ∨ get = true ∧ set = true) ∧
      Guarded (step k mem) (Harmless mem) (start fd (initFlags k flags get set)) calls := by
  rw [← initFlags_iff k flags get set]
  refine and_congr_right fun hkept => ?_
  exact guarded_iff (fun s a hs _ => virtual_iff hs a)
    (fun s a t hs _ hv ht => step_inv hs ((virtual_iff hs a).mp hv) ht) (start_inv fd hkept)
    (guarded_true (step k mem) _ calls)

/-- FIONBIO asks for the non-blocking mode, and fails; so does F_SETFL; FIONREAD gets the address 1. -/
theorem failed_calls_change_mode :
    let k : Kernel := ⟨0x46c00, by decide⟩
    let mem : Memory := ⟨fun p => if p = 8192 then some 1 else none, fun p hp => if_neg (by omega)⟩
    let s := start 4 (initFlags k 2 true true)
    ¬Guarded (step k mem) (Virtualises k mem) s [(.ioctl fionbio 8192, some 0)] ∧
      ¬Guarded (step k mem) (Virtualises k mem) s [(.setfl 0x800, none)] ∧
      ¬Guarded (step k mem) (Virtualises k mem) s [(.ioctl 0x541b 8192, some 0)] := by
  refine ⟨fun h => ?_, fun h => ?_, fun h => ?_⟩
  · have hmode := ((h.1 _ rfl).failed rfl).2
    exact absurd hmode (by decide)
  · have hmode := ((h.1 _ rfl).failed rfl).2
    exact absurd hmode (by decide)
  · have hpassed := (h.1 _ rfl).passed 0x541b 8192 rfl (by decide)
    exact absurd hpassed (by decide)

end Socket

end MSylar.Coro
