import Mathlib.Algebra.Order.Group.Multiset
import Mathlib.Data.List.GetD
import Mathlib.Tactic.Abel
import MSylar.Lib.Calls
import MSylar.Lib.Execution
import MSylar.Lib.Word

/-!
# Task pool (taskPool.cc:15-89, taskPool.h:39-60)

`TaskPool` spreads tasks over nodes with a lock each. A call of `taskAlloc` or `taskGet` takes an
index, works on the node under its lock and then corrects `m_task_count`, in three steps that
other threads may interleave.
-/

namespace MSylar.Coro
open MSylar.Execution MSylar.Calls MSylar.Word
variable {τ : Type*}

/-- `pushed` and `obtained` record, for the proofs, which task went to and came from which node,
in the order in which it happened. -/
structure TaskPool (τ : Type*) where
  nodes : List (List τ)
  allocIdx : ℕ
  loopIdx : ℕ
  taskCount : ℕ
  pushed : List (ℕ × τ)
  obtained : List (ℕ × τ)

namespace TaskPool

def new (nodeNum : ℕ) : TaskPool τ := ⟨List.replicate nodeNum [], 0, 0, 0, [], []⟩

def nextAlloc (p : TaskPool τ) : ℕ × TaskPool τ :=
  (p.allocIdx % p.nodes.length, { p with allocIdx := (p.allocIdx + 1) % 2^32 })

def nextLoop (p : TaskPool τ) : ℕ × TaskPool τ :=
  (p.loopIdx % p.nodes.length, { p with loopIdx := (p.loopIdx + 1) % 2^32 })

def addTask (p : TaskPool τ) (node : ℕ) (task : τ) : TaskPool τ :=
  { p with nodes := p.nodes.set node (p.nodes.getD node [] ++ [task])
           pushed := p.pushed ++ [(node, task)] }

/-- The number of tasks that `getTask` splices, and what it returns; the size of the list is
converted to an `int`. -/
def spliced (tasks : List τ) (num : ℤ) : ℕ × ℤ :=
  if tasks.isEmpty then (0, 0)
  else if int32 tasks.length < num then (tasks.length, int32 tasks.length)
  else (num.toNat, num)

def getTask (p : TaskPool τ) (node : ℕ) : ℤ × List τ × TaskPool τ :=
  let tasks := p.nodes.getD node []
  let r := spliced tasks 15
  (r.2, tasks.take r.1,
    { p with nodes := p.nodes.set node (tasks.drop r.1)
             obtained := p.obtained ++ (tasks.take r.1).map (Prod.mk node) })

def count (p : TaskPool τ) (d : ℤ) : TaskPool τ :=
  { p with taskCount := ((p.taskCount + d) % 2^32).toNat }

def stored (p : TaskPool τ) : ℕ := (p.nodes.map List.length).sum

end TaskPool

inductive PoolCall (τ : Type*) where
  | alloc (task : τ)
  | adding (node : ℕ) (task : τ)
  | counting (task : τ)
  | allocated (task : τ)
  | get
  | getting (node : ℕ)
  | subtracting (rt : ℤ) (tasks : List τ)
  | got (rt : ℤ) (tasks : List τ)

namespace PoolCall

def run (p : TaskPool τ) : PoolCall τ → Option (TaskPool τ × PoolCall τ)
  | .alloc task => some (p.nextAlloc.2, .adding p.nextAlloc.1 task)
  | .adding node task => some (p.addTask node task, .counting task)
  | .counting task => some (p.count 1, .allocated task)
  | .allocated _ => none
  | .get => some (p.nextLoop.2, .getting p.nextLoop.1)
  | .getting node =>
    some ((p.getTask node).2.2, .subtracting (p.getTask node).1 (p.getTask node).2.1)
  | .subtracting rt tasks => some (p.count (-rt), .got rt tasks)
  | .got _ _ => none

def pushed : PoolCall τ → Multiset τ
  | .counting task | .allocated task => {task}
  | _ => 0

def obtained : PoolCall τ → List τ
  | .subtracting _ tasks | .got _ tasks => tasks
  | _ => []

def uncounted : PoolCall τ → ℕ
  | .counting _ => 1
  | _ => 0

def unsubtracted : PoolCall τ → ℕ
  | .subtracting _ tasks => tasks.length
  | _ => 0

def Finished : PoolCall τ → Prop
  | .allocated _ | .got _ _ => True
  | _ => False

end PoolCall

inductive PoolAction (τ : Type*) where
  | taskAlloc (task : τ)
  | taskGet
  | next (i : ℕ)

namespace TaskPool

def step (w : World (TaskPool τ) (PoolCall τ)) :
    PoolAction τ → Option (World (TaskPool τ) (PoolCall τ))
  | .taskAlloc task => some (w.enter (.alloc task))
  | .taskGet => some (w.enter .get)
  | .next i => w.advance PoolCall.run i

def init (nodeNum : ℕ) : World (TaskPool τ) (PoolCall τ) := ⟨new nodeNum, []⟩

def onNode (log : List (ℕ × τ)) (node : ℕ) : List τ :=
  (log.filter fun e => e.1 = node).map Prod.snd

end TaskPool

/-! ### One step -/

namespace TaskPool

def inNodes (p : TaskPool τ) : Multiset τ := (p.nodes.flatten : List τ)

theorem flatten_set {nodes : List (List τ)} {i : ℕ} (h : i < nodes.length) (l : List τ) :
    (((nodes.set i l).flatten : List τ) : Multiset τ) + ((nodes.getD i [] : List τ) : Multiset τ) =
      (nodes.flatten : List τ) + (l : Multiset τ) := by
  obtain ⟨a, b, hab, hset⟩ := set_split (List.getElem?_eq_getElem h)
  rw [hset l, List.getD_eq_getElem _ _ h]
  nth_rewrite 2 [hab]
  simp only [List.flatten_append, List.flatten_cons, ← Multiset.coe_add]
  abel

theorem stored_eq (p : TaskPool τ) : p.stored = p.inNodes.card := by
  rw [stored, inNodes, Multiset.coe_card, List.length_flatten]

theorem spliced_le (tasks : List τ) : (spliced tasks 15).1 ≤ tasks.length := by
  have hlt : tasks.length < 2^31 → int32 tasks.length = tasks.length := int32_of_lt
  unfold spliced
  split_ifs with hempty hfew
  · exact Nat.zero_le _
  · exact le_rfl
  · show 15 ≤ tasks.length
    by_contra hcontra
    rw [hlt (by omega)] at hfew
    omega

theorem spliced_emod (tasks : List τ) :
    (spliced tasks 15).2 % 2^32 = ((spliced tasks 15).1 : ℤ) % 2^32 := by
  unfold spliced
  split_ifs with hempty hfew
  · rfl
  · dsimp only
    exact int32_emod tasks.length
  · rfl

theorem addTask_inNodes {p : TaskPool τ} {node : ℕ} (h : node < p.nodes.length) (task : τ) :
    (p.addTask node task).inNodes = p.inNodes + {task} := by
  have hset := flatten_set h (p.nodes.getD node [] ++ [task])
  rw [← Multiset.coe_add, ← add_assoc, add_right_comm] at hset
  exact add_right_cancel hset

theorem getTask_inNodes {p : TaskPool τ} {node : ℕ} (h : node < p.nodes.length) :
    (p.getTask node).2.2.inNodes + ((p.getTask node).2.1 : Multiset τ) = p.inNodes := by
  have hset := flatten_set h ((p.nodes.getD node []).drop (spliced (p.nodes.getD node []) 15).1)
  have hsplit : ((p.nodes.getD node [] : List τ) : Multiset τ) =
      ((p.nodes.getD node []).take (spliced (p.nodes.getD node []) 15).1 : List τ) +
        ((p.nodes.getD node []).drop (spliced (p.nodes.getD node []) 15).1 : List τ) := by
    rw [Multiset.coe_add, List.take_append_drop]
  rw [hsplit, ← add_assoc] at hset
  exact add_right_cancel hset

end TaskPool

namespace PoolCall

def Fits (nodeNum : ℕ) : PoolCall τ → Prop
  | .adding node _ => node < nodeNum
  | .getting node => node < nodeNum
  | .subtracting rt tasks => rt % 2^32 = (tasks.length : ℤ) % 2^32
  | _ => True

variable {p p' : TaskPool τ} {c c' : PoolCall τ}

theorem run_length (h : run p c = some (p', c')) : p'.nodes.length = p.nodes.length := by
  cases c with
  | allocated task => cases h
  | got rt tasks => cases h
  | adding node task => cases h; exact List.length_set
  | getting node => cases h; exact List.length_set
  | _ => cases h; rfl

theorem run_fits (hp : 0 < p.nodes.length) (h : run p c = some (p', c')) :
    c'.Fits p.nodes.length := by
  cases c with
  | alloc task => cases h; exact Nat.mod_lt _ hp
  | get => cases h; exact Nat.mod_lt _ hp
  | getting node =>
    cases h
    show _ % _ = _
    rw [TaskPool.getTask, List.length_take, Nat.min_eq_left (TaskPool.spliced_le _)]
    exact TaskPool.spliced_emod _
  | allocated task => cases h
  | got rt tasks => cases h
  | _ => cases h; trivial

theorem run_conserves (hc : c.Fits p.nodes.length) (h : run p c = some (p', c')) :
    c'.pushed + c.obtained + p.inNodes = c.pushed + c'.obtained + p'.inNodes := by
  cases c with
  | adding node task =>
    cases h
    rw [TaskPool.addTask_inNodes hc]
    simp only [pushed, obtained, Multiset.coe_nil]
    abel
  | getting node =>
    cases h
    rw [← TaskPool.getTask_inNodes hc]
    simp only [pushed, obtained, Multiset.coe_nil]
    abel
  | allocated task => cases h
  | got rt tasks => cases h
  | _ => cases h; rfl

theorem run_count (hc : c.Fits p.nodes.length) (h : run p c = some (p', c')) :
    (p'.taskCount + c'.uncounted + (p.stored + c.unsubtracted)) % 2^32 =
      (p.taskCount + c.uncounted + (p'.stored + c'.unsubtracted)) % 2^32 := by
  cases c with
  | adding node task =>
    cases h
    rw [TaskPool.stored_eq (p.addTask node task), TaskPool.addTask_inNodes hc, Multiset.card_add,
      ← TaskPool.stored_eq, Multiset.card_singleton]
    simp only [uncounted, unsubtracted, TaskPool.addTask]
    omega
  | counting task =>
    cases h
    simp only [uncounted, unsubtracted, TaskPool.count, TaskPool.stored]
    omega
  | getting node =>
    cases h
    rw [TaskPool.stored_eq p, ← TaskPool.getTask_inNodes hc, Multiset.card_add,
      ← TaskPool.stored_eq, Multiset.coe_card]
    simp only [uncounted, unsubtracted, TaskPool.getTask]
    omega
  | subtracting rt tasks =>
    cases h
    have hrt : rt % 2^32 = (tasks.length : ℤ) % 2^32 := hc
    simp only [uncounted, unsubtracted, TaskPool.count, TaskPool.stored]
    omega
  | allocated task => cases h
  | got rt tasks => cases h
  | _ => cases h; rfl

theorem onNode_append (log log' : List (ℕ × τ)) (node : ℕ) :
    TaskPool.onNode (log ++ log') node = TaskPool.onNode log node ++ TaskPool.onNode log' node := by
  simp only [TaskPool.onNode, List.filter_append, List.map_append]

theorem onNode_same (node : ℕ) (tasks : List τ) :
    TaskPool.onNode (tasks.map (Prod.mk node)) node = tasks := by
  simp [TaskPool.onNode, List.filter_map, Function.comp_def]

theorem onNode_other {node i : ℕ} (h : node ≠ i) (tasks : List τ) :
    TaskPool.onNode (tasks.map (Prod.mk node)) i = [] := by
  simp [TaskPool.onNode, h]

theorem getD_set_self {nodes : List (List τ)} {node : ℕ} (h : node < nodes.length) (l : List τ) :
    (nodes.set node l).getD node [] = l := by
  rw [List.getD_eq_getElem?_getD, List.getElem?_set_self h, Option.getD_some]

theorem getD_set_ne (nodes : List (List τ)) {node i : ℕ} (h : node ≠ i) (l : List τ) :
    (nodes.set node l).getD i [] = nodes.getD i [] := by
  rw [List.getD_eq_getElem?_getD, List.getElem?_set_ne h, List.getD_eq_getElem?_getD]

/-- On each node the tasks that came out, followed by those in it, are the ones that went in. -/
def InOrder (p : TaskPool τ) : Prop :=
  ∀ node, TaskPool.onNode p.pushed node = TaskPool.onNode p.obtained node ++ p.nodes.getD node []

theorem run_inOrder (hp : InOrder p) (hc : c.Fits p.nodes.length) (h : run p c = some (p', c')) :
    InOrder p' := by
  cases c with
  | adding node task =>
    cases h
    intro i
    have hi := hp i
    simp only [TaskPool.addTask, onNode_append, hi]
    rcases eq_or_ne node i with rfl | hne
    · rw [getD_set_self hc, ← List.append_assoc]
      exact congrArg _ (onNode_same node [task])
    · rw [getD_set_ne _ hne, show [(node, task)] = [task].map (Prod.mk node) from rfl,
        onNode_other hne, List.append_nil]
  | getting node =>
    cases h
    intro i
    have hi := hp i
    simp only [TaskPool.getTask, onNode_append, hi]
    rcases eq_or_ne node i with rfl | hne
    · rw [getD_set_self hc, onNode_same, List.append_assoc, List.take_append_drop]
    · rw [getD_set_ne _ hne, onNode_other hne, List.append_nil]
  | allocated task => cases h
  | got rt tasks => cases h
  | _ => cases h; exact hp

theorem run_logs (h : run p c = some (p', c')) :
    ((p'.pushed.map Prod.snd : List τ) : Multiset τ) + c.pushed =
        (p.pushed.map Prod.snd : List τ) + c'.pushed ∧
      ((p'.obtained.map Prod.snd : List τ) : Multiset τ) + (c.obtained : Multiset τ) =
        (p.obtained.map Prod.snd : List τ) + (c'.obtained : Multiset τ) := by
  cases c with
  | adding node task =>
    cases h
    refine ⟨?_, rfl⟩
    simp only [TaskPool.addTask, pushed, List.map_append, List.map_cons, List.map_nil, add_zero,
      ← Multiset.coe_add, Multiset.coe_singleton]
  | getting node =>
    cases h
    refine ⟨rfl, ?_⟩
    simp only [TaskPool.getTask, obtained, List.map_append, List.map_map, Function.comp_def,
      List.map_id', ← Multiset.coe_add, Multiset.coe_nil, add_zero]
  | allocated task => cases h
  | got rt tasks => cases h
  | _ => cases h; exact ⟨rfl, rfl⟩

theorem run_balance (hc : c.Fits p.nodes.length) (h : run p c = some (p', c')) :
    ((p'.pushed.map Prod.snd : List τ) : Multiset τ) + c.obtained + p.inNodes =
      (p.pushed.map Prod.snd : List τ) + c'.obtained + p'.inNodes := by
  have hlog := (run_logs h).1
  have hmoved := run_conserves hc h
  apply add_right_cancel (b := c.pushed)
  calc _ = ((p'.pushed.map Prod.snd : List τ) + c.pushed) + c.obtained + p.inNodes := by abel
    _ = (p.pushed.map Prod.snd : List τ) + (c'.pushed + c.obtained + p.inNodes) := by
        rw [hlog]
        abel
    _ = _ := by
        rw [hmoved]
        abel

theorem run_lt (hp : p.taskCount < 2^32) (h : run p c = some (p', c')) : p'.taskCount < 2^32 := by
  cases c with
  | counting task =>
    cases h
    simp only [TaskPool.count]
    omega
  | subtracting rt tasks =>
    cases h
    simp only [TaskPool.count]
    omega
  | allocated task => cases h
  | got rt tasks => cases h
  | _ => cases h; exact hp

end PoolCall

/-! ### Whole runs -/

namespace TaskPool

/-- Everything the pool owes its callers, over all calls started so far. -/
structure Conserves (w : World (TaskPool τ) (PoolCall τ)) : Prop where
  conserved : (w.calls.map PoolCall.pushed).sum =
    (w.calls.map fun c => (c.obtained : Multiset τ)).sum + w.shared.inNodes
  once : (w.calls.map PoolCall.pushed).sum.Nodup → (w.calls.map PoolCall.obtained).flatten.Nodup
  logs : ((w.shared.pushed.map Prod.snd : List τ) : Multiset τ) =
      (w.calls.map PoolCall.pushed).sum ∧
    ((w.shared.obtained.map Prod.snd : List τ) : Multiset τ) =
      (w.calls.map fun c => (c.obtained : Multiset τ)).sum
  order : ∀ node, onNode w.shared.pushed node =
    onNode w.shared.obtained node ++ w.shared.nodes.getD node []
  count : (w.shared.taskCount + (w.calls.map PoolCall.uncounted).sum) % 2^32 =
    (w.shared.stored + (w.calls.map PoolCall.unsubtracted).sum) % 2^32
  idle : (∀ c ∈ w.calls, c.Finished) → w.shared.taskCount = w.shared.stored % 2^32

structure Inv (w : World (TaskPool τ) (PoolCall τ)) : Prop where
  nodes : 0 < w.shared.nodes.length
  fits : ∀ c ∈ w.calls, c.Fits w.shared.nodes.length
  conserved : (w.calls.map PoolCall.pushed).sum =
    (w.calls.map fun c => (c.obtained : Multiset τ)).sum + w.shared.inNodes
  logs : ((w.shared.pushed.map Prod.snd : List τ) : Multiset τ) =
      (w.calls.map PoolCall.pushed).sum ∧
    ((w.shared.obtained.map Prod.snd : List τ) : Multiset τ) =
      (w.calls.map fun c => (c.obtained : Multiset τ)).sum
  order : PoolCall.InOrder w.shared
  count : (w.shared.taskCount + (w.calls.map PoolCall.uncounted).sum) % 2^32 =
    (w.shared.stored + (w.calls.map PoolCall.unsubtracted).sum) % 2^32
  small : w.shared.taskCount < 2^32

theorem init_inv {nodeNum : ℕ} (h : 1 ≤ nodeNum) : Inv (init nodeNum : World (TaskPool τ) _) where
  nodes := by
    simp only [init, new, List.length_replicate]
    omega
  fits := by simp [init]
  conserved := by simp [init, new, inNodes]
  logs := by simp [init, new]
  order node := by simp [init, new, onNode]
  count := by simp [init, new, stored]
  small := by simp [init, new]

theorem enter_inv {w : World (TaskPool τ) (PoolCall τ)} (h : Inv w) {c : PoolCall τ}
    (hc : c.Fits w.shared.nodes.length) (hp : c.pushed = 0) (ho : c.obtained = [])
    (hn : c.uncounted = 0) (hs : c.unsubtracted = 0) : Inv (w.enter c) where
  nodes := h.nodes
  fits := forall_enter h.fits hc
  conserved := by
    simp only [World.enter, sum_enter, hp, ho, Multiset.coe_nil, add_zero]
    exact h.conserved
  logs := by
    simp only [World.enter, sum_enter, hp, ho, Multiset.coe_nil, add_zero]
    exact h.logs
  order := h.order
  count := by
    simp only [World.enter, sum_enter, hn, hs, add_zero]
    exact h.count
  small := h.small

theorem advance_inv {w w' : World (TaskPool τ) (PoolCall τ)} {i : ℕ} (h : Inv w)
    (hadvance : w.advance PoolCall.run i = some w') : Inv w' := by
  obtain ⟨c, p', c', hi, hrun, rfl⟩ := advance_cases hadvance
  have hc := h.fits c (List.mem_of_getElem? hi)
  have hlen := PoolCall.run_length hrun
  have hpushed := sum_set PoolCall.pushed hi c'
  have hobtained := sum_set (fun c => (c.obtained : Multiset τ)) hi c'
  refine ⟨by rw [hlen]; exact h.nodes, ?_, ?_, ?_, PoolCall.run_inOrder h.order hc hrun, ?_,
    PoolCall.run_lt h.small hrun⟩
  · dsimp only
    rw [hlen]
    exact forall_set h.fits (fun d _ hd => hd) (PoolCall.run_fits h.nodes hrun)
  · have hstep := PoolCall.run_conserves hc hrun
    have hold := h.conserved
    dsimp only at hobtained ⊢
    apply add_right_cancel (b := c.pushed + (c.obtained : Multiset τ))
    calc _ = ((w.calls.set i c').map PoolCall.pushed).sum + c.pushed + c.obtained := by abel
      _ = (w.calls.map fun c => (c.obtained : Multiset τ)).sum +
            (c'.pushed + c.obtained + w.shared.inNodes) := by
          rw [hpushed, hold]
          abel
      _ = (w.calls.map fun c => (c.obtained : Multiset τ)).sum + c'.obtained +
            (c.pushed + p'.inNodes) := by
          rw [hstep]
          abel
      _ = _ := by
          rw [← hobtained]
          abel
  · obtain ⟨hlog, hlog'⟩ := PoolCall.run_logs hrun
    obtain ⟨hold, hold'⟩ := h.logs
    constructor
    · apply add_right_cancel (b := c.pushed)
      rw [hlog, hold, hpushed]
    · apply add_right_cancel (b := (c.obtained : Multiset τ))
      rw [hlog', hold', hobtained]
  · have hstep := PoolCall.run_count hc hrun
    have hold := h.count
    have hn := sum_set PoolCall.uncounted hi c'
    have hs := sum_set PoolCall.unsubtracted hi c'
    dsimp only
    omega

theorem step_inv {w w' : World (TaskPool τ) (PoolCall τ)} {a : PoolAction τ} (h : Inv w)
    (hstep : step w a = some w') : Inv w' := by
  cases a with
  | taskAlloc task =>
    cases hstep
    exact enter_inv h trivial rfl rfl rfl rfl
  | taskGet =>
    cases hstep
    exact enter_inv h trivial rfl rfl rfl rfl
  | next i => exact advance_inv h hstep

theorem sum_finished {f : PoolCall τ → ℕ} (hf : ∀ c : PoolCall τ, c.Finished → f c = 0)
    {calls : List (PoolCall τ)} (h : ∀ c ∈ calls, c.Finished) : (calls.map f).sum = 0 := by
  apply List.sum_eq_zero
  intro n hn
  obtain ⟨c, hc, rfl⟩ := List.mem_map.mp hn
  exact hf c (h c hc)

theorem coe_flatten (ls : List (List τ)) :
    ((ls.flatten : List τ) : Multiset τ) = (ls.map fun l : List τ => (l : Multiset τ)).sum := by
  induction ls with
  | nil => rfl
  | cons l ls ih =>
    simp only [List.flatten_cons, List.map_cons, List.sum_cons, ← ih, Multiset.coe_add]

theorem Inv.conserves {w : World (TaskPool τ) (PoolCall τ)} (h : Inv w) : Conserves w where
  conserved := h.conserved
  once hnodup := by
    rw [← Multiset.coe_nodup, coe_flatten, List.map_map]
    refine Multiset.nodup_of_le ?_ hnodup
    rw [h.conserved]
    exact Multiset.le_add_right _ _
  logs := h.logs
  order := h.order
  count := h.count
  idle hidle := by
    have hcount := h.count
    have hsmall := h.small
    rw [sum_finished (fun c hc => by cases c <;> first | rfl | cases hc) hidle,
      sum_finished (fun c hc => by cases c <;> first | rfl | cases hc) hidle] at hcount
    omega

theorem reachable_inv {nodeNum : ℕ} (hnodes : 1 ≤ nodeNum) {w : World (TaskPool τ) (PoolCall τ)}
    (hw : Reachable step (init nodeNum) w) : Inv w := by
  refine reachable_invariant (init_inv hnodes) ?_ hw
  intro s a t hs hstep
  exact step_inv hs hstep

end TaskPool

def TaskPool.allocRun (n : ℕ) : List (PoolAction Unit) :=
  [.taskAlloc (), .next n, .next n, .next n]

theorem TaskPool.alloc_many (n : ℕ) :
    ∃ w : World (TaskPool Unit) (PoolCall Unit), Reachable step (init 1) w ∧
      w.calls.length = n ∧ (∀ c ∈ w.calls, c.Finished) ∧ w.shared.stored = n := by
  induction n with
  | zero => exact ⟨init 1, ⟨[], rfl⟩, rfl, by simp [init], rfl⟩
  | succ n ih =>
    obtain ⟨w, hw, hlen, hfin, hstored⟩ := ih
    have hget : ∀ c : PoolCall Unit, (w.calls ++ [c])[n]? = some c := by
      intro c
      rw [← hlen]
      exact List.getElem?_concat_length
    have hset : ∀ c d : PoolCall Unit, (w.calls ++ [c]).set n d = w.calls ++ [d] := by
      intro c d
      rw [← hlen, List.set_append_right _ _ le_rfl, Nat.sub_self]
      rfl
    let p := (w.shared.nextAlloc.2.addTask w.shared.nextAlloc.1 ()).count 1
    have hexec : exec step w (allocRun n) = some ⟨p, w.calls ++ [.allocated ()]⟩ := by
      simp only [allocRun, exec, step, World.enter, World.advance, hget, hset, PoolCall.run,
        Option.bind_some, Option.map_some, p]
    have hinv := reachable_inv le_rfl hw
    refine ⟨_, hw.exec hexec, by rw [List.length_append, hlen]; rfl,
      forall_enter hfin trivial, ?_⟩
    show (w.shared.nextAlloc.2.addTask w.shared.nextAlloc.1 ()).stored = n + 1
    have hnode : w.shared.nextAlloc.1 < w.shared.nextAlloc.2.nodes.length :=
      Nat.mod_lt _ hinv.nodes
    rw [stored_eq, addTask_inNodes hnode, Multiset.card_add, Multiset.card_singleton, ← stored_eq]
    exact congrArg (· + 1) hstored

/-- In every interleaving of calls the pool neither loses nor duplicates nor reorders tasks, and
its count differs from what the nodes hold by the calls in flight, modulo `2^32`. -/
theorem pool_conserves_tasks {nodeNum : ℕ} (hnodes : 1 ≤ nodeNum)
    {w : World (TaskPool τ) (PoolCall τ)}
    (hw : Reachable TaskPool.step (TaskPool.init nodeNum) w) :
    TaskPool.Conserves w ∧ ((∀ c ∈ w.calls, c.Finished) → w.shared.stored < 2^32 →
      w.shared.taskCount = w.shared.stored) := by
  have hinv := TaskPool.reachable_inv hnodes hw
  refine ⟨hinv.conserves, fun hidle hlt => ?_⟩
  rw [hinv.conserves.idle hidle, Nat.mod_eq_of_lt hlt]

theorem three_tasks_conserved :
    ∃ w : World (TaskPool Unit) (PoolCall Unit), 1 ≤ 1 ∧
      Reachable TaskPool.step (TaskPool.init 1) w ∧ TaskPool.Conserves w ∧
      (∀ c ∈ w.calls, c.Finished) ∧ w.shared.taskCount = 3 := by
  obtain ⟨w, hw, _, hfin, hstored⟩ := TaskPool.alloc_many 3
  obtain ⟨hconserves, hexact⟩ := pool_conserves_tasks le_rfl hw
  exact ⟨w, le_rfl, hw, hconserves, hfin, (hexact hfin (by rw [hstored]; norm_num)).trans hstored⟩

/-- With `2^32` tasks stored and no call in progress the count is 0. -/
theorem count_wraps :
    ¬ ∀ (nodeNum : ℕ) (w : World (TaskPool Unit) (PoolCall Unit)), 1 ≤ nodeNum →
      Reachable TaskPool.step (TaskPool.init nodeNum) w → (∀ c ∈ w.calls, c.Finished) →
      w.shared.taskCount = w.shared.stored := by
  intro hall
  obtain ⟨w, hw, _, hfin, hstored⟩ := TaskPool.alloc_many (2^32)
  have hinv := TaskPool.reachable_inv le_rfl hw
  have hexact := hall 1 w le_rfl hw hfin
  have hmod := hinv.conserves.idle hfin
  rw [hstored] at hexact hmod
  omega

end MSylar.Coro
