import Mathlib.Data.Int.Notation
import MSylar.Lib.Calls
import MSylar.Lib.Execution

/-!
# Connection pool (database.tpp:42-265, mysql.cc:382-415, redis.cc:131-151)

`DBPool` keeps its connections in slots and lends them by slot index through
`ConnectWrapper`, whose destructor gives the index back. The connection type is `κ`.
`connect i` is whether connecting slot `i` succeeds.
-/

namespace MSylar.DBPool
open MSylar.Calls MSylar.Execution
variable {κ : Type*}

inductive State where
  | init
  | ready
  | full
  | closed
  | closing
  | error
  deriving DecidableEq

structure Pool (κ : Type*) where
  freeConnInfos : List ℤ
  connectors : List κ
  connectorCount : ℤ
  busyConnCount : ℤ
  minConnector : ℤ
  maxConnector : ℤ
  state : State
  increaseNum : ℕ

namespace Pool

/-- The constructor, with `make i` the connection object of slot `i`; it throws for counts
that are negative or out of order. -/
def new (minConn maxConn : ℤ) (make : ℕ → κ) : Option (Pool κ) :=
  if minConn < 0 ∨ maxConn < 0 ∨ maxConn < minConn then none
  else some
    { freeConnInfos := [], connectors := (List.range maxConn.toNat).map make
      connectorCount := 0, busyConnCount := 0, minConnector := minConn, maxConnector := maxConn
      state := .init, increaseNum := 1 }

def setIncreaseNum (p : Pool κ) (num : ℕ) : Pool κ := { p with increaseNum := num }

def checkRunState (p : Pool κ) : Bool :=
  match p.state with
  | .ready => true
  | .full => true
  | _ => false

/-- The loop that connects slots from `i` on, at most `n` of them: the indices pushed on the
free list, and whether all connections succeeded. A slot that fails is pushed too. -/
def connectFrom (connect : ℤ → Bool) (i : ℤ) : ℕ → List ℤ × Bool
  | 0 => ([], true)
  | n + 1 =>
    if connect i then
      let r := connectFrom connect (i + 1) n
      (i :: r.1, r.2)
    else ([i], false)

/-- The part of `init` that MySQL and Redis share. -/
def connectMin (connect : ℤ → Bool) (p : Pool κ) : ℤ × Pool κ :=
  let r := connectFrom connect 0 p.minConnector.toNat
  let pushed := { p with freeConnInfos := p.freeConnInfos ++ r.1 }
  if r.2 then (0, { pushed with connectorCount := p.minConnector, state := .ready })
  else (-1, { pushed with state := .error })

def mysqlInit (connect : ℤ → Bool) (p : Pool κ) : ℤ × Pool κ :=
  connectMin connect (if p.state ≠ .init then { p with state := .error } else p)

def redisInit (connect : ℤ → Bool) (p : Pool κ) : ℤ × Pool κ := connectMin connect p

/-- A `ConnectWrapper`; `connIdx` is -1 when it holds nothing. -/
structure Wrapper (κ : Type*) where
  connIdx : ℤ
  connector : Option κ
  timeout : Bool := false

def Wrapper.empty : Wrapper κ := ⟨-1, none, false⟩

def lend (p : Pool κ) (rest : List ℤ) : Pool κ :=
  { p with freeConnInfos := rest, busyConnCount := p.busyConnCount + 1
           state := if p.busyConnCount + 1 = p.connectorCount then .full else p.state }

/-- `borrowOneConn`; `none` stands for the failed assertion on the index. -/
def borrowOneConn (p : Pool κ) : Option (Wrapper κ × Pool κ) :=
  if !p.checkRunState || p.state = .full then some (.empty, p)
  else if p.state = .ready then
    match p.freeConnInfos with
    | [] => some (.empty, p)
    | idx :: rest =>
      if 0 ≤ idx ∧ idx < p.connectorCount then
        some (⟨idx, p.connectors[idx.toNat]?, false⟩, p.lend rest)
      else none
  else some (.empty, p)

/-- The locked region in which `returnConn` gives an index back (database.tpp:206-211). -/
def giveBack (p : Pool κ) (idx : ℤ) : Pool κ :=
  { p with freeConnInfos := p.freeConnInfos ++ [idx], busyConnCount := p.busyConnCount - 1
           state := if p.state = .full then .ready else p.state }

/-- `returnConn`; after a timeout the slot gets the new connection `fresh`, if that
connects. -/
def returnConn (p : Pool κ) (idx : ℤ) (isTimeOut : Bool) (fresh : Option κ) : ℤ × Pool κ :=
  if !p.checkRunState || (idx < 0 || p.maxConnector ≤ idx) then (-1, p)
  else if isTimeOut then
    match fresh with
    | none => (-1, { p with connectorCount := p.connectorCount - 1
                            busyConnCount := p.busyConnCount - 1 })
    | some c => (0, { p with connectors := p.connectors.set idx.toNat c }.giveBack idx)
  else (0, p.giveBack idx)

def destroyWrapper (p : Pool κ) (w : Wrapper κ) (fresh : Option κ) : Pool κ :=
  if w.connIdx < 0 then p else (p.returnConn w.connIdx w.timeout fresh).2

def toInt32 (n : ℕ) : ℤ :=
  if n % 2^32 < 2^31 then (n % 2^32 : ℕ) else ((n % 2^32 : ℕ) : ℤ) - 2^32

/-- `increaseNum` in `expand`: by how many connections to grow. -/
def increase (p : Pool κ) : ℤ :=
  let temp := p.maxConnector - p.connectorCount
  if toInt32 p.increaseNum < temp then toInt32 p.increaseNum else temp

def grow (p : Pool κ) (indices : List ℤ) (count : ℤ) : Pool κ :=
  { p with freeConnInfos := p.freeConnInfos ++ indices, connectorCount := count
           state := if p.busyConnCount < count then .ready else p.state }

/-- The locked region of `expand` (database.tpp:238-264). After a failed connection the count
is the last index tried (`max_idx`), which is on the free list as well. -/
def expandLocked (connect : ℤ → Bool) (p : Pool κ) : ℤ × Pool κ :=
  let r := connectFrom connect p.connectorCount p.increase.toNat
  if r.2 then (0, p.grow r.1 (p.connectorCount + p.increase))
  else (-1, { p with freeConnInfos := p.freeConnInfos ++ r.1, connectorCount := r.1.getLastD 0 })

end Pool

/-! ### Runs -/

/-- The pool, the live wrappers, the `expand` calls past their check, and whether an
assertion has failed. -/
structure Lending (κ : Type*) where
  pool : Pool κ
  wrappers : List (Pool.Wrapper κ)
  expanding : ℕ
  failed : Bool

inductive Action where
  | borrow
  | destroy (i : ℕ)
  | expandCheck
  | expandLocked

/-- Operations on a running pool whose connections all succeed. -/
def Lending.step (s : Lending κ) : Action → Option (Lending κ)
  | .borrow =>
    match s.pool.borrowOneConn with
    | some (w, p) => some { s with pool := p, wrappers := s.wrappers ++ [w] }
    | none => some { s with failed := true }
  | .destroy i => s.wrappers[i]?.map fun w =>
      { s with pool := s.pool.destroyWrapper w none, wrappers := s.wrappers.eraseIdx i }
  | .expandCheck =>
    if s.pool.maxConnector = s.pool.connectorCount then
      if s.pool.connectorCount = s.pool.connectors.length then some s
      else some { s with failed := true }
    else some { s with expanding := s.expanding + 1 }
  | .expandLocked =>
    if 0 < s.expanding then
      some { s with pool := (s.pool.expandLocked fun _ => true).2, expanding := s.expanding - 1 }
    else none

def Pool.Wrapper.holds (w : Pool.Wrapper κ) : List ℤ := if 0 ≤ w.connIdx then [w.connIdx] else []

def Lending.held (s : Lending κ) : List ℤ := s.wrappers.flatMap Pool.Wrapper.holds

/-! ### The invariant -/

/-- Each index below the count is free or in `held`, once, and the counters and the state
agree with that. -/
structure Consistent (p : Pool κ) (held : List ℤ) : Prop where
  once : ∀ i, p.freeConnInfos.count i + held.count i =
    if 0 ≤ i ∧ i < p.connectorCount then 1 else 0
  size : p.connectorCount = p.freeConnInfos.length + held.length
  busy : p.busyConnCount = held.length
  bound : p.connectorCount ≤ p.maxConnector
  slots : p.connectors.length = p.maxConnector
  state : p.state = .full ∧ p.freeConnInfos = [] ∨
    p.state = .ready ∧ (p.freeConnInfos ≠ [] ∨ p.connectorCount = 0)
  increase : 0 ≤ Pool.toInt32 p.increaseNum

theorem Pool.connectFrom_spec {connect : ℤ → Bool} {i : ℤ} {n : ℕ} {l : List ℤ}
    (h : Pool.connectFrom connect i n = (l, true)) :
    l.length = n ∧ ∀ j, l.count j = if i ≤ j ∧ j < i + n then 1 else 0 := by
  induction n generalizing i l with
  | zero =>
    simp only [Pool.connectFrom, Prod.mk.injEq, and_true] at h
    subst h
    refine ⟨rfl, fun j => ?_⟩
    rw [if_neg (by omega), List.count_nil]
  | succ n ih =>
    simp only [Pool.connectFrom] at h
    split at h
    · simp only [Prod.mk.injEq] at h
      obtain ⟨rfl, hall⟩ := h
      obtain ⟨hlen, hcount⟩ := ih (Prod.ext rfl hall)
      refine ⟨by rw [List.length_cons, hlen], fun j => ?_⟩
      rw [List.count_cons, hcount]
      by_cases hj : i = j
      · subst hj
        rw [if_neg (by omega), beq_self_eq_true, if_pos rfl, if_pos (by omega)]
      · simp only [beq_iff_eq, hj, if_false, Nat.add_zero]
        congr 1
        simp only [eq_iff_iff]
        omega
    · cases h

theorem Pool.connectFrom_true (i : ℤ) (n : ℕ) :
    (Pool.connectFrom (fun _ => true) i n).2 = true := by
  induction n generalizing i with
  | zero => rfl
  | succ n ih => exact ih (i + 1)

theorem Pool.running_cases {p : Pool κ} (h : p.checkRunState = true) :
    p.state = .ready ∨ p.state = .full := by
  unfold Pool.checkRunState at h
  split at h
  · exact .inl (by assumption)
  · exact .inr (by assumption)
  · cases h

theorem Pool.borrow_front {p : Pool κ} {idx : ℤ} {rest : List ℤ} (hready : p.state = .ready)
    (hfree : p.freeConnInfos = idx :: rest) (hrange : 0 ≤ idx ∧ idx < p.connectorCount) :
    p.borrowOneConn = some (⟨idx, p.connectors[idx.toNat]?, false⟩, p.lend rest) := by
  simp [Pool.borrowOneConn, Pool.checkRunState, hready, hfree, hrange]

theorem Pool.borrow_nothing {p : Pool κ}
    (h : p.state = .full ∨ p.state = .ready ∧ p.freeConnInfos = []) :
    p.borrowOneConn = some (.empty, p) := by
  rcases h with hfull | ⟨hready, hnil⟩
  · simp [Pool.borrowOneConn, hfull]
  · simp [Pool.borrowOneConn, hready, hnil]

theorem Consistent.running {p : Pool κ} {held : List ℤ} (h : Consistent p held) :
    p.checkRunState = true := by
  rcases h.state with ⟨hs, -⟩ | ⟨hs, -⟩ <;> simp [Pool.checkRunState, hs]

theorem Consistent.range {p : Pool κ} {held : List ℤ} (h : Consistent p held) {i : ℤ}
    (hi : i ∈ p.freeConnInfos ∨ i ∈ held) : 0 ≤ i ∧ i < p.connectorCount := by
  by_contra hout
  have honce := h.once i
  rw [if_neg hout] at honce
  rcases hi with hi | hi
  · have := List.count_pos_iff.mpr hi
    omega
  · have := List.count_pos_iff.mpr hi
    omega

theorem Consistent.lend {p : Pool κ} {held : List ℤ} {idx : ℤ} {rest : List ℤ}
    (h : Consistent p held) (hs : p.state = .ready) (hfree : p.freeConnInfos = idx :: rest) :
    Consistent (p.lend rest) (held ++ [idx]) := by
  have hsize := h.size
  have hbusy := h.busy
  rw [hfree, List.length_cons] at hsize
  refine ⟨fun i => ?_, ?_, ?_, h.bound, h.slots, ?_, h.increase⟩
  · refine Eq.trans ?_ (h.once i)
    simp only [Pool.lend, hfree, List.count_append, List.count_cons, List.count_nil]
    omega
  · simp only [Pool.lend, List.length_append, List.length_singleton]
    omega
  · simp only [Pool.lend, List.length_append, List.length_singleton]
    omega
  · simp only [Pool.lend]
    split
    · refine .inl ⟨rfl, List.length_eq_zero_iff.mp ?_⟩
      omega
    · refine .inr ⟨hs, .inl fun hnil => ?_⟩
      rw [hnil, List.length_nil] at hsize
      omega

theorem Consistent.borrow {p : Pool κ} {held : List ℤ} (h : Consistent p held) :
    ∃ w p', p.borrowOneConn = some (w, p') ∧ Consistent p' (held ++ w.holds) ∧
      w.timeout = false := by
  have hempty : Consistent p (held ++ Pool.Wrapper.holds (.empty : Pool.Wrapper κ)) := by
    rw [Pool.Wrapper.holds, if_neg (by simp [Pool.Wrapper.empty]), List.append_nil]
    exact h
  rcases h.state with ⟨hfull, -⟩ | ⟨hready, -⟩
  · exact ⟨.empty, p, Pool.borrow_nothing (.inl hfull), hempty, rfl⟩
  · cases hfree : p.freeConnInfos with
    | nil => exact ⟨.empty, p, Pool.borrow_nothing (.inr ⟨hready, hfree⟩), hempty, rfl⟩
    | cons idx rest =>
      have hrange : 0 ≤ idx ∧ idx < p.connectorCount :=
        h.range (.inl (hfree ▸ List.mem_cons_self))
      refine ⟨_, p.lend rest, Pool.borrow_front hready hfree hrange, ?_, rfl⟩
      rw [Pool.Wrapper.holds, if_pos hrange.1]
      exact h.lend hready hfree

theorem Consistent.giveBack {p : Pool κ} {a b : List ℤ} {idx : ℤ}
    (h : Consistent p (a ++ idx :: b)) : Consistent (p.giveBack idx) (a ++ b) := by
  have hsize := h.size
  have hbusy := h.busy
  simp only [List.length_append, List.length_cons] at hsize hbusy
  refine ⟨fun i => ?_, ?_, ?_, h.bound, h.slots, ?_, h.increase⟩
  · refine Eq.trans ?_ (h.once i)
    simp only [Pool.giveBack, List.count_append, List.count_cons, List.count_nil]
    omega
  · simp only [Pool.giveBack, List.length_append, List.length_singleton]
    omega
  · simp only [Pool.giveBack, List.length_append]
    omega
  · refine .inr ⟨?_, .inl (by simp [Pool.giveBack])⟩
    rcases h.state with ⟨hs, -⟩ | ⟨hs, -⟩ <;> simp [Pool.giveBack, hs]

theorem Consistent.expandLocked {p : Pool κ} {held : List ℤ} (h : Consistent p held) :
    Consistent (p.expandLocked fun _ => true).2 held := by
  have hinc : 0 ≤ p.increase ∧ p.increase ≤ p.maxConnector - p.connectorCount := by
    have hbound := h.bound
    have hpos := h.increase
    unfold Pool.increase
    dsimp only
    split <;> omega
  have hall := Pool.connectFrom_true p.connectorCount p.increase.toNat
  obtain ⟨hlen, hcount⟩ := Pool.connectFrom_spec (Prod.ext rfl hall)
  have hgrow : (p.expandLocked fun _ => true).2 =
      p.grow (Pool.connectFrom (fun _ => true) p.connectorCount p.increase.toNat).1
        (p.connectorCount + p.increase) := by
    simp only [Pool.expandLocked, hall, if_true]
  rw [hgrow]
  have hsize := h.size
  have hbusy := h.busy
  refine ⟨fun i => ?_, ?_, h.busy, ?_, h.slots, ?_, h.increase⟩
  · have honce := h.once i
    show (p.freeConnInfos ++ _).count i + held.count i =
      if 0 ≤ i ∧ i < p.connectorCount + p.increase then 1 else 0
    rw [List.count_append, hcount, Nat.add_right_comm, honce, Int.toNat_of_nonneg hinc.1]
    split_ifs <;> omega
  · simp only [Pool.grow, List.length_append, hlen]
    omega
  · simp only [Pool.grow]
    omega
  · simp only [Pool.grow]
    split
    · refine .inr ⟨rfl, .inl fun hnil => ?_⟩
      have := congrArg List.length hnil
      rw [List.length_append, hlen, List.length_nil] at this
      omega
    · rename_i hle
      have hzero : p.increase = 0 := by omega
      have hnew : (Pool.connectFrom (fun _ => true) p.connectorCount p.increase.toNat).1 = [] := by
        rw [← List.length_eq_zero_iff, hlen, hzero]
        rfl
      rw [hnew, hzero, List.append_nil, Int.add_zero]
      exact h.state

structure Lending.Ok (s : Lending κ) : Prop where
  pool : Consistent s.pool s.held
  inTime : ∀ w ∈ s.wrappers, w.timeout = false
  safe : s.failed = false

theorem Lending.Ok.destroy {s s' : Lending κ} {i : ℕ} (h : s.Ok)
    (hs : s.step (.destroy i) = some s') : s'.Ok := by
  simp only [Lending.step, Option.map_eq_some_iff] at hs
  obtain ⟨w, hw, rfl⟩ := hs
  obtain ⟨a, b, hab, herase⟩ := erase_split hw
  have hheld : s.held = a.flatMap Pool.Wrapper.holds ++ (w.holds ++ b.flatMap Pool.Wrapper.holds) := by
    rw [Lending.held, hab, List.flatMap_append, List.flatMap_cons]
  have hpool := h.pool
  rw [hheld] at hpool
  refine ⟨?_, fun v hv => h.inTime v (List.mem_of_mem_eraseIdx hv), h.safe⟩
  have hheld' : Lending.held { s with pool := s.pool.destroyWrapper w none
                                      wrappers := s.wrappers.eraseIdx i } =
      a.flatMap Pool.Wrapper.holds ++ b.flatMap Pool.Wrapper.holds := by
    rw [Lending.held, herase, List.flatMap_append]
  rw [hheld']
  unfold Pool.destroyWrapper
  by_cases hneg : w.connIdx < 0
  · rw [Pool.Wrapper.holds, if_neg (by omega), List.nil_append] at hpool
    rw [if_pos hneg]
    exact hpool
  · rw [Pool.Wrapper.holds, if_pos (by omega)] at hpool
    have hrange := hpool.range (.inr (by simp : w.connIdx ∈ _))
    have hbound := hpool.bound
    have hreturn : s.pool.returnConn w.connIdx w.timeout none = (0, s.pool.giveBack w.connIdx) := by
      have hmax : ¬ s.pool.maxConnector ≤ w.connIdx := by omega
      simp [Pool.returnConn, hpool.running, h.inTime w (List.mem_of_getElem? hw), hneg, hmax]
    rw [if_neg hneg, hreturn]
    exact hpool.giveBack

theorem Lending.step_ok {s s' : Lending κ} {act : Action} (h : s.Ok) (hs : s.step act = some s') :
    s'.Ok := by
  cases act with
  | borrow =>
    obtain ⟨w, p, hborrow, hpool, htime⟩ := h.pool.borrow
    simp only [Lending.step, hborrow, Option.some.injEq] at hs
    subst hs
    refine ⟨?_, ?_, h.safe⟩
    · simpa only [Lending.held, List.flatMap_append, List.flatMap_cons, List.flatMap_nil,
        List.append_nil] using hpool
    · intro v hv
      rcases List.mem_append.mp hv with hv | hv
      · exact h.inTime v hv
      · rw [List.mem_singleton.mp hv, htime]
  | destroy i => exact h.destroy hs
  | expandCheck =>
    simp only [Lending.step] at hs
    split at hs
    · rename_i hmax
      have hslots := h.pool.slots
      rw [if_pos (by omega)] at hs
      exact Option.some.inj hs ▸ h
    · cases hs
      exact ⟨h.pool, h.inTime, h.safe⟩
  | expandLocked =>
    simp only [Lending.step] at hs
    split at hs
    · cases hs
      exact ⟨h.pool.expandLocked, h.inTime, h.safe⟩
    · cases hs

/-- The pool after an `init` that succeeded. -/
theorem Pool.connectMin_new {p p₀ : Pool κ} {connect : ℤ → Bool} {minConn maxConn : ℤ}
    {make : ℕ → κ} {num : ℕ} (hnew : Pool.new minConn maxConn make = some p)
    (hinit : (p.setIncreaseNum num).connectMin connect = (0, p₀)) :
    0 ≤ minConn ∧ minConn ≤ maxConn ∧ (Pool.connectFrom connect 0 minConn.toNat).2 = true ∧
    p₀ = ⟨(Pool.connectFrom connect 0 minConn.toNat).1, (List.range maxConn.toNat).map make, minConn, 0,
      minConn, maxConn, .ready, num⟩ := by
  unfold Pool.new at hnew
  split at hnew
  · cases hnew
  rename_i hcounts
  cases hnew
  simp only [Pool.connectMin, Pool.setIncreaseNum] at hinit
  cases hall : (Pool.connectFrom connect 0 minConn.toNat).2 with
  | true =>
    simp only [hall, if_true, List.nil_append] at hinit
    cases hinit
    exact ⟨by omega, by omega, rfl, rfl⟩
  | false => simp [hall] at hinit

theorem Pool.connectMin_consistent {p p₀ : Pool κ} {connect : ℤ → Bool} {minConn maxConn : ℤ}
    {make : ℕ → κ} {num : ℕ} (hnum : 0 ≤ Pool.toInt32 num)
    (hnew : Pool.new minConn maxConn make = some p)
    (hinit : (p.setIncreaseNum num).connectMin connect = (0, p₀)) : Consistent p₀ [] := by
  obtain ⟨hmin, hmax, hall, rfl⟩ := Pool.connectMin_new hnew hinit
  obtain ⟨hlen, hcount⟩ := Pool.connectFrom_spec (Prod.ext rfl hall)
  refine ⟨fun i => ?_, ?_, rfl, hmax, ?_, .inr ⟨rfl, ?_⟩, hnum⟩
  · simp only [hcount, List.count_nil, Nat.add_zero]
    congr 1
    simp only [eq_iff_iff]
    omega
  · simp only [hlen, List.length_nil]
    omega
  · simp only [List.length_map, List.length_range]
    omega
  · by_cases hzero : minConn = 0
    · exact .inr hzero
    · refine .inl fun hnil => ?_
      have := congrArg List.length hnil
      simp only [hlen, List.length_nil] at this
      omega

theorem Pool.mysqlInit_new {p : Pool κ} {connect : ℤ → Bool} {minConn maxConn : ℤ}
    {make : ℕ → κ} (num : ℕ) (hnew : Pool.new minConn maxConn make = some p) :
    (p.setIncreaseNum num).mysqlInit connect = (p.setIncreaseNum num).connectMin connect := by
  unfold Pool.new at hnew
  split at hnew
  · cases hnew
  · cases hnew
    rfl

def Lending.start (p : Pool κ) : Lending κ := ⟨p, [], 0, false⟩

theorem lent_at_most_once {minConn maxConn : ℤ} {make : ℕ → κ} {num : ℕ} {connect : ℤ → Bool}
    {p p₀ : Pool κ} {s : Lending κ} (hnew : Pool.new minConn maxConn make = some p)
    (hnum : 0 ≤ Pool.toInt32 num)
    (hinit : (p.setIncreaseNum num).mysqlInit connect = (0, p₀) ∨
      (p.setIncreaseNum num).redisInit connect = (0, p₀))
    (hrun : Reachable Lending.step (.start p₀) s) :
    (∀ i, s.pool.freeConnInfos.count i + s.held.count i =
      if 0 ≤ i ∧ i < s.pool.connectorCount then 1 else 0) ∧
    s.pool.busyConnCount = s.held.length ∧
    s.pool.connectorCount ≤ s.pool.maxConnector ∧
    (s.pool.state = .full → s.pool.freeConnInfos = []) ∧
    (s.pool.state = .ready → s.pool.freeConnInfos ≠ [] ∨ s.pool.connectorCount = 0) ∧
    s.failed = false := by
  have hmin : (p.setIncreaseNum num).connectMin connect = (0, p₀) := by
    rcases hinit with hinit | hinit
    · rwa [Pool.mysqlInit_new num hnew] at hinit
    · exact hinit
  have hstart : (Lending.start p₀).Ok :=
    ⟨Pool.connectMin_consistent hnum hnew hmin, by simp [Lending.start], rfl⟩
  have hok : s.Ok := reachable_invariant hstart (fun _ _ _ => Lending.step_ok) hrun
  refine ⟨hok.pool.once, hok.pool.busy, hok.pool.bound, fun hfull => ?_, fun hready => ?_, hok.safe⟩
  · rcases hok.pool.state with ⟨-, hfree⟩ | ⟨hs, -⟩
    · exact hfree
    · rw [hfull] at hs
      cases hs
  · rcases hok.pool.state with ⟨hs, -⟩ | ⟨-, hfree⟩
    · rw [hready] at hs
      cases hs
    · exact hfree

def noneOfTwo : Pool ℕ := ⟨[], [0, 1], 0, 0, 0, 2, .ready, 1⟩

/-- It grows twice; one connection is lent, returned, and the other one lent. -/
def growAndLend : List Action :=
  [.borrow, .expandCheck, .expandCheck, .expandLocked, .borrow, .expandLocked, .destroy 1, .borrow]

theorem grow_and_lend_consistent :
    Pool.new 0 2 id = some ⟨[], [0, 1], 0, 0, 0, 2, .init, 1⟩ ∧
    ∃ s, exec Lending.step (.start noneOfTwo) growAndLend = some s ∧
      s.pool.freeConnInfos = [0] ∧ s.held = [1] ∧ s.pool.busyConnCount = s.held.length := by
  refine ⟨rfl, ⟨⟨[0], [0, 1], 2, 1, 0, 2, .ready, 1⟩, [⟨-1, none, false⟩, ⟨1, some 1, false⟩], 0, false⟩,
    rfl, rfl, rfl, ?_⟩
  exact (@lent_at_most_once ℕ 0 2 id 1 (fun _ => true) ⟨[], [0, 1], 0, 0, 0, 2, .init, 1⟩ noneOfTwo _
    rfl (by decide) (.inl rfl) ⟨growAndLend, rfl⟩).2.1

end MSylar.DBPool
