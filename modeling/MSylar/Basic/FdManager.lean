import Mathlib.Logic.Function.Basic
import Mathlib.Tactic.NormNum
import MSylar.Lib.Execution
import MSylar.Lib.Word

/-!
# File descriptor contexts (fdManager.cc:15-187, fdManager.h:25-85)

`FdManager` keeps a pointer to the context of each descriptor in a vector. A context pointer
is the number of the context among all that were ever allocated. Descriptors are not negative.
`get` compares a descriptor with the size of the vector as an `int` in two places and as a
`size_t` in one.
-/

namespace MSylar.Basic
open MSylar.Execution MSylar.Word

structure FdCtx where
  isInit : Bool
  isClosed : Bool
  sysNoblock : Bool
  userNoblock : Bool
  isSocket : Bool
  fd : ℕ
  recvTimeout : ℕ
  sendTimeout : ℕ
  deriving DecidableEq

/-- The constructor with its call of `init`; `stat` is what `fstat` says: nothing when it
fails, else whether the descriptor is a socket. -/
def FdCtx.new (fd : ℕ) (stat : Option Bool) : FdCtx where
  isInit := stat.isSome
  isClosed := false
  sysNoblock := stat = some true
  userNoblock := false
  isSocket := stat = some true
  fd := fd
  recvTimeout := 2^64 - 1
  sendTimeout := 2^64 - 1

structure FdManager where
  fdCtxs : List (Option ℕ)
  heap : List FdCtx

/-- `std::vector::resize` of a vector of pointers. -/
def resize (v : List (Option ℕ)) (n : ℕ) : List (Option ℕ) :=
  v.take n ++ List.replicate (n - v.length) none

namespace FdManager

def new : FdManager := ⟨resize [] 64, []⟩

/-- `m_fdCtxs[fd]`, or null where the vector ends before `fd`. -/
def stored (m : FdManager) (fd : ℕ) : Option ℕ := m.fdCtxs[fd]?.join

/-- `m_fdCtxs[fd]` behind the test `fd < static_cast<int>(m_fdCtxs.size())`, null where it
fails. -/
def looked (m : FdManager) (fd : ℕ) : Option ℕ :=
  if (fd : ℤ) < int32 m.fdCtxs.length then m.stored fd else none

/-- The locked region of `get` that stores the new context `p`. The new size `fd * 1.5` is
computed in a double, without error for an `int`, and truncated; `none` is the assignment to
`m_fdCtxs[fd]` out of bounds. -/
def store (m : FdManager) (fd p : ℕ) : Option (Option ℕ × FdManager) :=
  if (m.looked fd).isSome then some (m.looked fd, m)
  else
    let fdCtxs := resize m.fdCtxs (3 * fd / 2)
    if fd < fdCtxs.length then some (some p, { m with fdCtxs := fdCtxs.set fd (some p) })
    else none

def get (m : FdManager) (fd : ℕ) (autoCreate : Bool) (stat : Option Bool) :
    Option (Option ℕ × FdManager) :=
  if !autoCreate then some (m.looked fd, m)
  else
    match m.stored fd with
    | some p => some (some p, m)
    | none => store { m with heap := m.heap ++ [FdCtx.new fd stat] } fd m.heap.length

def del (m : FdManager) (fd : ℕ) : FdManager :=
  if m.fdCtxs.length ≤ fd then m else { m with fdCtxs := m.fdCtxs.set fd none }

end FdManager

inductive FdOp where
  | get (fd : ℕ) (autoCreate : Bool) (stat : Option Bool)
  | del (fd : ℕ)

def FdOp.fd : FdOp → ℕ
  | .get fd _ _ => fd
  | .del fd => fd

def FdManager.run (m : FdManager) : FdOp → Option (Option ℕ × FdManager)
  | .get fd autoCreate stat => m.get fd autoCreate stat
  | .del fd => some (none, m.del fd)

def FdManager.step (m : FdManager) (op : FdOp) : Option FdManager := (m.run op).map Prod.snd

/-! ### The partial map -/

/-- Steps of a partial map from descriptors to contexts that creates on demand. -/
inductive MapStep (fresh : ℕ → Prop) :
    (ℕ → Option ℕ) → FdOp → Option ℕ → (ℕ → Option ℕ) → Prop where
  | found (s : ℕ → Option ℕ) (fd p : ℕ) (stat : Option Bool) :
      s fd = some p → MapStep fresh s (.get fd true stat) (some p) s
  | created (s : ℕ → Option ℕ) (fd p : ℕ) (stat : Option Bool) : s fd = none → fresh p →
      MapStep fresh s (.get fd true stat) (some p) (Function.update s fd (some p))
  | looked (s : ℕ → Option ℕ) (fd : ℕ) (stat : Option Bool) :
      MapStep fresh s (.get fd false stat) (s fd) s
  | deleted (s : ℕ → Option ℕ) (fd : ℕ) :
      MapStep fresh s (.del fd) none (Function.update s fd none)

/-- One operation stays in bounds and does what the partial map does; contexts that exist
already are left as they are. -/
def ActsAsMap (m : FdManager) (op : FdOp) : Prop :=
  ∃ r m', m.run op = some (r, m') ∧ m.heap <+: m'.heap ∧
    MapStep (fun p => m.heap.length ≤ p) m.stored op r m'.stored

/-- A context is created only for a descriptor past 1, and while no descriptor from
`fd * 1.5` on has one; one that is there is looked up only while the size of the vector is an
`int`. -/
def RoomFor (m : FdManager) : FdOp → Prop
  | .get fd true _ => m.stored fd = none → 2 ≤ fd ∧ ∀ fd', 3 * fd / 2 ≤ fd' → m.stored fd' = none
  | .get fd false _ => m.stored fd = none ∨ m.fdCtxs.length < 2^31
  | .del _ => True

theorem FdManager.stored_out (m : FdManager) {fd : ℕ} (h : m.fdCtxs.length ≤ fd) :
    m.stored fd = none := by
  rw [stored, List.getElem?_eq_none h]
  rfl

instance (m : FdManager) : ∀ op, Decidable (RoomFor m op)
  | .get fd true _ => decidable_of_iff (m.stored fd = none → 2 ≤ fd ∧
      ∀ fd' < m.fdCtxs.length, 3 * fd / 2 ≤ fd' → m.stored fd' = none) <| by
    refine forall_congr' fun _ => and_congr_right fun _ => ⟨fun h fd' hfd' => ?_, fun h fd' _ => h fd'⟩
    by_cases hlt : fd' < m.fdCtxs.length
    · exact h fd' hlt hfd'
    · exact m.stored_out (by omega)
  | .get fd false _ => inferInstanceAs (Decidable (m.stored fd = none ∨ m.fdCtxs.length < 2^31))
  | .del _ => isTrue trivial

/-! ### What the vector holds -/

theorem resize_length (v : List (Option ℕ)) (n : ℕ) : (resize v n).length = n := by
  simp only [resize, List.length_append, List.length_take, List.length_replicate]
  omega

theorem resize_get (v : List (Option ℕ)) (n i : ℕ) :
    (resize v n)[i]?.join = if i < n then v[i]?.join else none := by
  unfold resize
  rw [List.getElem?_append, List.length_take]
  by_cases hi : i < n
  · by_cases hv : i < v.length
    · rw [if_pos (by omega), if_pos hi, List.getElem?_take_of_lt hi]
    · rw [if_neg (by omega), if_pos hi, List.getElem?_eq_none (by omega : v.length ≤ i),
        List.getElem?_replicate, if_pos (by omega)]
      rfl
  · rw [if_neg (by omega), if_neg hi, List.getElem?_replicate, if_neg (by omega)]
    rfl

theorem set_get (v : List (Option ℕ)) {i : ℕ} (x : Option ℕ) (hi : i < v.length) :
    (fun j => (v.set i x)[j]?.join) = Function.update (fun j => v[j]?.join) i x := by
  funext j
  by_cases hj : j = i
  · subst hj
    rw [Function.update_self, List.getElem?_set_self hi]
    rfl
  · rw [Function.update_of_ne hj, List.getElem?_set_ne (Ne.symm hj)]

namespace FdManager

theorem del_stored (m : FdManager) (fd : ℕ) :
    (m.del fd).stored = Function.update m.stored fd none := by
  unfold del
  split
  · rename_i hout
    exact (Function.update_eq_self_iff.mpr (m.stored_out hout).symm).symm
  · exact set_get _ none (by omega)

theorem looked_none {m : FdManager} {fd : ℕ} (h : m.stored fd = none) : m.looked fd = none := by
  unfold looked
  rw [h, ite_self]

theorem looked_eq_iff {m : FdManager} (hlen : m.fdCtxs.length < 2^32) (fd : ℕ) :
    m.looked fd = m.stored fd ↔ m.stored fd = none ∨ m.fdCtxs.length < 2^31 := by
  unfold looked
  by_cases hfit : m.fdCtxs.length < 2^31
  · refine iff_of_true ?_ (.inr hfit)
    rw [int32_of_lt hfit]
    split_ifs with hlt
    · rfl
    · exact (m.stored_out (by omega)).symm
  · have hneg : int32 m.fdCtxs.length < 0 := (int32_neg_iff hlen).mpr (not_lt.mp hfit)
    rw [if_neg (by omega), or_iff_left hfit, eq_comm]

theorem store_of_looked_none {m : FdManager} {fd : ℕ} (h : m.looked fd = none) (p : ℕ) :
    m.store fd p =
      if fd < (resize m.fdCtxs (3 * fd / 2)).length then
        some (some p, { m with fdCtxs := (resize m.fdCtxs (3 * fd / 2)).set fd (some p) })
      else none := by
  rw [store, h, if_neg (by decide)]

theorem get_create {m : FdManager} {fd : ℕ} {stat : Option Bool} (h : m.stored fd = none) :
    m.get fd true stat =
      if 2 ≤ fd then
        some (some m.heap.length,
          ⟨(resize m.fdCtxs (3 * fd / 2)).set fd (some m.heap.length), m.heap ++ [FdCtx.new fd stat]⟩)
      else none := by
  have hsize : fd < 3 * fd / 2 ↔ 2 ≤ fd := by omega
  unfold get
  simp only [Bool.not_true, Bool.false_eq_true, if_false, h]
  rw [store_of_looked_none]
  · simp only [resize_length, hsize]
  · exact looked_none h

theorem create_stored (m : FdManager) {fd : ℕ} (p : ℕ) (heap : List FdCtx) (hfd : 2 ≤ fd) :
    stored ⟨(resize m.fdCtxs (3 * fd / 2)).set fd (some p), heap⟩ =
      Function.update (fun i => if i < 3 * fd / 2 then m.stored i else none) fd (some p) := by
  have hset := set_get (resize m.fdCtxs (3 * fd / 2)) (some p) (by rw [resize_length]; omega : fd < _)
  have hcut : (fun i => (resize m.fdCtxs (3 * fd / 2))[i]?.join) =
      fun i => if i < 3 * fd / 2 then m.stored i else none :=
    funext fun i => resize_get m.fdCtxs _ i
  rw [hcut] at hset
  exact hset

end FdManager

/-! ### Every context belongs to its descriptor -/

def FdManager.Owned (m : FdManager) : Prop :=
  ∀ fd p, m.stored fd = some p → m.heap[p]?.map FdCtx.fd = some fd

theorem FdManager.Owned.create {m : FdManager} {fd : ℕ} {stat : Option Bool} (h : m.Owned)
    (hfd : 2 ≤ fd) :
    Owned ⟨(resize m.fdCtxs (3 * fd / 2)).set fd (some m.heap.length), m.heap ++ [FdCtx.new fd stat]⟩ := by
  intro i p hp
  rw [create_stored m _ _ hfd] at hp
  by_cases hi : i = fd
  · subst hi
    rw [Function.update_self] at hp
    cases hp
    rw [List.getElem?_concat_length]
    rfl
  · rw [Function.update_of_ne hi] at hp
    split at hp
    · have hown := h i p hp
      obtain ⟨c, hc, hcfd⟩ := Option.map_eq_some_iff.mp hown
      rw [List.getElem?_append_left (List.getElem?_eq_some_iff.mp hc).1]
      exact hown
    · cases hp

theorem FdManager.step_owned {m m' : FdManager} {op : FdOp} (h : m.Owned)
    (hs : m.step op = some m') : m'.Owned := by
  cases op with
  | get fd autoCreate stat =>
    obtain ⟨⟨r, m''⟩, hrun, rfl⟩ := Option.map_eq_some_iff.mp hs
    have hget : m.get fd autoCreate stat = some (r, m'') := hrun
    cases hstored : m.stored fd with
    | some p =>
      have hm : m'' = m := by
        cases autoCreate <;> simp_all [get]
      exact hm ▸ h
    | none =>
      cases autoCreate with
      | false =>
        have hm : m'' = m := by simp_all [get]
        exact hm ▸ h
      | true =>
        rw [get_create hstored] at hget
        split at hget
        · cases hget
          exact h.create ‹_›
        · cases hget
  | del fd =>
    obtain ⟨⟨r, m''⟩, hrun, rfl⟩ := Option.map_eq_some_iff.mp hs
    cases hrun
    intro i p hp
    have hheap : (m.del fd).heap = m.heap := by
      unfold del
      split <;> rfl
    dsimp only at hp ⊢
    rw [del_stored] at hp
    rw [hheap]
    by_cases hi : i = fd
    · subst hi
      rw [Function.update_self] at hp
      cases hp
    · rw [Function.update_of_ne hi] at hp
      exact h i p hp

theorem FdManager.reachable_stored_injective {m : FdManager} (h : Reachable step new m)
    {fd fd' p : ℕ} (hp : m.stored fd = some p) (hp' : m.stored fd' = some p) : fd = fd' := by
  have hnew : Owned new := by
    intro i p hp
    have hnone : new.stored i = none := by
      have := resize_get [] 64 i
      rw [List.getElem?_nil] at this
      exact this.trans (by split <;> rfl)
    rw [hnone] at hp
    cases hp
  have hown := reachable_invariant hnew (fun _ _ _ => step_owned) h
  exact Option.some.inj ((hown fd p hp).symm.trans (hown fd' p hp'))

/-! ### The partial map and the vector -/

theorem MapStep.created_of_none {fresh : ℕ → Prop} {s s' : ℕ → Option ℕ} {fd : ℕ}
    {stat : Option Bool} {r : Option ℕ} (h : MapStep fresh s (.get fd true stat) r s')
    (hnone : s fd = none) : ∃ p, r = some p ∧ fresh p ∧ s' = Function.update s fd (some p) := by
  cases h with
  | found _ _ _ hsome =>
    rw [hnone] at hsome
    cases hsome
  | created _ p _ _ hfresh => exact ⟨p, rfl, hfresh, rfl⟩

theorem MapStep.looked_result {fresh : ℕ → Prop} {s s' : ℕ → Option ℕ} {fd : ℕ}
    {stat : Option Bool} {r : Option ℕ} (h : MapStep fresh s (.get fd false stat) r s') :
    r = s fd := by
  cases h
  rfl

theorem actsAsMap_create_iff {m : FdManager} {fd : ℕ} (stat : Option Bool)
    (hnone : m.stored fd = none) : ActsAsMap m (.get fd true stat) ↔
      2 ≤ fd ∧ ∀ fd', 3 * fd / 2 ≤ fd' → m.stored fd' = none := by
  have hget : m.run (.get fd true stat) = _ := FdManager.get_create hnone
  constructor
  · rintro ⟨r, m', hrun, -, hstep⟩
    rw [hget] at hrun
    split at hrun
    · rename_i hfd
      obtain ⟨p, rfl, -, hupdate⟩ := hstep.created_of_none hnone
      simp only [Option.some.injEq, Prod.mk.injEq] at hrun
      obtain ⟨rfl, rfl⟩ := hrun
      refine ⟨hfd, fun fd' hfd' => ?_⟩
      have hne : fd' ≠ fd := by omega
      have hcut := congrFun hupdate fd'
      rw [FdManager.create_stored m _ _ hfd, Function.update_of_ne hne, Function.update_of_ne hne,
        if_neg (by omega)] at hcut
      exact hcut.symm
    · cases hrun
  · rintro ⟨hfd, hroom⟩
    rw [if_pos hfd] at hget
    refine ⟨_, _, hget, List.prefix_append _ _, ?_⟩
    have hcut : (fun i => if i < 3 * fd / 2 then m.stored i else none) = m.stored := by
      funext i
      split
      · rfl
      · exact (hroom i (by omega)).symm
    rw [FdManager.create_stored m _ _ hfd, hcut]
    exact .created _ _ _ _ hnone (Nat.le_refl _)

theorem actsAsMap_look_iff {m : FdManager} (hlen : m.fdCtxs.length < 2^32) (fd : ℕ)
    (stat : Option Bool) : ActsAsMap m (.get fd false stat) ↔
      m.stored fd = none ∨ m.fdCtxs.length < 2^31 := by
  have hrun : m.run (.get fd false stat) = some (m.looked fd, m) := rfl
  rw [← FdManager.looked_eq_iff hlen]
  constructor
  · rintro ⟨r, m', hrun', -, hstep⟩
    rw [hrun, Option.some.injEq, Prod.mk.injEq] at hrun'
    rw [hrun'.1]
    exact hstep.looked_result
  · intro hlooked
    rw [hlooked] at hrun
    exact ⟨_, m, hrun, List.prefix_refl _, .looked _ _ _⟩

theorem actsAsMap_iff {m : FdManager} (hlen : m.fdCtxs.length < 2^32) (op : FdOp) :
    ActsAsMap m op ↔ RoomFor m op := by
  cases op with
  | get fd autoCreate stat =>
    cases autoCreate with
    | false => exact actsAsMap_look_iff hlen fd stat
    | true =>
      cases hstored : m.stored fd with
      | none =>
        rw [actsAsMap_create_iff stat hstored]
        exact ⟨fun h _ => h, fun h => h hstored⟩
      | some p =>
        have hget : m.get fd true stat = some (some p, m) := by simp [FdManager.get, hstored]
        refine iff_of_true ⟨_, m, hget, List.prefix_refl _, .found _ _ _ _ hstored⟩ fun hnone => ?_
        rw [hstored] at hnone
        cases hnone
  | del fd =>
    refine iff_of_true ⟨none, m.del fd, rfl, ?_, ?_⟩ trivial
    · unfold FdManager.del
      split <;> exact List.prefix_refl _
    · rw [FdManager.del_stored]
      exact .deleted _ _

/-- Descriptors that are an `int` keep the size of the vector below `2^32`. -/
theorem FdManager.step_length {m m' : FdManager} {op : FdOp} (h : m.fdCtxs.length < 2^32)
    (hfd : op.fd < 2^31) (hs : m.step op = some m') : m'.fdCtxs.length < 2^32 := by
  obtain ⟨⟨r, m''⟩, hrun, rfl⟩ := Option.map_eq_some_iff.mp hs
  cases op with
  | get fd autoCreate stat =>
    cases autoCreate with
    | false =>
      have hget : some (m.looked fd, m) = some (r, m'') := hrun
      obtain ⟨-, rfl⟩ := Prod.mk.inj (Option.some.inj hget)
      exact h
    | true =>
      have hget : m.get fd true stat = some (r, m'') := hrun
      cases hstored : m.stored fd with
      | some p =>
        rw [get, if_neg (by simp), hstored] at hget
        cases hget
        exact h
      | none =>
        rw [get_create hstored] at hget
        split at hget
        · cases hget
          have hint : fd < 2^31 := hfd
          rw [List.length_set, resize_length]
          omega
        · cases hget
  | del fd =>
    cases hrun
    unfold del
    split
    · exact h
    · rw [List.length_set]
      exact h

theorem guarded_actsAsMap_iff {ops : List FdOp} (hfd : ∀ op ∈ ops, op.fd < 2^31) :
    Guarded FdManager.step ActsAsMap .new ops ↔ Guarded FdManager.step RoomFor .new ops := by
  have hnew : FdManager.new.fdCtxs.length < 2^32 := by decide
  have hlegal : Guarded FdManager.step (fun _ op => op.fd < 2^31) .new ops :=
    guarded_of_forall (fun op hop _ => hfd op hop) _
  exact guarded_iff (fun _ op hlen _ => actsAsMap_iff hlen op)
    (fun _ _ _ hlen hint _ hs => FdManager.step_length hlen hint hs) hnew hlegal

/-- A sequence of operations acts as a partial map throughout exactly if there is room for
every context that it creates and none is looked up in a vector of `2^31` entries. -/
theorem fdManager_partial_map_iff {ops : List FdOp} (hfd : ∀ op ∈ ops, op.fd < 2^31) :
    Guarded FdManager.step ActsAsMap .new ops ↔ Guarded FdManager.step RoomFor .new ops :=
  guarded_actsAsMap_iff hfd

theorem growing_fds_map :
    Guarded FdManager.step ActsAsMap .new
      [.get 5 true (some true), .del 5, .get 9 true none, .get 9 false none, .del 9] := by
  refine (fdManager_partial_map_iff ?_).mpr ?_
  · decide
  · decide

/-- From this descriptor on the size of the vector is no `int`. -/
theorem large_fd_not_found {fd : ℕ} (hlarge : 1431655766 ≤ fd) (hint : fd < 2^31)
    (stat stat' : Option Bool) :
    ¬ Guarded FdManager.step ActsAsMap .new [.get fd true stat, .get fd false stat'] := by
  have hnone : FdManager.new.stored fd = none := FdManager.stored_out _ (by
    rw [FdManager.new, resize_length]
    omega)
  have hcreate : FdManager.new.get fd true stat = _ := FdManager.get_create hnone
  rw [if_pos (by omega)] at hcreate
  have hstep : FdManager.new.step (.get fd true stat) = _ := congrArg (Option.map Prod.snd) hcreate
  have hfd : ∀ op ∈ [FdOp.get fd true stat, .get fd false stat'], op.fd < 2^31 := by
    intro op hop
    obtain rfl | rfl := List.mem_pair.mp hop
    · exact hint
    · exact hint
  rw [guarded_actsAsMap_iff hfd]
  rintro ⟨-, hnext⟩
  rcases (hnext _ hstep).1 with hlost | hfit
  · rw [FdManager.create_stored _ _ _ (by omega), Function.update_self] at hlost
    cases hlost
  · rw [List.length_set, resize_length] at hfit
    omega

theorem smaller_fd_drops_context :
    ¬ Guarded FdManager.step ActsAsMap .new [.get 20 true (some true), .get 7 true (some true)] ∧
    ¬ Guarded FdManager.step ActsAsMap .new [.get 0 true (some true)] ∧
    ¬ Guarded FdManager.step ActsAsMap .new
      [.get 1431655766 true (some true), .get 1431655766 false none] := by
  refine ⟨?_, ?_, large_fd_not_found (by decide) (by decide) _ _⟩
  · rw [guarded_actsAsMap_iff (by decide)]
    decide
  · rw [guarded_actsAsMap_iff (by decide)]
    decide

end MSylar.Basic
