import MSylar.Basic.IdAllocator

/-!
# Ids that are refused (tool.cc:9-72)

`free` may be called with any `int`, and the bitmap may fail to grow. `free` takes the size of the
bitmap for an id and does not look at the sign. A bitmap that cannot grow leaves a negative bit as
the next position, by which the next `alloc` shifts.
-/

namespace MSylar.Basic
open MSylar.Execution MSylar.Word

/-- `grows` says whether the vector could be resized. -/
inductive IdCall where
  | alloc (grows : Bool)
  | free (id : ℤ)

/-- `held`: the ids that have been handed out and not taken back. -/
structure Ledger where
  allocator : PackedIDAllocator
  held : Finset ℤ

def Ledger.new (size : ℕ) : Ledger := ⟨.new size, ∅⟩

def Ledger.step (s : Ledger) : IdCall → Option Ledger
  | .alloc grows => (s.allocator.alloc grows).map fun r => ⟨r.2, insert r.1 s.held⟩
  | .free id => (s.allocator.free id).map fun r =>
      ⟨r.2, if r.1 = 0 then s.held.erase id else s.held⟩

/-! ### Ids that are not in use -/

/-- `free` returns -1 and leaves the bitmap and the next position as they are. -/
def PackedIDAllocator.Rejects (a : PackedIDAllocator) (id : ℤ) : Prop :=
  ∃ e, a.free id = some (-1, { a with errorCode := e })

/-- The ids of set bits are in use, as far as they are `int` values. -/
structure Ledger.Marked (s : Ledger) : Prop where
  held : ∀ n, n < 2^31 → Bitmap.test s.allocator.bitMap n = true → (n : ℤ) ∈ s.held
  bit : s.allocator.nextBit < 64

theorem Ledger.new_marked (size : ℕ) : (Ledger.new size).Marked where
  held n _ hset := by simp [Ledger.new, PackedIDAllocator.new, Bitmap.test] at hset
  bit := by simp [Ledger.new, PackedIDAllocator.new]

theorem Ledger.alloc_marked {s s' : Ledger} {grows : Bool} (h : s.Marked)
    (hs : s.step (.alloc grows) = some s') : s'.Marked := by
  obtain ⟨⟨rt, a⟩, halloc, rfl⟩ := Option.map_eq_some_iff.mp hs
  unfold PackedIDAllocator.alloc at halloc
  split_ifs at halloc with hbad
  obtain ⟨hbit, hin⟩ := not_or.mp hbad
  have hlt := h.bit
  have hmarked : ∀ n, n < 2^31 →
      Bitmap.test (Bitmap.mark s.allocator.bitMap s.allocator.nextChunk
        s.allocator.nextBit.toNat) n = true →
      (n : ℤ) ∈ insert (int32 (64 * s.allocator.nextChunk + s.allocator.nextBit)) s.held := by
    intro n hn hset
    rw [Bitmap.test_mark _ n (by omega) (by omega), Bool.or_eq_true, decide_eq_true_eq] at hset
    rcases hset with hold | hnew
    · exact Finset.mem_insert_of_mem (h.held n hn hold)
    · have hpos : 64 * (s.allocator.nextChunk : ℤ) + s.allocator.nextBit = n := by omega
      rw [hpos, int32_of_lt hn]
      exact Finset.mem_insert_self _ _
  dsimp only at halloc
  split at halloc
  · rename_i i hscan
    cases halloc
    exact ⟨hmarked, Int.ofNat_lt.mpr (Bitmap.scan_ctz_lt hscan)⟩
  · cases grows <;> cases halloc
    · exact ⟨hmarked, by simp [PackedIDAllocator.expand]⟩
    · refine ⟨fun n hn hset => hmarked n hn ?_, by simp [PackedIDAllocator.expand]⟩
      simpa only [PackedIDAllocator.expand, if_true, lt_irrefl, if_false, Bitmap.test_grow] using hset

/-- What `free` makes of an id, from the branches it takes. -/
theorem PackedIDAllocator.free_marked_cases {a : PackedIDAllocator} (id : ℤ) :
    (int32 a.getSize < id ∧ a.free id = some (-1, { a with errorCode := .invalidId })) ∨
    (id ≤ int32 a.getSize ∧ ¬ (0 ≤ id ∧ id < a.getSize) ∧ a.free id = none) ∨
    ∃ n : ℕ, id = n ∧ id ≤ int32 a.getSize ∧ n < a.getSize ∧
      (Bitmap.test a.bitMap n = false ∧ a.free id = some (-1, { a with errorCode := .alreadyFreed }) ∨
        Bitmap.test a.bitMap n = true ∧ ∃ a', a.free id = some (0, a') ∧
          a'.bitMap = Bitmap.clear a.bitMap (n / 64) (n % 64) ∧ (a'.nextBit = a.nextBit ∨
            a'.nextBit = (n % 64 : ℕ))) := by
  by_cases hbig : int32 a.getSize < id
  · exact .inl ⟨hbig, free_refused hbig⟩
  · have hle := not_lt.mp hbig
    by_cases hout : id < 0 ∨ a.bitMap.length ≤ id.toNat / 64
    · refine .inr (.inl ⟨hle, ?_, ?_⟩)
      · unfold getSize
        omega
      · rw [free, if_neg hbig, if_pos hout]
    · obtain ⟨n, rfl⟩ := Int.eq_ofNat_of_zero_le (by omega : 0 ≤ id)
      refine .inr (.inr ⟨n, rfl, hle, ?_, ?_⟩)
      · simp only [Int.toNat_natCast] at hout
        unfold getSize
        omega
      · rw [free, if_neg hbig, if_neg hout, Int.toNat_natCast]
        cases hset : Bitmap.test a.bitMap n with
        | false => exact .inl ⟨rfl, if_pos rfl⟩
        | true =>
          refine .inr ⟨rfl, _, if_neg (by simp), ?_⟩
          split_ifs
          · exact ⟨rfl, .inr rfl⟩
          · exact ⟨rfl, .inl rfl⟩

theorem Ledger.free_marked {s s' : Ledger} {id : ℤ} (h : s.Marked)
    (hs : s.step (.free id) = some s') : s'.Marked := by
  obtain ⟨⟨rt, a⟩, hfree, rfl⟩ := Option.map_eq_some_iff.mp hs
  rcases s.allocator.free_marked_cases id with ⟨-, heq⟩ | ⟨-, -, heq⟩ |
    ⟨n, rfl, -, hlt, ⟨-, heq⟩ | ⟨-, a', heq, hmap, hbit⟩⟩ <;> rw [heq] at hfree
  · cases hfree
    exact ⟨h.held, h.bit⟩
  · cases hfree
  · cases hfree
    exact ⟨h.held, h.bit⟩
  · cases hfree
    refine ⟨fun k hk hset => ?_, ?_⟩
    · unfold PackedIDAllocator.getSize at hlt
      dsimp only at hset ⊢
      rw [hmap, Bitmap.test_clear _ k (by omega) (by omega), Nat.div_add_mod, Bool.and_eq_true,
        Bool.not_eq_true', decide_eq_false_iff_not] at hset
      rw [if_pos rfl]
      exact Finset.mem_erase.mpr ⟨by exact_mod_cast hset.2, h.held k hk hset.1⟩
    · rcases hbit with heq | heq
      · exact heq ▸ h.bit
      · dsimp only
        omega

theorem Ledger.step_marked {s s' : Ledger} {call : IdCall} (h : s.Marked)
    (hs : s.step call = some s') : s'.Marked := by
  cases call with
  | alloc grows => exact alloc_marked h hs
  | free id => exact free_marked h hs

/-- In every state, `free` rejects an id that is not in use exactly if it is above the size of the
bitmap as an `int`, or inside the bitmap. -/
theorem free_rejects_iff {size : ℕ} {s : Ledger} (h : Reachable Ledger.step (.new size) s) {id : ℤ}
    (hfree : id ∉ s.held) :
    s.allocator.Rejects id ↔
      int32 s.allocator.getSize < id ∨ 0 ≤ id ∧ id < s.allocator.getSize := by
  have hmarked := reachable_invariant (Ledger.new_marked size) (fun _ _ _ => Ledger.step_marked) h
  rcases s.allocator.free_marked_cases id with ⟨hbig, heq⟩ | ⟨hle, hout, heq⟩ |
    ⟨n, rfl, hle, hlt, ⟨-, heq⟩ | ⟨hset, -⟩⟩
  · exact iff_of_true ⟨_, heq⟩ (.inl hbig)
  · refine iff_of_false ?_ (not_or.mpr ⟨not_lt.mpr hle, hout⟩)
    rintro ⟨e, he⟩
    rw [heq] at he
    cases he
  · exact iff_of_true ⟨_, heq⟩ (.inr ⟨Int.natCast_nonneg n, by exact_mod_cast hlt⟩)
  · have hsmall : n < 2^31 := by
      have hbound := int32_lt s.allocator.getSize
      omega
    exact absurd (hmarked.held n hsmall hset) hfree

/-- An id that is given back a second time. -/
theorem given_back_rejected :
    ∃ s, exec Ledger.step (.new 2) [.alloc true, .alloc true, .alloc true, .free 1] = some s ∧
      s.held = {0, 2} ∧ (1 : ℤ) ∉ s.held ∧ s.allocator.Rejects 1 := by
  have hrun : (exec Ledger.step (.new 2) [.alloc true, .alloc true, .alloc true, .free 1]).map
      (fun s => (s.held, s.allocator.getSize)) = some ({0, 2}, 128) := by
    decide +kernel
  obtain ⟨s, hs, hstate⟩ := Option.map_eq_some_iff.mp hrun
  rw [Prod.mk.injEq] at hstate
  obtain ⟨hheld, hsize⟩ := hstate
  have hfree : (1 : ℤ) ∉ s.held := by
    rw [hheld]
    decide
  refine ⟨s, hs, hheld, hfree, (free_rejects_iff ⟨_, hs⟩ hfree).mpr (.inr ⟨by norm_num, ?_⟩)⟩
  rw [hsize]
  norm_num

/-- The size of the bitmap and -1 are taken for ids. -/
theorem size_and_negative_not_rejected :
    Reachable Ledger.step (.new 2) (Ledger.new 2) ∧
      ((128 : ℤ) ∉ (Ledger.new 2).held ∧ ¬ (Ledger.new 2).allocator.Rejects 128) ∧
      (-1 : ℤ) ∉ (Ledger.new 2).held ∧ ¬ (Ledger.new 2).allocator.Rejects (-1) := by
  have hundefined : ∀ id : ℤ, ((Ledger.new 2).allocator.free id).isNone = true →
      ¬ (Ledger.new 2).allocator.Rejects id := by
    rintro id hnone ⟨e, he⟩
    rw [he] at hnone
    cases hnone
  exact ⟨⟨[], rfl⟩, ⟨Finset.notMem_empty _, hundefined _ (by decide +kernel)⟩,
    Finset.notMem_empty _, hundefined _ (by decide +kernel)⟩

/-! ### A bitmap that does not grow -/

theorem PackedIDAllocator.Agrees.alloc_id {a a' : PackedIDAllocator} {live : Finset ℕ}
    (h : a.Agrees live) {grows : Bool} {rt : ℤ} (halloc : a.alloc grows = some (rt, a')) :
    rt = int32 (64 * a.nextChunk + a.nextBit) := by
  cases hscan : Bitmap.scan (Bitmap.mark a.bitMap a.nextChunk a.nextBit.toNat) a.nextChunk with
  | some i =>
    rw [h.alloc_found hscan] at halloc
    cases halloc
    rfl
  | none =>
    rw [h.alloc_full hscan] at halloc
    cases halloc
    rfl

/-- Only ids in use are freed. -/
def Ledger.legal (s : Ledger) : IdCall → Prop
  | .alloc _ => True
  | .free id => id ∈ s.held

instance (s : Ledger) (call : IdCall) : Decidable (s.legal call) :=
  match call with
  | .alloc _ => inferInstanceAs (Decidable True)
  | .free id => inferInstanceAs (Decidable (id ∈ s.held))

/-- No shift is undefined, `alloc` returns -1 exactly if all ids are in use and the bitmap does not
grow, and then marks nothing, and otherwise it returns the smallest free id. -/
def Ledger.Answers (s : Ledger) : IdCall → Prop
  | .alloc grows => ∃ rt a, s.allocator.alloc grows = some (rt, a) ∧
      (rt = -1 ↔ (∀ n < s.allocator.getSize, (n : ℤ) ∈ s.held) ∧ grows = false) ∧
      (rt = -1 → a.bitMap = s.allocator.bitMap) ∧
      (rt ≠ -1 → ∃ n : ℕ, rt = n ∧ IsLeast {n : ℕ | (n : ℤ) ∉ s.held} n)
  | .free id => (s.allocator.free id).isSome

/-- There is a bitmap, no attempt to grow it has failed, and fewer than `2^31` ids are in use. -/
def Ledger.growing (s : Ledger) : IdCall → Prop
  | .alloc _ => s.allocator.bitMap ≠ [] ∧ 0 ≤ s.allocator.nextBit ∧ s.held.card < 2^31
  | .free _ => True

instance (s : Ledger) (call : IdCall) : Decidable (s.growing call) :=
  match call with
  | .alloc _ => inferInstanceAs (Decidable (_ ∧ _))
  | .free _ => inferInstanceAs (Decidable True)

/-- The ids in use are those of the set bits. -/
structure Ledger.Tracks (s : Ledger) (live : Finset ℕ) : Prop where
  held : ∀ id, id ∈ s.held ↔ ∃ n ∈ live, (n : ℤ) = id
  small : ∀ n ∈ live, n < 2^31
  sound : s.allocator.Sound live ∨ s.allocator.bitMap = [] ∧ live = ∅

namespace Ledger
variable {s : Ledger} {live : Finset ℕ}

theorem Tracks.mem_held (h : s.Tracks live) (n : ℕ) : (n : ℤ) ∈ s.held ↔ n ∈ live := by
  rw [h.held]
  constructor
  · rintro ⟨m, hm, heq⟩
    rwa [← Int.ofNat_inj.mp heq]
  · exact fun hn => ⟨n, hn, rfl⟩

theorem Tracks.card (h : s.Tracks live) : s.held.card = live.card := by
  have heq : s.held = live.image fun n : ℕ => (n : ℤ) := by
    ext id
    rw [h.held, Finset.mem_image]
  rw [heq, Finset.card_image_of_injective _ fun m n hmn => Int.ofNat_inj.mp hmn]

theorem Tracks.bits (h : s.Tracks live) (n : ℕ) :
    Bitmap.test s.allocator.bitMap n = true ↔ n ∈ live := by
  rcases h.sound with ⟨hbits, -⟩ | ⟨hempty, rfl⟩
  · exact hbits n
  · simp [hempty, Bitmap.test]

theorem Tracks.subset (h : s.Tracks live) : live ⊆ Finset.range (2^31) :=
  fun n hn => Finset.mem_range.mpr (h.small n hn)

theorem Tracks.card_le (h : s.Tracks live) : live.card ≤ 2^31 := by
  simpa only [Finset.card_range] using Finset.card_le_card h.subset

theorem Tracks.not_held (h : s.Tracks live) : {n : ℕ | (n : ℤ) ∉ s.held} = {n | n ∉ live} := by
  ext n
  exact not_congr (h.mem_held n)

theorem new_tracks (size : ℕ) : (Ledger.new size).Tracks ∅ where
  held id := by simp [Ledger.new]
  small n hn := absurd hn (Finset.notMem_empty n)
  sound := by
    rcases Nat.eq_zero_or_pos size with rfl | hpos
    · exact .inr ⟨rfl, rfl⟩
    · have hagrees := PackedIDAllocator.new_agrees hpos
      exact .inl ⟨hagrees.bits, .inl hagrees⟩

/-- The allocator of a state in which `alloc` shifts by no negative amount. -/
theorem Tracks.agrees (h : s.Tracks live) (hmap : s.allocator.bitMap ≠ [])
    (hbit : 0 ≤ s.allocator.nextBit) : s.allocator.Agrees live := by
  rcases h.sound with ⟨-, hagrees | hstuck⟩ | ⟨hempty, -⟩
  · exact hagrees
  · rw [hstuck.2] at hbit
    exact absurd hbit (by decide)
  · exact absurd hempty hmap

theorem Tracks.alloc_spec (h : s.Tracks live) (hg : s.growing (.alloc grows)) :
    ∃ (n : ℕ) (a : PackedIDAllocator), s.allocator.alloc grows = some ((n : ℤ), a) ∧
      n < s.allocator.getSize ∧ IsLeast {n | n ∉ live} n ∧ n < 2^31 ∧ a.Sound (insert n live) := by
  obtain ⟨hmap, hbit, hcard⟩ := hg
  have hagrees := h.agrees hmap hbit
  have hlt : live.card < 2^31 := h.card ▸ hcard
  obtain ⟨a, halloc, hsound, -⟩ := PackedIDAllocator.alloc_cases hagrees hlt grows
  have hnext := hagrees.next_le
  have hin := hagrees.inside
  have hrange := hagrees.bit
  refine ⟨_, a, halloc, ?_, hagrees.next, by omega, hsound⟩
  unfold PackedIDAllocator.getSize
  omega

theorem Tracks.answers_iff (h : s.Tracks live) {call : IdCall} (hl : s.legal call) :
    s.Answers call ↔ s.growing call := by
  cases call with
  | alloc grows =>
    constructor
    · rintro ⟨rt, a, halloc, -, -, hleast⟩
      have hdefined : ¬ (s.allocator.nextBit < 0 ∨
          s.allocator.bitMap.length ≤ s.allocator.nextChunk) := by
        intro hbad
        rw [PackedIDAllocator.alloc, if_pos hbad] at halloc
        cases halloc
      obtain ⟨hbit, hin⟩ := not_or.mp hdefined
      have hmap : s.allocator.bitMap ≠ [] := by
        intro hempty
        rw [hempty] at hin
        exact hin (Nat.zero_le _)
      have hagrees := h.agrees hmap (not_lt.mp hbit)
      refine ⟨hmap, not_lt.mp hbit, ?_⟩
      by_contra hmany
      -- the smallest free id is `2^31`, which is not an `int`
      have hfull : live = Finset.range (2^31) :=
        Finset.eq_of_subset_of_card_le h.subset (by rw [Finset.card_range, ← h.card]; omega)
      have hnext := hagrees.next
      have hrange : IsLeast {n | n ∉ Finset.range (2^31)} (2^31) :=
        ⟨by simp, fun n hn => not_lt.mp fun hlt => hn (Finset.mem_range.mpr hlt)⟩
      rw [hfull] at hnext
      have hpos := hnext.unique hrange
      have hrt : rt = -2^31 := by
        rw [hagrees.alloc_id halloc]
        exact (congrArg int32 (by omega)).trans (by decide : int32 (2^31) = -2^31)
      obtain ⟨n, hn, -⟩ := hleast (by rw [hrt]; decide)
      omega
    · intro hg
      obtain ⟨n, a, halloc, hsize, hleast, -, -⟩ := h.alloc_spec hg
      refine ⟨n, a, halloc, iff_of_false (by omega) ?_, by omega, fun _ => ⟨n, rfl, ?_⟩⟩
      · rintro ⟨hall, -⟩
        exact hleast.1 ((h.mem_held n).mp (hall n hsize))
      · rw [h.not_held]
        exact hleast
  | free id =>
    refine iff_of_true ?_ trivial
    obtain ⟨n, hn, rfl⟩ := (h.held id).mp hl
    have hlt := PackedIDAllocator.mem_lt_getSize h.bits hn
    change (s.allocator.free n).isSome = true
    rcases s.allocator.free_marked_cases n with ⟨-, heq⟩ | ⟨-, hout, -⟩ |
      ⟨m, -, -, -, ⟨-, heq⟩ | ⟨-, a, heq, -⟩⟩
    · rw [heq]
      rfl
    · exact absurd ⟨Int.natCast_nonneg n, by exact_mod_cast hlt⟩ hout
    · rw [heq]
      rfl
    · rw [heq]
      rfl

theorem Tracks.renamed (h : s.Tracks live) (e : AllocatorError) :
    (⟨{ s.allocator with errorCode := e }, s.held⟩ : Ledger).Tracks live := by
  refine ⟨h.held, h.small, h.sound.imp_left fun hsound => ⟨hsound.1, hsound.2.imp_left ?_⟩⟩
  exact fun hagrees => ⟨hagrees.bits, hagrees.bit, hagrees.inside, hagrees.next⟩

theorem Tracks.step {s' : Ledger} (h : s.Tracks live) {call : IdCall} (hl : s.legal call)
    (hg : s.growing call) (hs : s.step call = some s') : ∃ live', s'.Tracks live' := by
  cases call with
  | alloc grows =>
    obtain ⟨n, a, halloc, -, -, hsmall, hsound⟩ := h.alloc_spec hg
    simp only [Ledger.step, halloc, Option.map_some, Option.some.injEq] at hs
    subst hs
    refine ⟨insert n live, fun id => ?_, fun m hm => ?_, .inl hsound⟩
    · simp only [Finset.mem_insert, h.held, or_and_right, exists_or, exists_eq_left]
      exact or_congr eq_comm Iff.rfl
    · rcases Finset.mem_insert.mp hm with rfl | hold
      · exact hsmall
      · exact h.small m hold
  | free id =>
    obtain ⟨n, hn, rfl⟩ := (h.held id).mp hl
    rw [Ledger.step] at hs
    rcases s.allocator.free_marked_cases n with ⟨-, heq⟩ | ⟨-, -, heq⟩ |
      ⟨m, -, hle, -, ⟨-, heq⟩ | -⟩
    · rw [heq] at hs
      cases hs
      exact ⟨live, h.renamed _⟩
    · rw [heq] at hs
      cases hs
    · rw [heq] at hs
      cases hs
      exact ⟨live, h.renamed _⟩
    · have hsound : s.allocator.Sound live := by
        refine h.sound.resolve_right fun hempty => ?_
        rw [hempty.2] at hn
        exact absurd hn (Finset.notMem_empty n)
      obtain ⟨a, hfree, hsound'⟩ := PackedIDAllocator.free_cases hsound h.card_le hn hle
      simp only [hfree, Option.map_some, if_true, Option.some.injEq] at hs
      subst hs
      refine ⟨live.erase n, fun id => ?_, fun m hm => h.small m (Finset.mem_of_mem_erase hm),
        .inl hsound'⟩
      simp only [Finset.mem_erase, h.held]
      constructor
      · rintro ⟨hne, m, hm, rfl⟩
        exact ⟨m, ⟨fun heq => hne (congrArg _ heq), hm⟩, rfl⟩
      · rintro ⟨m, ⟨hne, hm⟩, rfl⟩
        exact ⟨fun heq => hne (Int.ofNat_inj.mp heq), m, hm, rfl⟩

end Ledger

/-- Over every sequence of calls that frees ids in use, every call answers as it is to exactly if
each `alloc` finds a bitmap that has not failed to grow and fewer than `2^31` ids in use. -/
theorem exhaustion_survived_iff {size : ℕ} {calls : List IdCall}
    (hlegal : Guarded Ledger.step Ledger.legal (.new size) calls) :
    Guarded Ledger.step Ledger.Answers (.new size) calls ↔
      Guarded Ledger.step Ledger.growing (.new size) calls := by
  have hiff : ∀ s call, (∃ live, Ledger.Tracks s live) → s.legal call →
      (s.Answers call ↔ s.growing call) := fun _ _ ⟨_, h⟩ hl => h.answers_iff hl
  refine guarded_iff hiff ?_ ⟨∅, Ledger.new_tracks size⟩ hlegal
  intro s call s' hi hl hans hs
  obtain ⟨live, h⟩ := hi
  exact h.step hl ((h.answers_iff hl).mp hans) hs

/-- A failed resize is harmless for the ids that are free. -/
def reused : List IdCall := [.alloc true, .alloc false, .free 0, .alloc true]

theorem reused_survives : Guarded Ledger.step Ledger.legal (.new 1) reused ∧
    Guarded Ledger.step Ledger.Answers (.new 1) reused := by
  have hlegal : Guarded Ledger.step Ledger.legal (.new 1) reused := by decide +kernel
  exact ⟨hlegal, (exhaustion_survived_iff hlegal).mpr (by decide +kernel)⟩

/-- The last id is taken and the bitmap does not grow; then an id is freed. -/
def exhausting : List IdCall := List.replicate 63 (.alloc true) ++ [.alloc false, .free 5]

/-- The id that has been freed is not handed out: the next `alloc` shifts by -1. -/
theorem freed_id_not_found : Guarded Ledger.step Ledger.legal (.new 1) exhausting ∧
    ∃ s, exec Ledger.step (.new 1) exhausting = some s ∧ (5 : ℤ) ∉ s.held ∧
      ¬ s.Answers (.alloc true) := by
  refine ⟨by decide +kernel, ?_⟩
  have hfreed : (exec Ledger.step (.new 1) exhausting).any (fun s =>
      decide ((5 : ℤ) ∉ s.held) && (s.allocator.alloc true).isNone) = true := by decide +kernel
  obtain ⟨s, hrun, hs⟩ := (Option.any_eq_true _ _).mp hfreed
  rw [Bool.and_eq_true, decide_eq_true_eq] at hs
  refine ⟨s, hrun, hs.1, ?_⟩
  rintro ⟨rt, a, halloc, -⟩
  rw [halloc] at hs
  cases hs.2

end MSylar.Basic
