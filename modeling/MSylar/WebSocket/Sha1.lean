import MSylar.Lib.Sha1

/-!
# The SHA1 object (sha1.cpp:101-590, sha1.h)

`Input` takes bytes in pieces of any size, `Result` pads the last block once and gives the digest.
`H` is the array of five words, and `memory` what the message block holds before it is written.
`none` is a write behind the message block.
-/

namespace MSylar.WebSocket
open MSylar.Blocks MSylar.Sha1

structure SHA1 where
  H : Words
  lengthLow : UInt32
  lengthHigh : UInt32
  messageBlock : Vector UInt8 64
  messageBlockIndex : ℕ
  computed : Bool
  corrupted : Bool

namespace SHA1

def reset (s : SHA1) : SHA1 :=
  { s with
    lengthLow := 0
    lengthHigh := 0
    messageBlockIndex := 0
    H := ⟨0x67452301, 0xEFCDAB89, 0x98BADCFE, 0x10325476, 0xC3D2E1F0⟩
    computed := false
    corrupted := false }

def new (memory : Vector UInt8 64) : SHA1 := reset ⟨⟨0, 0, 0, 0, 0⟩, 0, 0, memory, 0, false, false⟩

/-! ### ProcessMessageBlock -/

def circularShift (bits word : UInt32) : UInt32 :=
  ((word <<< bits) &&& 0xFFFFFFFF) ||| ((word &&& 0xFFFFFFFF) >>> (32 - bits))

def firstWord (block : List UInt8) (t : ℕ) : UInt32 :=
  ((block.getD (t * 4) 0).toUInt32 <<< 24) ||| ((block.getD (t * 4 + 1) 0).toUInt32 <<< 16) |||
    ((block.getD (t * 4 + 2) 0).toUInt32 <<< 8) ||| (block.getD (t * 4 + 3) 0).toUInt32

def nextWord (W : List UInt32) (t : ℕ) : List UInt32 :=
  W ++ [circularShift 1 (W.getD (t - 3) 0 ^^^ W.getD (t - 8) 0 ^^^ W.getD (t - 14) 0 ^^^
    W.getD (t - 16) 0)]

/-- The array `W`, as far as its `n` words behind the first 16. -/
def words (block : List UInt8) (n : ℕ) : List UInt32 :=
  (List.range' 16 n).foldl nextWord ((List.range 16).map (firstWord block))

/-- The body of the four loops, which differ in the function and the constant. -/
def loopBody (f : UInt32 → UInt32 → UInt32 → UInt32) (K : UInt32) (W : List UInt32) (v : Words)
    (t : ℕ) : Words :=
  let temp := circularShift 5 v.a + f v.b v.c v.d + v.e + W.getD t 0 + K
  { e := v.d
    d := v.c
    c := circularShift 30 v.b
    b := v.a
    a := temp &&& 0xFFFFFFFF }

def processMessageBlock (s : SHA1) : SHA1 :=
  let W := words s.messageBlock.toList 64
  let v := (List.range' 0 20).foldl
    (loopBody (fun B C D => (B &&& C) ||| (~~~B &&& D)) 0x5A827999 W) s.H
  let v := (List.range' 20 20).foldl (loopBody (fun B C D => B ^^^ C ^^^ D) 0x6ED9EBA1 W) v
  let v := (List.range' 40 20).foldl
    (loopBody (fun B C D => (B &&& C) ||| (B &&& D) ||| (C &&& D)) 0x8F1BBCDC W) v
  let v := (List.range' 60 20).foldl (loopBody (fun B C D => B ^^^ C ^^^ D) 0xCA62C1D6 W) v
  { s with
    H := ⟨(s.H.a + v.a) &&& 0xFFFFFFFF, (s.H.b + v.b) &&& 0xFFFFFFFF, (s.H.c + v.c) &&& 0xFFFFFFFF,
      (s.H.d + v.d) &&& 0xFFFFFFFF, (s.H.e + v.e) &&& 0xFFFFFFFF⟩
    messageBlockIndex := 0 }

/-! ### Input -/

/-- `Message_Block[Message_Block_Index++] = x`. -/
def store (s : SHA1) (x : UInt8) : Option SHA1 :=
  if h : s.messageBlockIndex < 64 then
    some { s with
      messageBlock := s.messageBlock.set s.messageBlockIndex x h
      messageBlockIndex := s.messageBlockIndex + 1 }
  else none

/-- Counts eight bits; the object is corrupted where 64 bits do not hold the count. -/
def count (s : SHA1) : SHA1 :=
  let low := (s.lengthLow + 8) &&& 0xFFFFFFFF
  if low = 0 then
    let high := (s.lengthHigh + 1) &&& 0xFFFFFFFF
    { s with
      lengthLow := low
      lengthHigh := high
      corrupted := if high = 0 then true else s.corrupted }
  else { s with lengthLow := low }

/-- The loop of `Input`. -/
def inputLoop : SHA1 → List UInt8 → Option SHA1
  | s, [] => some s
  | s, x :: bytes =>
    if s.corrupted then some s
    else (s.store x).bind fun s =>
      let s := s.count
      inputLoop (if s.messageBlockIndex = 64 then s.processMessageBlock else s) bytes

def input (s : SHA1) (bytes : List UInt8) : Option SHA1 :=
  if bytes = [] then some s
  else if s.computed || s.corrupted then some { s with corrupted := true }
  else s.inputLoop bytes

/-! ### Result -/

/-- `while(Message_Block_Index < limit)`; `fuel` is a bound on the rounds. -/
def fill (limit : ℕ) : ℕ → SHA1 → Option SHA1
  | 0, s => some s
  | fuel + 1, s =>
    if s.messageBlockIndex < limit then (s.store 0).bind (fill limit fuel) else some s

/-- The message length, in the last eight bytes of the block. -/
def storeLength (s : SHA1) : SHA1 :=
  { s with
    messageBlock := s.messageBlock
      |>.set 56 ((s.lengthHigh >>> 24) &&& 0xFF).toUInt8
      |>.set 57 ((s.lengthHigh >>> 16) &&& 0xFF).toUInt8
      |>.set 58 ((s.lengthHigh >>> 8) &&& 0xFF).toUInt8
      |>.set 59 (s.lengthHigh &&& 0xFF).toUInt8
      |>.set 60 ((s.lengthLow >>> 24) &&& 0xFF).toUInt8
      |>.set 61 ((s.lengthLow >>> 16) &&& 0xFF).toUInt8
      |>.set 62 ((s.lengthLow >>> 8) &&& 0xFF).toUInt8
      |>.set 63 (s.lengthLow &&& 0xFF).toUInt8 }

def padMessage (s : SHA1) : Option SHA1 :=
  (if 55 < s.messageBlockIndex then
    (s.store 0x80).bind fun s => (s.fill 64 64).bind fun s => s.processMessageBlock.fill 56 64
  else (s.store 0x80).bind fun s => s.fill 56 64).map
    fun s => s.storeLength.processMessageBlock

/-- `none` in the first component is `false`. -/
def result (s : SHA1) : Option (Option Words × SHA1) :=
  if s.corrupted then some (none, s)
  else if s.computed then some (some s.H, s)
  else s.padMessage.map fun s => (some s.H, { s with computed := true })

/-! ### Calls -/

inductive Call where
  | reset
  | input (bytes : List UInt8)
  | result

/-- The results that a sequence of calls gives. -/
def calls : SHA1 → List Call → Option (List (Option Words))
  | _, [] => some []
  | s, .reset :: cs => s.reset.calls cs
  | s, .input bytes :: cs => (s.input bytes).bind fun s => s.calls cs
  | s, .result :: cs => s.result.bind fun res => (res.2.calls cs).map (res.1 :: ·)

end SHA1

/-! ### What the calls are to do -/

/-- A message that is being taken in, or whose digest has been given. -/
inductive Hashing where
  | taking (message : List UInt8)
  | computed (message : List UInt8)
  | corrupted

namespace Hashing

/-- A message is shorter than `2^64` bits. -/
def input : Hashing → List UInt8 → Hashing
  | h, [] => h
  | .taking message, x :: bytes =>
    if (message ++ x :: bytes).length < 2^61 then .taking (message ++ x :: bytes) else .corrupted
  | _, _ :: _ => .corrupted

def result : Hashing → Option Words × Hashing
  | .taking message => (some (digest message), .computed message)
  | .computed message => (some (digest message), .computed message)
  | .corrupted => (none, .corrupted)

def calls : Hashing → List SHA1.Call → List (Option Words)
  | _, [] => []
  | _, .reset :: cs => calls (.taking []) cs
  | h, .input bytes :: cs => calls (h.input bytes) cs
  | h, .result :: cs => h.result.1 :: calls h.result.2 cs

end Hashing

namespace SHA1

/-! ### One block -/

theorem and_all (x : UInt32) : x &&& 0xFFFFFFFF = x := UInt32.toBitVec_inj.mp BitVec.and_allOnes

theorem circularShift_eq (bits x : UInt32) : circularShift bits x = rotl bits x := by
  rw [circularShift, and_all, and_all, rotl]

theorem schedule_of_lt {block : List UInt8} {t : ℕ} (h : t < 16) :
    schedule block t = word block t := by
  rw [schedule, if_pos h]

theorem schedule_add_sixteen (block : List UInt8) (n : ℕ) :
    schedule block (16 + n) = rotl 1 (schedule block (16 + n - 3) ^^^ schedule block (16 + n - 8) ^^^
      schedule block (16 + n - 14) ^^^ schedule block (16 + n - 16)) := by
  rw [schedule, if_neg (by omega)]

theorem getD_schedule (block : List UInt8) {n t : ℕ} (h : t < n) :
    ((List.range n).map (schedule block)).getD t 0 = schedule block t := by
  rw [List.getD_eq_getElem _ _ (by rwa [List.length_map, List.length_range]), List.getElem_map,
    List.getElem_range]

theorem words_eq {block : List UInt8} (hblock : block.length = 64) (n : ℕ) :
    words block n = (List.range (16 + n)).map (schedule block) := by
  induction n with
  | zero =>
    refine List.map_congr_left fun t ht => ?_
    have hlt := List.mem_range.mp ht
    rw [schedule_of_lt hlt, word_eq_or (by omega), firstWord, Nat.mul_comm t 4]
  | succ n ih =>
    have hlast : words block (n + 1) = nextWord (words block n) (16 + n) := by
      rw [words, List.range'_concat, List.foldl_append, Nat.one_mul]
      rfl
    rw [hlast, ih, nextWord, getD_schedule _ (by omega), getD_schedule _ (by omega),
      getD_schedule _ (by omega), getD_schedule _ (by omega), circularShift_eq,
      ← schedule_add_sixteen, ← Nat.add_assoc, List.range_succ, List.map_append]
    rfl

/-- A loop of 20 rounds. -/
theorem loop_eq {block : List UInt8} (hblock : block.length = 64) {i : ℕ} (hi : i + 20 ≤ 80)
    {f : UInt32 → UInt32 → UInt32 → UInt32} {K : UInt32}
    (hf : ∀ t, i ≤ t → t < i + 20 → logical t = f ∧ constant t = K) (v : Words) :
    (List.range' i 20).foldl (loopBody f K (words block 64)) v =
      (List.range' i 20).foldl (round block) v := by
  refine List.foldl_ext _ _ _ fun v t ht => ?_
  obtain ⟨hle, hlt⟩ := List.mem_range'_1.mp ht
  obtain ⟨hlogical, hconstant⟩ := hf t hle hlt
  rw [loopBody, words_eq hblock, getD_schedule _ (by omega), circularShift_eq, circularShift_eq,
    and_all, Sha1.round, hlogical, hconstant, UInt32.add_assoc _ (schedule block t),
    UInt32.add_comm (schedule block t), ← UInt32.add_assoc]

theorem processMessageBlock_H (s : SHA1) :
    s.processMessageBlock.H = compress s.H s.messageBlock.toList := by
  have hblock : s.messageBlock.toList.length = 64 := Vector.length_toList
  have hrange : List.range 80 =
      List.range' 0 20 ++ List.range' 20 20 ++ List.range' 40 20 ++ List.range' 60 20 := by decide
  have hch : (fun B C D : UInt32 => (B &&& C) ||| (~~~B &&& D)) = ch := by
    funext x y z
    rw [ch_eq_or]
  have hmaj : (fun B C D : UInt32 => (B &&& C) ||| (B &&& D) ||| (C &&& D)) = maj := by
    funext x y z
    rw [maj_eq_or]
  have h0 : ∀ t, 0 ≤ t → t < 0 + 20 → logical t = ch ∧ constant t = 0x5A827999 := by
    intro t _ hlt
    rw [logical, constant, if_pos (by omega), if_pos (by omega)]
    exact ⟨rfl, rfl⟩
  have h20 : ∀ t, 20 ≤ t → t < 20 + 20 → logical t = parity ∧ constant t = 0x6ED9EBA1 := by
    intro t hle hlt
    rw [logical, constant, if_neg (by omega), if_pos (by omega), if_neg (by omega),
      if_pos (by omega)]
    exact ⟨rfl, rfl⟩
  have h40 : ∀ t, 40 ≤ t → t < 40 + 20 → logical t = maj ∧ constant t = 0x8F1BBCDC := by
    intro t hle hlt
    rw [logical, constant, if_neg (by omega), if_neg (by omega), if_pos (by omega),
      if_neg (by omega), if_neg (by omega), if_pos (by omega)]
    exact ⟨rfl, rfl⟩
  have h60 : ∀ t, 60 ≤ t → t < 60 + 20 → logical t = parity ∧ constant t = 0xCA62C1D6 := by
    intro t hle hlt
    rw [logical, constant, if_neg (by omega), if_neg (by omega), if_neg (by omega),
      if_neg (by omega), if_neg (by omega), if_neg (by omega)]
    exact ⟨rfl, rfl⟩
  unfold processMessageBlock
  dsimp only
  rw [hch, hmaj, loop_eq hblock (by decide) h0, show (fun B C D : UInt32 => B ^^^ C ^^^ D) = parity
    from rfl, loop_eq hblock (by decide) h20, loop_eq hblock (by decide) h40,
    loop_eq hblock (by decide) h60, compress, hrange, List.foldl_append, List.foldl_append,
    List.foldl_append]
  simp only [and_all, UInt32.add_comm s.H.a, UInt32.add_comm s.H.b, UInt32.add_comm s.H.c,
    UInt32.add_comm s.H.d, UInt32.add_comm s.H.e]
  rfl

/-- A block that has been processed is empty; the rest of the object is left as it is. -/
theorem processMessageBlock_frame (s : SHA1) :
    s.processMessageBlock.messageBlockIndex = 0 ∧
      s.processMessageBlock.messageBlock = s.messageBlock ∧
      s.processMessageBlock.lengthLow = s.lengthLow ∧
      s.processMessageBlock.lengthHigh = s.lengthHigh ∧
      s.processMessageBlock.computed = s.computed ∧
      s.processMessageBlock.corrupted = s.corrupted := by
  unfold processMessageBlock
  exact ⟨rfl, rfl, rfl, rfl, rfl, rfl⟩

/-! ### Bytes that are taken in -/

/-- The object has taken in `m`, which is short enough. -/
structure Taken (m : List UInt8) (s : SHA1) : Prop where
  index : s.messageBlockIndex = m.length % 64
  absorbed : (⟨s.H, s.messageBlock.toList.take s.messageBlockIndex⟩ : Absorber UInt8 Words) =
    .after 64 compress initial m
  low : s.lengthLow.toNat = 8 * m.length % 2 ^ 32
  high : s.lengthHigh.toNat = 8 * m.length / 2 ^ 32
  short : m.length < 2 ^ 61
  computed : s.computed = false
  corrupted : s.corrupted = false

theorem reset_taken (s : SHA1) : Taken [] s.reset := by
  refine ⟨rfl, ?_, rfl, rfl, by decide, rfl, rfl⟩
  rw [Absorber.after_nil]
  rfl

theorem take_set {l : List UInt8} {i : ℕ} (h : i < l.length) (x : UInt8) :
    (l.set i x).take (i + 1) = l.take i ++ [x] := by
  rw [List.take_succ_eq_append_getElem (by rwa [List.length_set]), List.take_set_of_le (Nat.le_refl i),
    List.getElem_set_self]

/-- Only the message block has changed. -/
def withBlock (s : SHA1) (block : Vector UInt8 64) (index : ℕ) : SHA1 :=
  { s with messageBlock := block, messageBlockIndex := index }

theorem withBlock_withBlock (s : SHA1) (block block' : Vector UInt8 64) (i j : ℕ) :
    (s.withBlock block i).withBlock block' j = s.withBlock block' j := rfl

theorem withBlock_frame (s : SHA1) (block : Vector UInt8 64) (i : ℕ) :
    (s.withBlock block i).H = s.H ∧ (s.withBlock block i).storeLength.H = s.H ∧
      (s.withBlock block i).messageBlock = block ∧
      (s.withBlock block i).corrupted = s.corrupted ∧
      (s.withBlock block i).storeLength.corrupted = s.corrupted := ⟨rfl, rfl, rfl, rfl, rfl⟩

/-- What `store` does to the part of the block that is in use. -/
theorem store_spec {s : SHA1} (h : s.messageBlockIndex < 64) (x : UInt8) :
    ∃ block, s.store x = some (s.withBlock block (s.messageBlockIndex + 1)) ∧
      block.toList.take (s.messageBlockIndex + 1) =
        s.messageBlock.toList.take s.messageBlockIndex ++ [x] := by
  refine ⟨s.messageBlock.set s.messageBlockIndex x h, dif_pos h, ?_⟩
  rw [Vector.toList_set]
  exact take_set (by rwa [Vector.length_toList]) x

/-- `count` touches the count and the flag only. -/
theorem count_frame (s : SHA1) : s.count.H = s.H ∧ s.count.messageBlock = s.messageBlock ∧
    s.count.messageBlockIndex = s.messageBlockIndex ∧ s.count.computed = s.computed := by
  unfold count
  dsimp only
  split_ifs <;> exact ⟨rfl, rfl, rfl, rfl⟩

theorem count_spec {s : SHA1} {n : ℕ} (hn : n < 2 ^ 61) (hlow : s.lengthLow.toNat = 8 * n % 2 ^ 32)
    (hhigh : s.lengthHigh.toNat = 8 * n / 2 ^ 32) (hcorrupted : s.corrupted = false) :
    (n + 1 < 2 ^ 61 → s.count.lengthLow.toNat = 8 * (n + 1) % 2 ^ 32 ∧
        s.count.lengthHigh.toNat = 8 * (n + 1) / 2 ^ 32 ∧ s.count.corrupted = false) ∧
      (¬ n + 1 < 2 ^ 61 → s.count.corrupted = true) := by
  have hlow' : (s.lengthLow + 8).toNat = 8 * (n + 1) % 2 ^ 32 := by
    rw [UInt32.toNat_add, hlow, show (8 : UInt32).toNat = 8 from rfl]
    omega
  have hhigh' : (s.lengthHigh + 1).toNat = (8 * n / 2 ^ 32 + 1) % 2 ^ 32 := by
    rw [UInt32.toNat_add, hhigh, show (1 : UInt32).toNat = 1 from rfl]
  have hzero : ∀ y : UInt32, y = 0 ↔ y.toNat = 0 := fun y => UInt32.toNat_inj.symm
  unfold count
  dsimp only
  rw [and_all, and_all]
  by_cases hwrap : s.lengthLow + 8 = 0
  · have hlast := (hzero _).mp hwrap
    rw [if_pos hwrap]
    dsimp only
    rw [hlow', hhigh']
    by_cases hfull : s.lengthHigh + 1 = 0
    · have hend := (hzero _).mp hfull
      rw [if_pos hfull]
      refine ⟨fun hshort => ?_, fun _ => rfl⟩
      omega
    · have hmore := mt (hzero _).mpr hfull
      rw [if_neg hfull]
      refine ⟨fun _ => ⟨rfl, ?_, hcorrupted⟩, fun hlong => ?_⟩
      · omega
      · omega
  · have hmore := mt (hzero _).mpr hwrap
    rw [if_neg hwrap]
    dsimp only
    rw [hlow', hhigh]
    refine ⟨fun _ => ⟨rfl, ?_, hcorrupted⟩, fun hlong => ?_⟩
    · omega
    · omega

/-- One round of the loop in `Input`. -/
theorem Taken.push {m : List UInt8} {s : SHA1} (h : Taken m s) (x : UInt8) :
    ∃ t, s.store x = some t ∧
      let t' := if t.count.messageBlockIndex = 64 then t.count.processMessageBlock else t.count
      (m.length + 1 < 2 ^ 61 → Taken (m ++ [x]) t') ∧
        (¬ m.length + 1 < 2 ^ 61 → t'.corrupted = true) := by
  have hmod : s.messageBlockIndex < 64 := by
    rw [h.index]
    exact Nat.mod_lt _ (by decide)
  obtain ⟨block, hstore, htake⟩ := store_spec hmod x
  refine ⟨_, hstore, ?_⟩
  have hcount := count_spec (s := s.withBlock block (s.messageBlockIndex + 1)) h.short h.low h.high
    h.corrupted
  obtain ⟨hH, hblock, hindex, hcomputed⟩ :=
    count_frame (s.withBlock block (s.messageBlockIndex + 1))
  have hpush := Absorber.push_after (n := 64) (f := compress) (by decide) initial m x
  rw [← h.absorbed] at hpush
  generalize (s.withBlock block (s.messageBlockIndex + 1)).count = s'
    at hcount hH hblock hindex hcomputed ⊢
  dsimp only [withBlock] at hH hblock hindex hcomputed ⊢
  have hlength : (m ++ [x]).length = m.length + 1 := by
    rw [List.length_append, List.length_singleton]
  have hpending : (s.messageBlock.toList.take s.messageBlockIndex ++ [x]).length =
      s.messageBlockIndex + 1 := by
    rw [List.length_append, List.length_take, Vector.length_toList, List.length_singleton]
    omega
  unfold Absorber.push at hpush
  dsimp only at hpush
  rw [hpending, ← htake] at hpush
  rw [hindex]
  by_cases hfull : s.messageBlockIndex + 1 = 64
  · have hall : block.toList.take (s.messageBlockIndex + 1) = block.toList := by
      rw [hfull, List.take_of_length_le (Nat.le_of_eq Vector.length_toList)]
    obtain ⟨hzero, _, hlow', hhigh', hcomputed', hcorrupted'⟩ := s'.processMessageBlock_frame
    rw [if_pos hfull]
    rw [if_pos hfull, hall] at hpush
    refine ⟨fun hshort => ?_, fun hlong => hcorrupted'.trans (hcount.2 hlong)⟩
    obtain ⟨hlow, hhigh, hcorrupted⟩ := hcount.1 hshort
    rw [← hlength] at hlow hhigh hshort
    refine ⟨?_, ?_, by rw [hlow', hlow], by rw [hhigh', hhigh], hshort,
      (hcomputed'.trans hcomputed).trans h.computed, hcorrupted'.trans hcorrupted⟩
    · have hprev := h.index
      rw [hzero, hlength]
      omega
    · rw [processMessageBlock_H, hzero, List.take_zero, hH, hblock]
      exact hpush
  · rw [if_neg hfull]
    rw [if_neg hfull] at hpush
    refine ⟨fun hshort => ?_, hcount.2⟩
    obtain ⟨hlow, hhigh, hcorrupted⟩ := hcount.1 hshort
    refine ⟨?_, ?_, hlength ▸ hlow, hlength ▸ hhigh, hlength ▸ hshort, hcomputed.trans h.computed,
      hcorrupted⟩
    · have hprev := h.index
      rw [hindex, hlength]
      omega
    · rw [hH, hblock, hindex, ← hpush]

theorem inputLoop_corrupted {s : SHA1} (h : s.corrupted = true) (bytes : List UInt8) :
    s.inputLoop bytes = some s := by
  cases bytes with
  | nil => rfl
  | cons x bytes => rw [inputLoop, if_pos h]

theorem Taken.inputLoop {m : List UInt8} {s : SHA1} (h : Taken m s) (bytes : List UInt8) :
    ∃ s', s.inputLoop bytes = some s' ∧
      ((m ++ bytes).length < 2 ^ 61 → Taken (m ++ bytes) s') ∧
        (¬ (m ++ bytes).length < 2 ^ 61 → s'.corrupted = true) := by
  induction bytes generalizing m s with
  | nil =>
    refine ⟨s, rfl, fun _ => ?_, fun hlong => ?_⟩
    · rw [List.append_nil]
      exact h
    · rw [List.append_nil] at hlong
      exact absurd h.short hlong
  | cons x bytes ih =>
    obtain ⟨t, hstore, hshort, hlong⟩ := h.push x
    have hnext : s.inputLoop (x :: bytes) = SHA1.inputLoop (if t.count.messageBlockIndex = 64 then
        t.count.processMessageBlock else t.count) bytes := by
      rw [SHA1.inputLoop, if_neg (by rw [h.corrupted]; exact Bool.false_ne_true), hstore,
        Option.bind_some]
    have hlength : (m ++ x :: bytes).length = m.length + 1 + bytes.length := by
      rw [List.length_append, List.length_cons]
      omega
    by_cases hone : m.length + 1 < 2 ^ 61
    · obtain ⟨s', hs', hrest⟩ := ih (hshort hone)
      rw [List.append_assoc, List.singleton_append] at hrest
      exact ⟨s', hnext.trans hs', hrest⟩
    · refine ⟨_, hnext.trans (inputLoop_corrupted (hlong hone) bytes), fun hall => ?_,
        fun _ => hlong hone⟩
      omega

/-! ### Padding -/

theorem fill_spec {s : SHA1} {limit : ℕ} (hlimit : limit ≤ 64) {fuel : ℕ}
    (hfuel : limit ≤ s.messageBlockIndex + fuel) (hindex : s.messageBlockIndex ≤ limit) :
    ∃ block, s.fill limit fuel = some (s.withBlock block limit) ∧
      block.toList.take limit = s.messageBlock.toList.take s.messageBlockIndex ++
        List.replicate (limit - s.messageBlockIndex) 0 := by
  induction fuel generalizing s with
  | zero =>
    have hend : s.messageBlockIndex = limit := by omega
    refine ⟨s.messageBlock, ?_, ?_⟩
    · rw [fill, ← hend]
      rfl
    · rw [← hend, Nat.sub_self, List.replicate_zero, List.append_nil]
  | succ fuel ih =>
    rw [fill]
    by_cases hmore : s.messageBlockIndex < limit
    · obtain ⟨block, hstore, htake⟩ := store_spec (by omega : s.messageBlockIndex < 64) 0
      obtain ⟨block', hfill, htake'⟩ := ih (s := s.withBlock block (s.messageBlockIndex + 1))
        (by dsimp only [withBlock]; omega) hmore
      refine ⟨block', ?_, ?_⟩
      · rw [if_pos hmore, hstore, Option.bind_some, hfill]
        rfl
      · dsimp only [withBlock] at htake'
        have hrest : limit - s.messageBlockIndex = limit - (s.messageBlockIndex + 1) + 1 := by omega
        rw [htake', htake, hrest, List.replicate_succ, List.append_assoc, List.singleton_append]
    · have hend : s.messageBlockIndex = limit := by omega
      refine ⟨s.messageBlock, ?_, ?_⟩
      · rw [if_neg hmore, ← hend]
        rfl
      · rw [← hend, Nat.sub_self, List.replicate_zero, List.append_nil]

/-- A byte of the count. -/
theorem count_byte {x y : UInt32} {bits j i : ℕ} (hx : x.toNat = bits / 2 ^ j % 2 ^ 32)
    (hi : i ≤ 24) (hy : y.toNat = x.toNat / 2 ^ i) :
    (y &&& 0xFF).toUInt8 = UInt8.ofNat (bits >>> (j + i)) := by
  have hmask : y.toNat &&& 255 = y.toNat % 2 ^ 8 := Nat.and_two_pow_sub_one_eq_mod _ 8
  have hword : (2 : ℕ) ^ 32 = 2 ^ i * 2 ^ (32 - i) := by
    rw [← Nat.pow_add]
    congr 1
    omega
  have hdvd : (2 : ℕ) ^ 8 ∣ 2 ^ (32 - i) := Nat.pow_dvd_pow 2 (by omega)
  apply UInt8.toNat.inj
  rw [UInt32.toNat_toUInt8, UInt32.toNat_and, show (0xFF : UInt32).toNat = 255 from rfl, hmask,
    UInt8.toNat_ofNat', Nat.mod_mod, hy, hx, hword, Nat.mod_mul_right_div_self,
    Nat.mod_mod_of_dvd _ hdvd, Nat.shiftRight_eq_div_pow, Nat.pow_add, Nat.div_div_eq_div_mul]

theorem shift_toNat (x : UInt32) {i : UInt32} (hi : i.toNat < 32) :
    (x >>> i).toNat = x.toNat / 2 ^ i.toNat := by
  rw [UInt32.toNat_shiftRight, Nat.mod_eq_of_lt hi, Nat.shiftRight_eq_div_pow]

theorem storeLength_spec {s : SHA1} {n : ℕ} (hn : n < 2 ^ 61)
    (hlow : s.lengthLow.toNat = 8 * n % 2 ^ 32) (hhigh : s.lengthHigh.toNat = 8 * n / 2 ^ 32) :
    s.storeLength.messageBlock.toList = s.messageBlock.toList.take 56 ++ lengthBytes (8 * n) := by
  have hlow' : s.lengthLow.toNat = 8 * n / 2 ^ 0 % 2 ^ 32 := by
    rw [hlow, Nat.pow_zero, Nat.div_one]
  have hhigh' : s.lengthHigh.toNat = 8 * n / 2 ^ 32 % 2 ^ 32 := by
    rw [hhigh, Nat.mod_eq_of_lt]
    omega
  have hlength : s.messageBlock.toList.length = 64 := Vector.length_toList
  have hend : s.storeLength.messageBlock.toList = s.storeLength.messageBlock.toList.take 64 :=
    (List.take_of_length_le (Nat.le_of_eq Vector.length_toList)).symm
  rw [hend]
  simp only [storeLength, Vector.toList_set]
  rw [take_set (by simp only [List.length_set, hlength]; decide),
    take_set (by simp only [List.length_set, hlength]; decide),
    take_set (by simp only [List.length_set, hlength]; decide),
    take_set (by simp only [List.length_set, hlength]; decide),
    take_set (by simp only [List.length_set, hlength]; decide),
    take_set (by simp only [List.length_set, hlength]; decide),
    take_set (by simp only [List.length_set, hlength]; decide),
    take_set (by simp only [hlength]; decide)]
  rw [count_byte hhigh' (by decide) (shift_toNat _ (by decide)),
    count_byte hhigh' (by decide) (shift_toNat _ (by decide)),
    count_byte hhigh' (by decide) (shift_toNat _ (by decide)),
    count_byte hhigh' (i := 0) (by decide) (Nat.div_one _).symm,
    count_byte hlow' (by decide) (shift_toNat _ (by decide)),
    count_byte hlow' (by decide) (shift_toNat _ (by decide)),
    count_byte hlow' (by decide) (shift_toNat _ (by decide)),
    count_byte hlow' (i := 0) (by decide) (Nat.div_one _).symm]
  simp only [List.append_assoc, List.singleton_append]
  rfl

/-- The digest is that of the blocks that are left. -/
theorem Taken.digest_eq {m : List UInt8} {s : SHA1} (h : Taken m s) :
    digest m = foldBlocks 64 compress (if s.messageBlockIndex < 56 then 1 else 2) s.H
      (s.messageBlock.toList.take s.messageBlockIndex ++ padding m.length) := by
  have hstate : s.H = (Absorber.after 64 compress initial m).state :=
    congrArg Absorber.state h.absorbed
  have hpending : s.messageBlock.toList.take s.messageBlockIndex =
      (Absorber.after 64 compress initial m).pending := congrArg Absorber.pending h.absorbed
  rw [digest, length_pad, Nat.mul_div_cancel _ (by decide), pad, Absorber.foldBlocks_after, ← hstate,
    ← hpending, h.index]

/-- There is room for the length in the last block. -/
theorem Taken.padMessage_one {m : List UInt8} {s : SHA1} (h : Taken m s)
    (hroom : s.messageBlockIndex < 56) :
    ∃ s', s.padMessage = some s' ∧ s'.H = digest m ∧ s'.corrupted = false := by
  obtain ⟨block, hstore, htake⟩ := store_spec (by omega : s.messageBlockIndex < 64) 0x80
  obtain ⟨block', hfill, htake'⟩ := fill_spec
    (s := s.withBlock block (s.messageBlockIndex + 1)) (by decide : 56 ≤ 64)
    (by omega : 56 ≤ s.messageBlockIndex + 1 + 64) hroom
  have hzeros : 56 - (s.messageBlockIndex + 1) = zeros m.length := by
    rw [zeros_eq, ← h.index, if_pos hroom]
    omega
  have hlast : (s.withBlock block' 56).storeLength.messageBlock.toList =
      s.messageBlock.toList.take s.messageBlockIndex ++ padding m.length := by
    rw [storeLength_spec (s := s.withBlock block' 56) h.short h.low h.high]
    dsimp only [withBlock] at htake' ⊢
    rw [htake', htake, hzeros, padding]
    simp only [List.append_assoc, List.cons_append, List.nil_append]
  refine ⟨(s.withBlock block' 56).storeLength.processMessageBlock, ?_, ?_, ?_⟩
  · rw [SHA1.padMessage, if_neg (by omega), hstore, Option.bind_some, hfill, Option.map_some,
      withBlock_withBlock]
  · rw [processMessageBlock_H, hlast, h.digest_eq, if_pos hroom, (withBlock_frame s block' 56).2.1,
      foldBlocks_one]
    rw [← hlast, Vector.length_toList]
  · rw [(processMessageBlock_frame _).2.2.2.2.2, (withBlock_frame s block' 56).2.2.2.2]
    exact h.corrupted

/-- The length goes to a block of its own. -/
theorem Taken.padMessage_two {m : List UInt8} {s : SHA1} (h : Taken m s)
    (hroom : ¬ s.messageBlockIndex < 56) :
    ∃ s', s.padMessage = some s' ∧ s'.H = digest m ∧ s'.corrupted = false := by
  have hmod : s.messageBlockIndex < 64 := by
    rw [h.index]
    exact Nat.mod_lt _ (by decide)
  obtain ⟨block, hstore, htake⟩ := store_spec hmod 0x80
  obtain ⟨block₁, hfill₁, htake₁⟩ := fill_spec
    (s := s.withBlock block (s.messageBlockIndex + 1)) (by decide : 64 ≤ 64)
    (by omega : 64 ≤ s.messageBlockIndex + 1 + 64) hmod
  generalize hs₁ : (s.withBlock block₁ 64).processMessageBlock = s₁
  obtain ⟨hindex, _, hlow, hhigh, _, hcorrupted⟩ := (s.withBlock block₁ 64).processMessageBlock_frame
  rw [hs₁] at hindex hlow hhigh hcorrupted
  obtain ⟨block₂, hfill₂, htake₂⟩ := fill_spec (s := s₁) (by decide : 56 ≤ 64)
    (by omega : 56 ≤ s₁.messageBlockIndex + 64) (by omega)
  have hfirst : block₁.toList = s.messageBlock.toList.take s.messageBlockIndex ++
      0x80 :: List.replicate (63 - s.messageBlockIndex) 0 := by
    rw [List.take_of_length_le (Nat.le_of_eq Vector.length_toList)] at htake₁
    dsimp only [withBlock] at htake₁
    rw [htake₁, htake, List.append_assoc, List.singleton_append]
    congr 3
    omega
  have hlast : (s₁.withBlock block₂ 56).storeLength.messageBlock.toList =
      List.replicate 56 0 ++ lengthBytes (8 * m.length) := by
    rw [storeLength_spec (s := s₁.withBlock block₂ 56) h.short
      ((congrArg UInt32.toNat hlow).trans h.low) ((congrArg UInt32.toNat hhigh).trans h.high)]
    dsimp only [withBlock]
    rw [htake₂, hindex, List.take_zero, List.nil_append]
  have hblocks : s.messageBlock.toList.take s.messageBlockIndex ++ padding m.length =
      block₁.toList ++ (s₁.withBlock block₂ 56).storeLength.messageBlock.toList := by
    have hzeros : zeros m.length = 63 - s.messageBlockIndex + 56 := by
      rw [zeros_eq, ← h.index, if_neg hroom]
      omega
    rw [hfirst, hlast, padding, hzeros, ← List.replicate_append_replicate]
    simp only [List.append_assoc, List.cons_append]
  refine ⟨(s₁.withBlock block₂ 56).storeLength.processMessageBlock, ?_, ?_, ?_⟩
  · rw [SHA1.padMessage, if_pos (by omega), hstore, Option.bind_some, hfill₁, Option.bind_some]
    rw [withBlock_withBlock, hs₁, hfill₂, Option.map_some]
  · have hH : s₁.H = compress s.H block₁.toList := by
      rw [← hs₁, processMessageBlock_H, (withBlock_frame s block₁ 64).1,
        (withBlock_frame s block₁ 64).2.2.1]
    have hlength : block₁.toList.length = 1 * 64 := Vector.length_toList
    rw [processMessageBlock_H, h.digest_eq, if_neg hroom, hblocks,
      foldBlocks_append 1 1 _ hlength, foldBlocks_one _ hlength, foldBlocks_one _
        Vector.length_toList, ← hH, (withBlock_frame s₁ block₂ 56).2.1]
  · rw [(processMessageBlock_frame _).2.2.2.2.2, (withBlock_frame s₁ block₂ 56).2.2.2.2, hcorrupted,
      (withBlock_frame s block₁ 64).2.2.2.1]
    exact h.corrupted

theorem Taken.padMessage {m : List UInt8} {s : SHA1} (h : Taken m s) :
    ∃ s', s.padMessage = some s' ∧ s'.H = digest m ∧ s'.corrupted = false := by
  by_cases hroom : s.messageBlockIndex < 56
  · exact h.padMessage_one hroom
  · exact h.padMessage_two hroom

/-! ### Sequences of calls -/

inductive Represents : Hashing → SHA1 → Prop where
  | taking {m : List UInt8} {s : SHA1} (htaken : Taken m s) : Represents (.taking m) s
  | computed {m : List UInt8} {s : SHA1} (hcomputed : s.computed = true) (hH : s.H = digest m)
    (hcorrupted : s.corrupted = false) : Represents (.computed m) s
  | corrupted {s : SHA1} (hcorrupted : s.corrupted = true) : Represents .corrupted s

theorem Represents.input {h : Hashing} {s : SHA1} (hs : Represents h s) (bytes : List UInt8) :
    ∃ s', s.input bytes = some s' ∧ Represents (h.input bytes) s' := by
  cases bytes with
  | nil =>
    refine ⟨s, if_pos rfl, ?_⟩
    rw [Hashing.input]
    exact hs
  | cons x bytes =>
    unfold SHA1.input
    rw [if_neg (List.cons_ne_nil x bytes)]
    cases hs with
    | taking htaken =>
      obtain ⟨s', hs', hshort, hlong⟩ := htaken.inputLoop (x :: bytes)
      rw [htaken.computed, htaken.corrupted, Bool.or_self, if_neg Bool.false_ne_true, Hashing.input]
      refine ⟨s', hs', ?_⟩
      split_ifs with hlength
      · exact .taking (hshort hlength)
      · exact .corrupted (hlong hlength)
    | computed hcomputed =>
      rw [hcomputed, Bool.true_or, if_pos rfl]
      exact ⟨_, rfl, .corrupted rfl⟩
    | corrupted hcorrupted =>
      rw [hcorrupted, Bool.or_true, if_pos rfl]
      exact ⟨_, rfl, .corrupted rfl⟩

theorem Represents.result {h : Hashing} {s : SHA1} (hs : Represents h s) :
    ∃ s', s.result = some (h.result.1, s') ∧ Represents h.result.2 s' := by
  unfold SHA1.result
  cases hs with
  | taking htaken =>
    obtain ⟨s', hs', hH, hcorrupted⟩ := htaken.padMessage
    rw [htaken.corrupted, if_neg Bool.false_ne_true, htaken.computed, if_neg Bool.false_ne_true, hs',
      Option.map_some]
    refine ⟨{ s' with computed := true }, ?_, .computed rfl hH hcorrupted⟩
    rw [hH, Hashing.result]
  | computed hcomputed hH hcorrupted =>
    rw [hcorrupted, if_neg Bool.false_ne_true, hcomputed, if_pos rfl, hH]
    exact ⟨s, rfl, .computed hcomputed hH hcorrupted⟩
  | corrupted hcorrupted =>
    rw [hcorrupted, if_pos rfl]
    exact ⟨s, rfl, .corrupted hcorrupted⟩

theorem Represents.calls {h : Hashing} {s : SHA1} (hs : Represents h s) (cs : List Call) :
    s.calls cs = some (h.calls cs) := by
  induction cs generalizing h s with
  | nil => rfl
  | cons c cs ih =>
    cases c with
    | reset => exact ih (.taking s.reset_taken)
    | input bytes =>
      obtain ⟨s', hs', hnext⟩ := hs.input bytes
      rw [SHA1.calls, hs', Option.bind_some, ih hnext, Hashing.calls]
    | result =>
      obtain ⟨s', hs', hnext⟩ := hs.result
      rw [SHA1.calls, hs', Option.bind_some, ih hnext, Option.map_some, Hashing.calls]

end SHA1

/-- In every sequence of calls, however a message is cut and whatever the block held before, the
object writes inside its block and gives the digest of what it has taken in since the last reset. -/
theorem sha1_calls (memory : Vector UInt8 64) (cs : List SHA1.Call) :
    (SHA1.new memory).calls cs = some (Hashing.calls (.taking []) cs) :=
  SHA1.Represents.calls (.taking (SHA1.reset_taken _)) cs

/-- The first test of the package. -/
example : (SHA1.new (Vector.replicate 64 0xAA)).calls [.input [0x61], .input [0x62, 0x63], .result] =
    some [some ⟨0xA9993E36, 0x4706816A, 0xBA3E2571, 0x7850C26C, 0x9CD0D89D⟩] := by
  decide +kernel

end MSylar.WebSocket
