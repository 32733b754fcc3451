import Mathlib.Data.BitVec
import Mathlib.Data.List.GetD
import MSylar.Lib.Blocks

/-!
# The Secure Hash Algorithm SHA-1

The digest of a message of bytes, as the standard defines it: the message is padded to blocks of
512 bits, and each block is expanded to 80 words and worked into five words.
-/

namespace MSylar.Sha1
open MSylar.Blocks

/-- Five words: the hash value, or the working variables of a block. -/
structure Words where
  a : UInt32
  b : UInt32
  c : UInt32
  d : UInt32
  e : UInt32
  deriving DecidableEq

def Words.add (x y : Words) : Words := ⟨x.a + y.a, x.b + y.b, x.c + y.c, x.d + y.d, x.e + y.e⟩

def rotl (n x : UInt32) : UInt32 := (x <<< n) ||| (x >>> (32 - n))

def ch (x y z : UInt32) : UInt32 := (x &&& y) ^^^ (~~~x &&& z)

def parity (x y z : UInt32) : UInt32 := x ^^^ y ^^^ z

def maj (x y z : UInt32) : UInt32 := (x &&& y) ^^^ (x &&& z) ^^^ (y &&& z)

def logical (t : ℕ) : UInt32 → UInt32 → UInt32 → UInt32 :=
  if t < 20 then ch else if t < 40 then parity else if t < 60 then maj else parity

def constant (t : ℕ) : UInt32 :=
  if t < 20 then 0x5A827999 else if t < 40 then 0x6ED9EBA1 else if t < 60 then 0x8F1BBCDC
  else 0xCA62C1D6

/-- Word `t` of a block, the most significant byte first. -/
def word (block : List UInt8) (t : ℕ) : UInt32 :=
  ((block.drop (4 * t)).take 4).foldl (fun w x => w * 256 + x.toUInt32) 0

/-- The message schedule of a block. -/
def schedule (block : List UInt8) (t : ℕ) : UInt32 :=
  if t < 16 then word block t
  else rotl 1 (schedule block (t - 3) ^^^ schedule block (t - 8) ^^^ schedule block (t - 14) ^^^
    schedule block (t - 16))
termination_by t

def round (block : List UInt8) (w : Words) (t : ℕ) : Words where
  a := rotl 5 w.a + logical t w.b w.c w.d + w.e + constant t + schedule block t
  b := w.a
  c := rotl 30 w.b
  d := w.c
  e := w.d

def compress (h : Words) (block : List UInt8) : Words :=
  ((List.range 80).foldl (round block) h).add h

def initial : Words := ⟨0x67452301, 0xEFCDAB89, 0x98BADCFE, 0x10325476, 0xC3D2E1F0⟩

/-- The smallest number of zero bytes that leaves eight bytes of the last block. -/
def zeros (length : ℕ) : ℕ := (119 - length % 64) % 64

def lengthBytes (bits : ℕ) : List UInt8 :=
  [56, 48, 40, 32, 24, 16, 8, 0].map fun i => UInt8.ofNat (bits >>> i)

def padding (length : ℕ) : List UInt8 :=
  0x80 :: List.replicate (zeros length) 0 ++ lengthBytes (8 * length)

def pad (message : List UInt8) : List UInt8 := message ++ padding message.length

def digest (message : List UInt8) : Words :=
  foldBlocks 64 compress ((pad message).length / 64) initial (pad message)

/-- The digest as bytes. -/
def Words.bytes (w : Words) : List UInt8 :=
  [w.a, w.b, w.c, w.d, w.e].flatMap fun x => [24, 16, 8, 0].map fun i => (x >>> i).toUInt8

/-! ### Padding -/

theorem length_lengthBytes (bits : ℕ) : (lengthBytes bits).length = 8 := rfl

theorem length_padding (length : ℕ) : (padding length).length = zeros length + 9 := by
  rw [padding, List.length_append, List.length_cons, List.length_replicate, length_lengthBytes]

theorem zeros_eq (length : ℕ) :
    zeros length = if length % 64 < 56 then 55 - length % 64 else 119 - length % 64 := by
  unfold zeros
  split_ifs <;> omega

theorem length_pad (message : List UInt8) :
    (pad message).length =
      (message.length / 64 + if message.length % 64 < 56 then 1 else 2) * 64 := by
  rw [pad, List.length_append, length_padding, zeros_eq]
  split_ifs <;> omega

/-! ### Bits -/

theorem ch_eq_or (x y z : UInt32) : ch x y z = (x &&& y) ||| (~~~x &&& z) := by
  refine UInt32.toBitVec_inj.mp (BitVec.eq_of_getLsbD_eq fun i hi => ?_)
  simp only [ch, UInt32.toBitVec_xor, UInt32.toBitVec_or, UInt32.toBitVec_and, UInt32.toBitVec_not,
    BitVec.getLsbD_xor, BitVec.getLsbD_or, BitVec.getLsbD_and, BitVec.getLsbD_not, hi, decide_true,
    Bool.true_and]
  cases x.toBitVec.getLsbD i <;> simp

theorem maj_eq_or (x y z : UInt32) : maj x y z = (x &&& y) ||| (x &&& z) ||| (y &&& z) := by
  refine UInt32.toBitVec_inj.mp (BitVec.eq_of_getLsbD_eq fun i _ => ?_)
  simp only [maj, UInt32.toBitVec_xor, UInt32.toBitVec_or, UInt32.toBitVec_and,
    BitVec.getLsbD_xor, BitVec.getLsbD_or, BitVec.getLsbD_and]
  cases x.toBitVec.getLsbD i <;> cases y.toBitVec.getLsbD i <;> simp

/-- The next byte of a word. -/
theorem mul_add_byte (w : UInt32) (x : UInt8) :
    w * (256 : UInt32) + x.toUInt32 = (w <<< (8 : UInt32)) ||| x.toUInt32 := by
  have hx : x.toNat < 2 ^ 8 := x.toNat_lt
  have hw := w.toNat_lt
  have hshift : (w <<< (8 : UInt32)).toNat = 2 ^ 8 * (w.toNat % 2 ^ 24) := by
    rw [UInt32.toNat_shiftLeft, show (8 : UInt32).toNat % 32 = 8 from rfl, Nat.shiftLeft_eq]
    omega
  have hmul : (w * (256 : UInt32)).toNat = 2 ^ 8 * (w.toNat % 2 ^ 24) := by
    rw [UInt32.toNat_mul, show (256 : UInt32).toNat = 256 from rfl]
    omega
  apply UInt32.toNat.inj
  rw [UInt32.toNat_or, UInt32.toNat_add, hshift, hmul, UInt8.toNat_toUInt32,
    ← Nat.two_pow_add_eq_or_of_lt hx]
  omega

theorem foldl_bytes (a b c d : UInt8) :
    [a, b, c, d].foldl (fun w x => w * 256 + x.toUInt32) 0 =
      (a.toUInt32 <<< 24) ||| (b.toUInt32 <<< 16) ||| (c.toUInt32 <<< 8) ||| d.toUInt32 := by
  have hshift : ∀ x : UInt32, (x <<< 16) <<< 8 = x <<< 24 ∧ (x <<< 8) <<< 8 = x <<< 16 :=
    fun x => ⟨(UInt32.shiftLeft_add (by decide) (by decide) (by decide)).symm,
      (UInt32.shiftLeft_add (by decide) (by decide) (by decide)).symm⟩
  simp only [List.foldl_cons, List.foldl_nil, mul_add_byte, UInt32.shiftLeft_or, hshift,
    UInt32.zero_shiftLeft, UInt32.zero_or]

theorem take_four {l : List UInt8} {i : ℕ} (h : i + 4 ≤ l.length) :
    (l.drop i).take 4 = [l.getD i 0, l.getD (i + 1) 0, l.getD (i + 2) 0, l.getD (i + 3) 0] := by
  have hcons : ∀ j < l.length, l.drop j = l.getD j 0 :: l.drop (j + 1) := by
    intro j hj
    rw [List.drop_eq_getElem_cons hj, List.getD_eq_getElem _ _ hj]
  rw [hcons i (by omega), hcons (i + 1) (by omega), hcons (i + 2) (by omega),
    hcons (i + 3) (by omega)]
  rfl

theorem word_eq_or {block : List UInt8} {t : ℕ} (h : 4 * t + 4 ≤ block.length) :
    word block t = ((block.getD (4 * t) 0).toUInt32 <<< 24) |||
      ((block.getD (4 * t + 1) 0).toUInt32 <<< 16) |||
        ((block.getD (4 * t + 2) 0).toUInt32 <<< 8) ||| (block.getD (4 * t + 3) 0).toUInt32 := by
  rw [word, take_four h]
  exact foldl_bytes _ _ _ _

end MSylar.Sha1
