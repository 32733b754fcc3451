import Mathlib.Algebra.GroupWithZero.Nat
import Mathlib.Data.List.Basic
import Mathlib.Data.List.GetD

/-!
# Base64 (base64.cpp:34-123)

`base64_encode` collects three bytes at a time and `base64_decode` four characters. The arrays
`char_array_3` and `char_array_4` are lists of the entries that are set. The index of the next character
is an `int` in `base64_decode`, which overflows behind `2^31 - 1` characters.
-/

namespace MSylar.WebSocket

def base64Chars : List Char :=
  "ABCDEFGHIJKLMNOPQRSTUVWXYZabcdefghijklmnopqrstuvwxyz0123456789+/".toList

def isBase64 (c : Char) : Bool := c.isAlphanum || c = '+' || c = '/'

/-- The four entries of `char_array_4`. -/
def sextets (a b c : UInt8) : List UInt8 :=
  [(a &&& 0xfc) >>> 2, ((a &&& 0x03) <<< 4) + ((b &&& 0xf0) >>> 4),
    ((b &&& 0x0f) <<< 2) + ((c &&& 0xc0) >>> 6), c &&& 0x3f]

def base64Char (x : UInt8) : Char := base64Chars.getD x.toNat '='

def encodeLoop : List UInt8 → List Char → List UInt8 → List UInt8 × List Char
  | array, ret, [] => (array, ret)
  | array, ret, x :: bytes =>
    if (array ++ [x]).length = 3 then
      encodeLoop [] (ret ++ (sextets (array.getD 0 0) (array.getD 1 0) x).map base64Char) bytes
    else encodeLoop (array ++ [x]) ret bytes

/-- The end of `base64_encode`, after its loop. -/
def encodeEnd (array : List UInt8) (ret : List Char) : List Char :=
  if array = [] then ret
  else
    ret ++ ((sextets (array.getD 0 0) (array.getD 1 0) (array.getD 2 0)).take
      (array.length + 1)).map base64Char ++ List.replicate (3 - array.length) '='

def base64Encode (bytes : List UInt8) : List Char :=
  let (array, ret) := encodeLoop [] [] bytes
  encodeEnd array ret

/-- `base64_chars.find(c)`, where `npos` is cut to a byte. -/
def base64Find (c : Char) : UInt8 :=
  if c ∈ base64Chars then UInt8.ofNat (base64Chars.idxOf c) else 255

/-- The three entries of `char_array_3`. -/
def octets (a b c d : UInt8) : List UInt8 :=
  [(a <<< 2) + ((b &&& 0x30) >>> 4), ((b &&& 0xf) <<< 4) + ((c &&& 0x3c) >>> 2),
    ((c &&& 0x3) <<< 6) + d]

/-- The loop of `base64_decode`; `none` is the overflow of `in_`. -/
def decodeLoop : ℕ → List Char → List UInt8 → List Char → Option (List Char × List UInt8)
  | _, array, ret, [] => some (array, ret)
  | pos, array, ret, c :: s =>
    if c = '=' ∨ isBase64 c = false then some (array, ret)
    else if pos + 1 = 2^31 then none
    else if (array ++ [c]).length = 4 then
      decodeLoop (pos + 1) [] (ret ++ octets (base64Find (array.getD 0 '\x00'))
        (base64Find (array.getD 1 '\x00')) (base64Find (array.getD 2 '\x00')) (base64Find c)) s
    else decodeLoop (pos + 1) (array ++ [c]) ret s

/-- The end of `base64_decode`: the entries that are not set are looked up too. -/
def decodeEnd (array : List Char) (ret : List UInt8) : List UInt8 :=
  if array = [] then ret
  else
    ret ++ (octets (base64Find (array.getD 0 '\x00')) (base64Find (array.getD 1 '\x00'))
      (base64Find (array.getD 2 '\x00')) (base64Find (array.getD 3 '\x00'))).take (array.length - 1)

def base64Decode (s : List Char) : Option (List UInt8) :=
  (decodeLoop 0 [] [] s).map fun res => decodeEnd res.1 res.2

/-! ### What base64 is -/

/-- Digit `i` of 24 bits, in base 64. -/
def sextet (n i : ℕ) : Char := base64Chars.getD (n / 64 ^ (3 - i) % 64) '='

/-- Three bytes are four characters; the last group is filled up. -/
def base64 : List UInt8 → List Char
  | [] => []
  | [a] =>
    let n := a.toNat * 65536
    [sextet n 0, sextet n 1, '=', '=']
  | [a, b] =>
    let n := a.toNat * 65536 + b.toNat * 256
    [sextet n 0, sextet n 1, sextet n 2, '=']
  | a :: b :: c :: rest =>
    let n := a.toNat * 65536 + b.toNat * 256 + c.toNat
    [sextet n 0, sextet n 1, sextet n 2, sextet n 3] ++ base64 rest

/-! ### Bits of a byte -/

theorem forall_byte {p : UInt8 → Prop} (h : ∀ n < 256, p (UInt8.ofNat n)) (x : UInt8) : p x := by
  have hx := h x.toNat x.toNat_lt
  rwa [UInt8.ofNat_toNat] at hx

/-- The parts of a byte that `base64_encode` takes. -/
theorem parts_encode (x : UInt8) :
    ((x &&& 0xfc) >>> 2).toNat = x.toNat / 4 ∧ ((x &&& 0x03) <<< 4).toNat = x.toNat % 4 * 16 ∧
      ((x &&& 0xf0) >>> 4).toNat = x.toNat / 16 ∧ ((x &&& 0x0f) <<< 2).toNat = x.toNat % 16 * 4 ∧
      ((x &&& 0xc0) >>> 6).toNat = x.toNat / 64 ∧ (x &&& 0x3f).toNat = x.toNat % 64 := by
  revert x
  refine forall_byte ?_
  decide +kernel

/-- The parts of a byte that `base64_decode` takes. -/
theorem parts_decode (x : UInt8) :
    (x <<< 2).toNat = x.toNat * 4 % 256 ∧ ((x &&& 0x30) >>> 4).toNat = x.toNat / 16 % 4 ∧
      ((x &&& 0xf) <<< 4).toNat = x.toNat % 16 * 16 ∧ ((x &&& 0x3c) >>> 2).toNat = x.toNat / 4 % 16 ∧
      ((x &&& 0x3) <<< 6).toNat = x.toNat % 4 * 64 := by
  revert x
  refine forall_byte ?_
  decide +kernel

theorem sextets_toNat (a b c : UInt8) : (sextets a b c).map UInt8.toNat =
    [a.toNat / 4, a.toNat % 4 * 16 + b.toNat / 16, b.toNat % 16 * 4 + c.toNat / 64,
      c.toNat % 64] := by
  have hb := b.toNat_lt
  have hc := c.toNat_lt
  obtain ⟨ha0, ha1, _, _, _, _⟩ := parts_encode a
  obtain ⟨_, _, hb1, hb2, _, _⟩ := parts_encode b
  obtain ⟨_, _, _, _, hc2, hc3⟩ := parts_encode c
  have h1 : (a.toNat % 4 * 16 + b.toNat / 16) % 2 ^ 8 = a.toNat % 4 * 16 + b.toNat / 16 := by omega
  have h2 : (b.toNat % 16 * 4 + c.toNat / 64) % 2 ^ 8 = b.toNat % 16 * 4 + c.toNat / 64 := by omega
  simp only [sextets, List.map_cons, List.map_nil, UInt8.toNat_add, ha0, ha1, hb1, hb2, hc2, hc3,
    h1, h2]

/-- The characters are the digits of the 24 bits. -/
theorem sextets_digits (a b c : UInt8) : (sextets a b c).map base64Char =
    [0, 1, 2, 3].map (sextet (a.toNat * 65536 + b.toNat * 256 + c.toNat)) := by
  have ha := a.toNat_lt
  have hb := b.toNat_lt
  have hc := c.toNat_lt
  have hchars : (sextets a b c).map base64Char =
      ((sextets a b c).map UInt8.toNat).map fun n => base64Chars.getD n '=' := by
    rw [List.map_map]
    exact List.map_congr_left fun _ _ => rfl
  generalize hn : a.toNat * 65536 + b.toNat * 256 + c.toNat = n
  have h0 : a.toNat / 4 = n / 262144 % 64 := by omega
  have h1 : a.toNat % 4 * 16 + b.toNat / 16 = n / 4096 % 64 := by omega
  have h2 : b.toNat % 16 * 4 + c.toNat / 64 = n / 64 % 64 := by omega
  have h3 : c.toNat % 64 = n / 1 % 64 := by omega
  rw [hchars, sextets_toNat, h0, h1, h2, h3]
  simp only [List.map_cons, List.map_nil, sextet, Nat.reduceSub, Nat.reducePow]

/-- Four characters give back three bytes. -/
theorem octets_sextets {a b c : UInt8} {w x y z : UInt8} (h : [w, x, y, z] = sextets a b c) :
    octets w x y z = [a, b, c] := by
  have ha := a.toNat_lt
  have hb := b.toNat_lt
  have hc := c.toNat_lt
  have hdigits := sextets_toNat a b c
  rw [← h] at hdigits
  simp only [List.map_cons, List.map_nil, List.cons.injEq, and_true] at hdigits
  obtain ⟨hw, hx, hy, hz⟩ := hdigits
  obtain ⟨hw0, _, _, _, _⟩ := parts_decode w
  obtain ⟨_, hx0, hx1, _, _⟩ := parts_decode x
  obtain ⟨_, _, _, hy1, hy2⟩ := parts_decode y
  have h0 : (w <<< 2) + ((x &&& 0x30) >>> 4) = a := by
    apply UInt8.toNat.inj
    rw [UInt8.toNat_add, hw0, hx0]
    omega
  have h1 : ((x &&& 0xf) <<< 4) + ((y &&& 0x3c) >>> 2) = b := by
    apply UInt8.toNat.inj
    rw [UInt8.toNat_add, hx1, hy1]
    omega
  have h2 : ((y &&& 0x3) <<< 6) + z = c := by
    apply UInt8.toNat.inj
    rw [UInt8.toNat_add, hy2]
    omega
  rw [octets, h0, h1, h2]

/-! ### Characters -/

theorem char_spec : ∀ n < 64, let c := base64Chars.getD n '='
    c ≠ '=' ∧ isBase64 c = true ∧ base64Find c = UInt8.ofNat n := by
  decide +kernel

theorem base64Char_spec {x : UInt8} (hx : x.toNat < 64) :
    ¬ (base64Char x = '=' ∨ isBase64 (base64Char x) = false) ∧ base64Find (base64Char x) = x := by
  obtain ⟨hne, hbase, hfind⟩ := char_spec x.toNat hx
  rw [UInt8.ofNat_toNat] at hfind
  refine ⟨?_, hfind⟩
  rintro (heq | hnot)
  · exact hne heq
  · rw [show isBase64 (base64Char x) = true from hbase] at hnot
    cases hnot

theorem sextets_lt (a b c : UInt8) : ∀ x ∈ sextets a b c, x.toNat < 64 := by
  have ha := a.toNat_lt
  have hb := b.toNat_lt
  have hc := c.toNat_lt
  intro x hx
  have hmem := List.mem_map_of_mem (f := UInt8.toNat) hx
  rw [sextets_toNat] at hmem
  simp only [List.mem_cons, List.not_mem_nil, or_false] at hmem
  rcases hmem with h | h | h | h <;> omega

/-! ### Encoding -/

/-- The three kinds of groups. -/
theorem base64_group (a b c : UInt8) (rest : List UInt8) :
    base64 (a :: b :: c :: rest) = (sextets a b c).map base64Char ++ base64 rest := by
  rw [sextets_digits]
  simp only [base64, List.map_cons, List.map_nil]

theorem base64_two (a b : UInt8) :
    base64 [a, b] = ((sextets a b 0).take 3).map base64Char ++ ['='] := by
  rw [List.map_take, sextets_digits]
  simp only [base64, List.map_cons, List.take_succ_cons, List.take_zero, List.cons_append,
    List.nil_append, UInt8.toNat_zero, Nat.add_zero]

theorem base64_one (a : UInt8) :
    base64 [a] = ((sextets a 0 0).take 2).map base64Char ++ ['=', '='] := by
  rw [List.map_take, sextets_digits]
  simp only [base64, List.map_cons, List.take_succ_cons, List.take_zero, List.cons_append,
    List.nil_append, UInt8.toNat_zero, Nat.zero_mul, Nat.add_zero]

theorem encodeLoop_base64 (bytes : List UInt8) (ret : List Char) :
    encodeEnd (encodeLoop [] ret bytes).1 (encodeLoop [] ret bytes).2 = ret ++ base64 bytes := by
  induction bytes using base64.induct generalizing ret with
  | case1 => exact (List.append_nil ret).symm
  | case2 a =>
    have hend : encodeEnd (encodeLoop [] ret [a]).1 (encodeLoop [] ret [a]).2 =
      ret ++ ((sextets a 0 0).take 2).map base64Char ++ ['=', '='] := rfl
    rw [hend, base64_one, List.append_assoc]
  | case3 a b =>
    have hend : encodeEnd (encodeLoop [] ret [a, b]).1 (encodeLoop [] ret [a, b]).2 =
      ret ++ ((sextets a b 0).take 3).map base64Char ++ ['='] := rfl
    rw [hend, base64_two, List.append_assoc]
  | case4 a b c rest ih =>
    have hgroup : encodeLoop [] ret (a :: b :: c :: rest) =
      encodeLoop [] (ret ++ (sextets a b c).map base64Char) rest := rfl
    rw [hgroup, ih, base64_group, List.append_assoc]

theorem base64Encode_eq (bytes : List UInt8) : base64Encode bytes = base64 bytes :=
  encodeLoop_base64 bytes []

/-! ### Decoding -/

/-- `decodeLoop` without the index. -/
def gather : List Char → List UInt8 → List Char → List Char × List UInt8
  | array, ret, [] => (array, ret)
  | array, ret, c :: s =>
    if c = '=' ∨ isBase64 c = false then (array, ret)
    else if (array ++ [c]).length = 4 then
      gather [] (ret ++ octets (base64Find (array.getD 0 '\x00'))
        (base64Find (array.getD 1 '\x00')) (base64Find (array.getD 2 '\x00')) (base64Find c)) s
    else gather (array ++ [c]) ret s

/-- The number of characters in front of the padding. -/
def digits (s : List Char) : ℕ := (s.takeWhile fun c => ¬ (c = '=' ∨ isBase64 c = false)).length

theorem digits_cons {c : Char} (hc : ¬ (c = '=' ∨ isBase64 c = false)) (s : List Char) :
    digits (c :: s) = digits s + 1 := by
  rw [digits, List.takeWhile_cons, if_pos (decide_eq_true hc), List.length_cons]
  rfl

theorem digits_stop {c : Char} (hc : c = '=' ∨ isBase64 c = false) (s : List Char) :
    digits (c :: s) = 0 := by
  have hstop : ¬ decide (¬ (c = '=' ∨ isBase64 c = false)) = true := by
    rw [decide_eq_true_eq]
    exact not_not_intro hc
  rw [digits, List.takeWhile_cons, if_neg hstop, List.length_nil]

/-- The index overflows where there are too many characters. -/
theorem decodeLoop_eq (pos : ℕ) (hpos : pos < 2^31) (array : List Char) (ret : List UInt8)
    (s : List Char) :
    decodeLoop pos array ret s = if pos + digits s < 2^31 then some (gather array ret s) else none := by
  induction s generalizing pos array ret with
  | nil => exact (if_pos hpos).symm
  | cons c s ih =>
    rw [decodeLoop, gather]
    by_cases hc : c = '=' ∨ isBase64 c = false
    · rw [if_pos hc, if_pos hc, digits_stop hc, Nat.add_zero, if_pos hpos]
    · rw [if_neg hc, if_neg hc, digits_cons hc]
      by_cases hlast : pos + 1 = 2^31
      · rw [if_pos hlast, if_neg (by omega)]
      · rw [if_neg hlast, ih (pos + 1) (by omega), ih (pos + 1) (by omega), ← Nat.add_assoc,
          Nat.add_right_comm pos 1]
        split_ifs <;> rfl

theorem gather_char {x : UInt8} (hx : x.toNat < 64) (array : List Char) (ret : List UInt8)
    (s : List Char) (hpart : array.length < 3) :
    gather array ret (base64Char x :: s) = gather (array ++ [base64Char x]) ret s := by
  rw [gather, if_neg (base64Char_spec hx).1, if_neg]
  rw [List.length_append, List.length_singleton]
  omega

/-- The first characters of a group are put into the array. -/
theorem gather_array {xs : List UInt8} (hxs : ∀ x ∈ xs, x.toNat < 64) {array : List Char}
    (hpart : array.length + xs.length ≤ 3) (ret : List UInt8) (s : List Char) :
    gather array ret (xs.map base64Char ++ s) =
      gather (array ++ xs.map base64Char) ret s := by
  induction xs generalizing array with
  | nil => rw [List.map_nil, List.append_nil, List.nil_append]
  | cons x xs ih =>
    rw [List.length_cons] at hpart
    have hlength : (array ++ [base64Char x]).length = array.length + 1 := List.length_append
    rw [List.map_cons, List.cons_append, gather_char (hxs x List.mem_cons_self) _ _ _ (by omega),
      ih (fun y hy => hxs y (List.mem_cons_of_mem x hy)) (by omega), List.append_assoc,
      List.singleton_append]

theorem gather_group (a b c : UInt8) (ret : List UInt8) (s : List Char) :
    gather [] ret ((sextets a b c).map base64Char ++ s) =
      gather [] (ret ++ [a, b, c]) s := by
  have hlt := sextets_lt a b c
  obtain ⟨w, x, y, z, hs⟩ : ∃ w x y z, sextets a b c = [w, x, y, z] := ⟨_, _, _, _, rfl⟩
  rw [hs] at hlt ⊢
  simp only [List.forall_mem_cons] at hlt
  obtain ⟨hw, hx, hy, hz, _⟩ := hlt
  have hgroup : ∀ x' ∈ [w, x, y], x'.toNat < 64 := by
    simp only [List.forall_mem_cons]
    exact ⟨hw, hx, hy, fun _ h => by cases h⟩
  have hthree : gather [] ret ([w, x, y].map base64Char ++ base64Char z :: s) =
      gather ([] ++ [w, x, y].map base64Char) ret (base64Char z :: s) :=
    @gather_array [w, x, y] hgroup [] (Nat.le_refl 3) ret (base64Char z :: s)
  have hsplit : [w, x, y, z].map base64Char ++ s = [w, x, y].map base64Char ++ base64Char z :: s :=
    rfl
  have hlast : gather ([] ++ [w, x, y].map base64Char) ret (base64Char z :: s) =
      gather [] (ret ++ octets (base64Find (base64Char w)) (base64Find (base64Char x))
        (base64Find (base64Char y)) (base64Find (base64Char z))) s := by
    rw [gather, if_neg (base64Char_spec hz).1, if_pos (by rfl)]
    rfl
  rw [hsplit, hthree, hlast, (base64Char_spec hw).2, (base64Char_spec hx).2,
    (base64Char_spec hy).2, (base64Char_spec hz).2, octets_sextets hs.symm]

/-- A group that is filled up: its first `n + 1` characters give back `n` bytes. -/
theorem decode_last {a b c : UInt8} {n : ℕ} (hn : n = 1 ∨ n = 2) (ret : List UInt8)
    (fill : List Char) :
    let res := gather [] ret (((sextets a b c).take (n + 1)).map base64Char ++ '=' :: fill)
    decodeEnd res.1 res.2 = ret ++ [a, b, c].take n := by
  have hlt := sextets_lt a b c
  have hmem : ∀ x ∈ (sextets a b c).take (n + 1), x.toNat < 64 :=
    fun x hx => hlt x (List.mem_of_mem_take hx)
  obtain ⟨w, x, y, z, hs⟩ : ∃ w x y z, sextets a b c = [w, x, y, z] := ⟨_, _, _, _, rfl⟩
  have hoctets := octets_sextets hs.symm
  rw [hs] at hlt hmem ⊢
  simp only [List.forall_mem_cons] at hlt
  obtain ⟨hw, hx, hy, _⟩ := hlt
  have hlength : ([] : List Char).length + ([w, x, y, z].take (n + 1)).length ≤ 3 := by
    rcases hn with rfl | rfl <;> simp
  dsimp only
  rw [gather_array hmem hlength, gather, if_pos (.inl rfl), ← hoctets]
  rcases hn with rfl | rfl
  · have hend : decodeEnd [base64Char w, base64Char x] ret =
        ret ++ (octets (base64Find (base64Char w)) (base64Find (base64Char x))
          (base64Find '\x00') (base64Find '\x00')).take 1 := rfl
    rw [(base64Char_spec hw).2, (base64Char_spec hx).2] at hend
    exact hend
  · have hend : decodeEnd [base64Char w, base64Char x, base64Char y] ret =
        ret ++ (octets (base64Find (base64Char w)) (base64Find (base64Char x))
          (base64Find (base64Char y)) (base64Find '\x00')).take 2 := rfl
    rw [(base64Char_spec hw).2, (base64Char_spec hx).2, (base64Char_spec hy).2] at hend
    exact hend

theorem gather_base64 (bytes : List UInt8) (ret : List UInt8) :
    decodeEnd (gather [] ret (base64 bytes)).1 (gather [] ret (base64 bytes)).2 =
      ret ++ bytes := by
  induction bytes using base64.induct generalizing ret with
  | case1 => exact (List.append_nil ret).symm
  | case2 a =>
    rw [base64_one]
    exact decode_last (.inl rfl) ret ['=']
  | case3 a b =>
    rw [base64_two]
    exact decode_last (.inr rfl) ret []
  | case4 a b c rest ih =>
    rw [base64_group, gather_group, ih, List.append_assoc]
    rfl

theorem digits_chars {xs : List UInt8} (hxs : ∀ x ∈ xs, x.toNat < 64) (s : List Char) :
    digits (xs.map base64Char ++ s) = xs.length + digits s := by
  induction xs with
  | nil => rw [List.map_nil, List.nil_append, List.length_nil, Nat.zero_add]
  | cons x xs ih =>
    rw [List.map_cons, List.cons_append, digits_cons (base64Char_spec (hxs x List.mem_cons_self)).1,
      ih fun y hy => hxs y (List.mem_cons_of_mem x hy), List.length_cons]
    omega

/-- Three bytes are four digits, a rest of one or two bytes is one digit more than bytes. -/
theorem digits_base64 (bytes : List UInt8) :
    digits (base64 bytes) =
      bytes.length / 3 * 4 + if bytes.length % 3 = 0 then 0 else bytes.length % 3 + 1 := by
  induction bytes using base64.induct with
  | case1 => rfl
  | case2 a =>
    rw [base64_one, digits_chars fun x hx => sextets_lt a 0 0 x (List.mem_of_mem_take hx),
      digits_stop (.inl rfl)]
    simp [sextets]
  | case3 a b =>
    rw [base64_two, digits_chars fun x hx => sextets_lt a b 0 x (List.mem_of_mem_take hx),
      digits_stop (.inl rfl)]
    simp [sextets]
  | case4 a b c rest ih =>
    have hlength : (a :: b :: c :: rest).length = rest.length + 3 := rfl
    have hfour : (sextets a b c).length = 4 := rfl
    rw [base64_group, digits_chars (sextets_lt a b c), ih, hlength, hfour, Nat.add_mod_right]
    omega

/-- `base64_encode` is base64, and `base64_decode` gives the bytes back exactly if they are fewer than
three quarters of `2^31`: the index of the next character overflows otherwise. -/
theorem base64_round_trip (bytes : List UInt8) :
    base64Encode bytes = base64 bytes ∧
      (base64Decode (base64Encode bytes) = some bytes ↔ bytes.length < 1610612736) := by
  have hcollected := gather_base64 bytes []
  rw [List.nil_append] at hcollected
  have hdigits : 0 + digits (base64 bytes) < 2^31 ↔ bytes.length < 1610612736 := by
    rw [digits_base64]
    split_ifs <;> omega
  refine ⟨base64Encode_eq bytes, ?_⟩
  rw [base64Encode_eq, base64Decode, decodeLoop_eq 0 (by decide), ← hdigits]
  split_ifs with hfew
  · rw [Option.map_some, hcollected]
    exact iff_of_true rfl hfew
  · exact iff_of_false (fun hnone => by cases hnone) hfew

end MSylar.WebSocket
