import MSylar.Lib.Execution
import MSylar.WebSocket.Stream

/-!
# Frame setters and Frame::make (parser.cc:147-287)

A `Frame` is filled by its setters and encoded by `make`. One length field serves two buffers: the
binary payload has its own, every other payload is in the text buffer. Setters that take their
argument by reference or by move differ in nothing that is modelled. The host is little-endian
(endian.h), and the key of a masked frame is the number drawn in `make`.
-/

namespace MSylar.WebSocket
open MSylar.Execution
variable {alloc : ℕ → Bool}

/-! ### Setters -/

/-- `bswap_16`. -/
def byteSwap (n : UInt16) : UInt16 := (n <<< 8) ||| (n >>> 8)

/-- The two bytes of a `uint16_t` in memory. -/
def memBytes (n : UInt16) : List UInt8 := [n.toUInt8, (n >>> 8).toUInt8]

namespace Frame

def new : Frame := { opcode := 0, payloadLength := 0, payloadText := [], payloadBinary := [] }

def setOpcode (f : Frame) (opcode : UInt8) : Frame := { f with opcode := opcode }

def setTextPayload (f : Frame) (text : List UInt8) : Frame :=
  { f with payloadText := text, payloadLength := text.length }

def setBinaryPayload (f : Frame) (data : List UInt8) : Frame :=
  { f with payloadBinary := data
           payloadLength := if f.opcode = opBinary then data.length else f.payloadLength }

def setClosePayload (f : Frame) (code : UInt16) (reason : List UInt8) : Frame :=
  if f.opcode ≠ opClose then f
  else { f with closeCode := code.toNat, closeReason := reason }.setTextPayload
    (memBytes (byteSwap code) ++ reason)

def setPingPayload (f : Frame) (msg : List UInt8) : Frame := f.setTextPayload msg

def setPongPayload (f : Frame) (msg : List UInt8) : Frame := f.setTextPayload msg

/-! ### make -/

/-- The first two bytes and the extended length (parser.cc:236-262). -/
def header (f : Frame) (mask : Bool) : List UInt8 :=
  let len := f.payloadLength
  let byte1 : UInt8 := if mask then 0x80 else 0
  ((f.opcode &&& 0xF) ||| 0x80) ::
    (if len < 126 then [byte1 ||| UInt8.ofNat len]
    else if len ≤ 0xFFFF then
      [byte1 ||| 126, UInt8.ofNat (len >>> 8 &&& 0xFF), UInt8.ofNat (len &&& 0xFF)]
    else (byte1 ||| 127) ::
      [56, 48, 40, 32, 24, 16, 8, 0].map fun i => UInt8.ofNat (len >>> i &&& 0xFF))

/-- The buffer that the opcode selects (parser.cc:275-283). -/
def payload (f : Frame) : List UInt8 :=
  if f.opcode = opBinary then f.payloadBinary
  else if f.opcode = opClose then f.payloadText
  else f.payloadText

end Frame

/-- The key as it is written (parser.cc:267-270). -/
def keyBytes (maskKey : UInt32) : List UInt8 :=
  [(maskKey >>> 24 &&& 0xFF).toUInt8, (maskKey >>> 16 &&& 0xFF).toUInt8,
    (maskKey >>> 8 &&& 0xFF).toUInt8, (maskKey &&& 0xFF).toUInt8]

/-- `make(false)`, or `make(true)` with the key that it draws. -/
def Frame.make (f : Frame) (maskKey : Option UInt32) : List UInt8 :=
  f.header maskKey.isSome ++ (maskKey.map keyBytes).getD [] ++ f.payload

/-- A call of a setter. -/
inductive Setter where
  | setOpcode (opcode : UInt8)
  | setTextPayload (text : List UInt8)
  | setBinaryPayload (data : List UInt8)
  | setClosePayload (code : UInt16) (reason : List UInt8)
  | setPingPayload (msg : List UInt8)
  | setPongPayload (msg : List UInt8)

def Frame.set (f : Frame) : Setter → Frame
  | .setOpcode opcode => f.setOpcode opcode
  | .setTextPayload text => f.setTextPayload text
  | .setBinaryPayload data => f.setBinaryPayload data
  | .setClosePayload code reason => f.setClosePayload code reason
  | .setPingPayload msg => f.setPingPayload msg
  | .setPongPayload msg => f.setPongPayload msg

/-- The size of the buffer that the call fills. -/
def Setter.size : Setter → ℕ
  | .setOpcode _ => 0
  | .setTextPayload bytes | .setBinaryPayload bytes | .setPingPayload bytes
  | .setPongPayload bytes => bytes.length
  | .setClosePayload _ reason => 2 + reason.length

/-- What a `std::string` or a `std::vector` can hold. -/
structure SetterCall where
  setter : Setter
  short : setter.size < 2^63

/-- A setter never fails. -/
def Frame.call (f : Frame) (c : SetterCall) : Option Frame := some (f.set c.setter)

/-! ### The length in the header -/

def bigEndianValue (bytes : List UInt8) : ℕ := bytes.foldl (fun n c => n * 256 + c.toNat) 0

/-- The payload length that a header declares. -/
def declaredLength : List UInt8 → ℕ
  | _ :: second :: rest =>
    let field := (second &&& 0x7F).toNat
    if field < 126 then field
    else bigEndianValue (rest.take (if field = 126 then 2 else 8))
  | _ => 0

theorem ofNat_and_255 (n : ℕ) : UInt8.ofNat (n &&& 0xFF) = UInt8.ofNat n := by
  have hmod : n &&& 0xFF = n % 256 := Nat.and_two_pow_sub_one_eq_mod n 8
  rw [hmod]
  apply UInt8.toNat.inj
  simp

theorem header_eq (f : Frame) (mask : Bool) :
    f.header mask = [(f.opcode &&& 0xF) ||| 0x80] ++
      ([(if mask then 0x80 else 0) ||| UInt8.ofNat (lengthField f.payloadLength)] ++
        extendedLength f.payloadLength) := by
  have hle : f.payloadLength ≤ 0xFFFF ↔ f.payloadLength < 65536 := by omega
  unfold Frame.header lengthField extendedLength
  simp only [hle, ofNat_and_255, bigEndian, Nat.shiftRight_eq_div_pow, Nat.reducePow]
  split_ifs <;> simp

theorem foldl_bigEndian (w n a : ℕ) :
    (bigEndian w n).foldl (fun n c => n * 256 + c.toNat) a = a * 256 ^ w + n % 256 ^ w := by
  induction w generalizing a with
  | zero => rw [bigEndian, List.foldl_nil, Nat.pow_zero, Nat.mul_one, Nat.mod_one, Nat.add_zero]
  | succ w ih =>
    have hdigit : (UInt8.ofNat (n / 256 ^ w)).toNat = n / 256 ^ w % 256 := by
      simp only [UInt8.toNat_ofNat', Nat.reducePow]
    have hsplit : n % 256 ^ (w + 1) = n % 256 ^ w + 256 ^ w * (n / 256 ^ w % 256) := Nat.mod_pow_succ
    rw [bigEndian, List.foldl_cons, ih, hdigit, hsplit]
    ring

theorem bigEndianValue_take {w n : ℕ} (hn : n < 256 ^ w) (rest : List UInt8) :
    bigEndianValue ((bigEndian w n ++ rest).take w) = n := by
  have htake : (bigEndian w n ++ rest).take w = bigEndian w n :=
    List.take_left' (bigEndian_length w n)
  rw [htake, bigEndianValue, foldl_bigEndian, Nat.zero_mul, Nat.zero_add, Nat.mod_eq_of_lt hn]

theorem declaredLength_make (f : Frame) (maskKey : Option UInt32) (h : f.payloadLength < 2^63) :
    declaredLength (f.make maskKey) = f.payloadLength := by
  obtain ⟨hfield, -⟩ := second_bits _ (lengthField_lt f.payloadLength) maskKey.isSome
  have hmake : f.make maskKey = ((f.opcode &&& 0xF) ||| 0x80) ::
      ((if maskKey.isSome then 0x80 else 0) ||| UInt8.ofNat (lengthField f.payloadLength)) ::
        (extendedLength f.payloadLength ++ ((maskKey.map keyBytes).getD [] ++ f.payload)) := by
    rw [Frame.make, header_eq]
    simp only [List.append_assoc, List.cons_append, List.nil_append]
  rw [hmake, declaredLength]
  simp only [hfield]
  unfold lengthField extendedLength
  by_cases hshort : f.payloadLength < 126
  · simp only [hshort, if_true]
  · by_cases hmid : f.payloadLength < 65536
    · simp only [hshort, hmid, if_false, if_true, Nat.lt_irrefl]
      exact bigEndianValue_take hmid _
    · simp only [hshort, hmid, if_false, Nat.reduceLT, Nat.reduceEqDiff]
      exact bigEndianValue_take (lt_of_lt_of_le h (by decide)) _

/-- Every buffer of the frame, and so its length field, is of a size that the containers have. -/
structure Frame.Short (f : Frame) : Prop where
  length : f.payloadLength < 2^63
  text : f.payloadText.length < 2^63
  binary : f.payloadBinary.length < 2^63

theorem Frame.Short.payload {f : Frame} (h : f.Short) : f.payload.length < 2^63 := by
  unfold Frame.payload
  split_ifs
  · exact h.binary
  · exact h.text
  · exact h.text

theorem Frame.Short.set {f : Frame} (h : f.Short) {c : Setter} (hc : c.size < 2^63) :
    (f.set c).Short := by
  cases c with
  | setOpcode opcode => exact ⟨h.length, h.text, h.binary⟩
  | setTextPayload text => exact ⟨hc, hc, h.binary⟩
  | setPingPayload msg => exact ⟨hc, hc, h.binary⟩
  | setPongPayload msg => exact ⟨hc, hc, h.binary⟩
  | setBinaryPayload data =>
    refine ⟨?_, h.text, hc⟩
    simp only [Frame.set, Frame.setBinaryPayload]
    split_ifs
    · exact hc
    · exact h.length
  | setClosePayload code reason =>
    simp only [Frame.set, Frame.setClosePayload]
    split_ifs
    · exact h
    · have hlen : (memBytes (byteSwap code) ++ reason).length < 2^63 := by
        rw [List.length_append]
        exact hc
      exact ⟨hlen, hlen, h.binary⟩

theorem Frame.new_short : Frame.new.Short := ⟨by decide, by decide, by decide⟩

/-! ### Setters and the length -/

/-- The length field is the size of the payload that `make` appends. -/
def Frame.InStep (f : Frame) : Prop := f.payloadLength = f.payload.length

/-- The calls that keep the length right: no text goes to a binary frame, and the opcode does not go
from binary to another or back, unless the two buffers are of one size. -/
def inStep (f : Frame) (c : SetterCall) : Prop :=
  match c.setter with
  | .setOpcode opcode =>
    (opcode = opBinary ↔ f.opcode = opBinary) ∨ f.payloadText.length = f.payloadBinary.length
  | .setTextPayload text | .setPingPayload text | .setPongPayload text =>
    f.opcode = opBinary → text.length = f.payloadBinary.length
  | .setBinaryPayload _ | .setClosePayload _ _ => True

theorem payload_eq (f : Frame) :
    f.payload = if f.opcode = opBinary then f.payloadBinary else f.payloadText := by
  unfold Frame.payload
  split_ifs <;> rfl

theorem setText_inStep (f : Frame) (text : List UInt8) :
    (f.setTextPayload text).InStep ↔
      (f.opcode = opBinary → text.length = f.payloadBinary.length) := by
  rw [Frame.InStep, payload_eq]
  by_cases h : f.opcode = opBinary
  · simp [Frame.setTextPayload, h]
  · simp [Frame.setTextPayload, h]

theorem set_inStep_iff {f : Frame} (h : f.InStep) (c : SetterCall) :
    (f.set c.setter).InStep ↔ inStep f c := by
  obtain ⟨c, hc⟩ := c
  cases c with
  | setOpcode opcode =>
    rw [Frame.InStep, payload_eq] at h ⊢
    simp only [Frame.set, Frame.setOpcode, inStep, h]
    by_cases hnew : opcode = opBinary <;> by_cases hold : f.opcode = opBinary
    · simp [hnew, hold]
    · simp [hnew, hold]
    · simp [hnew, hold, eq_comm]
    · simp [hnew, hold]
  | setTextPayload text => exact setText_inStep f text
  | setPingPayload msg => exact setText_inStep f msg
  | setPongPayload msg => exact setText_inStep f msg
  | setBinaryPayload data =>
    rw [Frame.InStep, payload_eq] at h ⊢
    simp only [Frame.set, Frame.setBinaryPayload, inStep, iff_true, h]
    split_ifs <;> rfl
  | setClosePayload code reason =>
    simp only [Frame.set, Frame.setClosePayload, inStep, iff_true]
    split_ifs with hclose
    · exact h
    · refine (setText_inStep _ _).mpr fun hbinary => ?_
      rw [show f.opcode = opClose from not_not.mp hclose] at hbinary
      cases hbinary

theorem call_short {f f' : Frame} {c : SetterCall} (h : f.Short) (hs : f.call c = some f') :
    f'.Short := by
  cases hs
  exact h.set c.short

theorem call_total (f : Frame) (cs : List SetterCall) : ∃ g, exec Frame.call f cs = some g := by
  induction cs generalizing f with
  | nil => exact ⟨f, rfl⟩
  | cons c cs ih => exact ih (f.set c.setter)

theorem exec_short {cs : List SetterCall} {f : Frame} (h : exec Frame.call .new cs = some f) :
    f.Short := exec_invariant (fun _ _ _ hf hs => call_short hf hs) Frame.new_short h

/-- The header of `make` declares the length of the payload, after every call of a sequence, exactly
if no call puts the length of the one buffer in force for the other. -/
theorem declared_length_iff (maskKey : Option UInt32) (cs : List SetterCall) :
    (∀ bs, bs <+: cs → ∀ f, exec Frame.call .new bs = some f →
      declaredLength (f.make maskKey) = f.payload.length) ↔ Guarded Frame.call inStep .new cs := by
  obtain ⟨f, hrun⟩ := call_total .new cs
  have hcall : ∀ g c g', g.Short → g.InStep → Frame.call g c = some g' →
      (g'.InStep ↔ inStep g c) := by
    intro g c g' _ hg hs
    cases hs
    exact set_inStep_iff hg c
  rw [← forall_prefix_iff (fun _ _ _ h hs => call_short h hs) hcall Frame.new_short rfl hrun]
  refine forall_congr' fun bs => forall_congr' fun _ => forall_congr' fun g =>
    forall_congr' fun hg => ?_
  rw [declaredLength_make g maskKey (exec_short hg).length, Frame.InStep]

/-- A text that is set on a binary frame. -/
def textOnBinary : List SetterCall :=
  [⟨.setOpcode opBinary, by decide⟩, ⟨.setTextPayload [0x61, 0x62], by decide⟩]

/-- A binary payload that is set before the opcode. -/
def binaryFirst : List SetterCall :=
  [⟨.setBinaryPayload [0x61, 0x62], by decide⟩, ⟨.setOpcode opBinary, by decide⟩]

theorem setters_out_of_step :
    (∃ f, exec Frame.call .new textOnBinary = some f ∧
      declaredLength (f.make none) = 2 ∧ f.payload.length = 0) ∧
    ∃ f, exec Frame.call .new binaryFirst = some f ∧
      declaredLength (f.make none) = 0 ∧ f.payload.length = 2 :=
  ⟨⟨_, rfl, by decide, by decide⟩, _, rfl, by decide, by decide⟩

/-! ### What a FrameBuffer makes of it -/

def keyOf (maskKey : UInt32) : Key := fun i => (keyBytes maskKey).getD i 0

/-- The frame on the wire. `make` writes the key and leaves the payload as it is, so that what the
receiver takes for the payload is combined with the key. -/
def Frame.wire (f : Frame) (maskKey : Option UInt32) (h : f.payload.length < 2^63) : WireFrame where
  first := (f.opcode &&& 0xF) ||| 0x80
  key := maskKey.map keyOf
  payload := match maskKey with
    | none => f.payload
    | some k => maskWith (keyOf k) f.payload
  short := by
    cases maskKey with
    | none => exact h
    | some k =>
      rw [maskWith_length]
      exact h

theorem wire_length (f : Frame) (maskKey : Option UInt32) (h : f.payload.length < 2^63) :
    (f.wire maskKey h).payload.length = f.payload.length := by
  cases maskKey with
  | none => rfl
  | some k => exact maskWith_length _ _

theorem make_eq_encode {f : Frame} (maskKey : Option UInt32) (h : f.payload.length < 2^63)
    (hstep : f.InStep) : f.make maskKey = (f.wire maskKey h).encode := by
  have hsecond : (f.wire maskKey h).second =
      (if maskKey.isSome then 0x80 else 0) ||| UInt8.ofNat (lengthField f.payloadLength) := by
    rw [WireFrame.second, wire_length, hstep]
    cases maskKey <;> rfl
  have hrest : (maskKey.map keyBytes).getD [] ++ f.payload =
      (f.wire maskKey h).keyBytes ++ (f.wire maskKey h).wirePayload := by
    cases maskKey with
    | none => rfl
    | some k =>
      have hpayload : (f.wire (some k) h).wirePayload = f.payload := maskWith_maskWith _ _
      rw [hpayload]
      rfl
  rw [Frame.make, header_eq, WireFrame.encode, hsecond, wire_length, ← hrest, ← hstep]
  simp only [List.append_assoc]
  rfl

theorem opcode_bits : ∀ n < 16, (((UInt8.ofNat n &&& 0xF) ||| 0x80) &&& 0xF) = UInt8.ofNat n := by
  decide

theorem wire_opcode {f : Frame} (maskKey : Option UInt32) (h : f.payload.length < 2^63)
    (hop : f.opcode < 16) : (f.wire maskKey h).opcode = f.opcode := by
  have hbits := opcode_bits f.opcode.toNat (UInt8.lt_iff_toNat_lt.mp hop)
  rwa [UInt8.ofNat_toNat] at hbits

/-! ### One frame of each kind -/

/-- The setters that go with an opcode. -/
def Setter.Matches (opcode : UInt8) : Setter → Prop
  | .setOpcode _ => False
  | .setBinaryPayload _ => opcode = opBinary
  | .setClosePayload _ _ => opcode = opClose
  | .setTextPayload _ | .setPingPayload _ | .setPongPayload _ => opcode ≠ opBinary ∧ opcode ≠ opClose

/-- A four-bit opcode and the call of its setter. -/
structure Message where
  opcode : UInt8
  call : SetterCall
  nibble : opcode < 16
  goes : call.setter.Matches opcode

def Message.frame (m : Message) : Frame := (Frame.new.setOpcode m.opcode).set m.call.setter

theorem byteSwap_toNat (n : UInt16) :
    (byteSwap n).toNat = n.toNat % 256 * 256 + n.toNat / 256 := by
  have hlt := n.toNat_lt
  have hor : (n.toNat % 256) <<< 8 ||| n.toNat / 256 = n.toNat % 256 * 256 + n.toNat / 256 := by
    rw [← Nat.shiftLeft_add_eq_or_of_lt (by omega), Nat.shiftLeft_eq]
  have hleft : n.toNat <<< 8 % 65536 = (n.toNat % 256) <<< 8 := by
    simp only [Nat.shiftLeft_eq]
    omega
  have hright : n.toNat >>> 8 = n.toNat / 256 := Nat.shiftRight_eq_div_pow _ 8
  rw [← hor, ← hleft, ← hright, byteSwap, UInt16.toNat_or, UInt16.toNat_shiftLeft,
    UInt16.toNat_shiftRight]
  rfl

/-- The code in network byte order. -/
theorem memBytes_byteSwap (n : UInt16) :
    memBytes (byteSwap n) = [(n >>> 8).toUInt8, n.toUInt8] := by
  have hlt := n.toNat_lt
  have hlow : (byteSwap n).toUInt8 = (n >>> 8).toUInt8 := by
    apply UInt8.toNat.inj
    simp [byteSwap_toNat, Nat.shiftRight_eq_div_pow]
  have hdiv : (n.toNat % 256 * 256 + n.toNat / 256) / 256 = n.toNat % 256 := by
    rw [Nat.mul_comm, Nat.mul_add_div (by decide), Nat.div_eq_of_lt (by omega), Nat.add_zero]
  have hhigh : (byteSwap n >>> 8).toUInt8 = n.toUInt8 := by
    apply UInt8.toNat.inj
    simp [byteSwap_toNat, Nat.shiftRight_eq_div_pow, hdiv]
  rw [memBytes, hlow, hhigh]

theorem memBytes_value (n : UInt16) :
    ((n >>> 8).toUInt8).toNat * 256 + n.toUInt8.toNat = n.toNat := by
  have hlt := n.toNat_lt
  simp [Nat.shiftRight_eq_div_pow]
  omega

theorem setText_carrying {opcode : UInt8} (text : List UInt8)
    (h : opcode ≠ opBinary ∧ opcode ≠ opClose) :
    (Frame.new.setOpcode opcode).setTextPayload text = .carrying opcode text := by
  simp [Frame.new, Frame.setOpcode, Frame.setTextPayload, Frame.carrying, Frame.ofContext, h]

theorem setClose_carrying (code : UInt16) (reason : List UInt8) :
    (Frame.new.setOpcode opClose).setClosePayload code reason =
      .carrying opClose (memBytes (byteSwap code) ++ reason) := by
  rw [Frame.setClosePayload, memBytes_byteSwap]
  simp only [Frame.new, Frame.setOpcode, Frame.setTextPayload, Frame.carrying, Frame.ofContext,
    ne_eq, not_true_eq_false, if_false]
  rw [← memBytes_value code]
  rfl

/-- The frame is what a `FrameBuffer` makes of its opcode and its payload. -/
theorem Message.frame_eq (m : Message) : ∃ bytes, m.frame = .carrying m.opcode bytes := by
  obtain ⟨opcode, ⟨setter, short⟩, nibble, goes⟩ := m
  cases setter with
  | setOpcode op => cases goes
  | setBinaryPayload data =>
    cases goes
    exact ⟨data, rfl⟩
  | setClosePayload code reason =>
    cases goes
    exact ⟨_, setClose_carrying code reason⟩
  | setTextPayload text => exact ⟨text, setText_carrying text goes⟩
  | setPingPayload text => exact ⟨text, setText_carrying text goes⟩
  | setPongPayload text => exact ⟨text, setText_carrying text goes⟩

theorem carrying_spec (opcode : UInt8) (bytes : List UInt8) :
    (Frame.carrying opcode bytes).opcode = opcode ∧
      (Frame.carrying opcode bytes).payloadLength = bytes.length ∧
      (Frame.carrying opcode bytes).payload = bytes := by
  by_cases hbin : opcode = opBinary
  · subst hbin
    exact ⟨rfl, rfl, rfl⟩
  · simp only [payload_eq, Frame.carrying, hbin, if_false, Frame.ofContext]
    split_ifs <;> exact ⟨rfl, rfl, rfl⟩

theorem Message.spec (m : Message) :
    m.frame.opcode = m.opcode ∧ m.frame.InStep ∧ m.frame = .carrying m.opcode m.frame.payload := by
  obtain ⟨bytes, hm⟩ := m.frame_eq
  obtain ⟨hop, hlen, hpay⟩ := carrying_spec m.opcode bytes
  rw [hm, Frame.InStep, hop, hlen, hpay]
  exact ⟨rfl, rfl, rfl⟩

theorem Message.short (m : Message) : m.frame.payload.length < 2^63 := by
  have hnew : (Frame.new.setOpcode m.opcode).Short :=
    ⟨Frame.new_short.length, Frame.new_short.text, Frame.new_short.binary⟩
  exact (hnew.set m.call.short).payload

def Message.wire (m : Message) : WireFrame := m.frame.wire none m.short

theorem Message.make_eq (m : Message) : m.frame.make none = m.wire.encode :=
  make_eq_encode none m.short m.spec.2.1

theorem Message.wire_frame (m : Message) : m.wire.frame = m.frame := by
  obtain ⟨hop, -, hframe⟩ := m.spec
  have hopcode : m.wire.opcode = m.opcode :=
    (wire_opcode none m.short (by rw [hop]; exact m.nibble)).trans hop
  rw [WireFrame.frame, hopcode, hframe]
  rfl

theorem noStaleKey_plain {fs : List WireFrame} (h : ∀ f ∈ fs, f.key = none) :
    NoStaleKey (fun _ => 0) fs := by
  induction fs with
  | nil => trivial
  | cons f fs ih =>
    refine ⟨fun _ _ _ => rfl, ?_⟩
    rw [h f List.mem_cons_self]
    exact ih fun g hg => h g (List.mem_cons_of_mem _ hg)

/-- Frames of any kinds and lengths come out of a `FrameBuffer` as they were made, however their
encodings are cut. -/
theorem make_round_trip (alloc : ℕ → Bool) (ms : List Message) (chunks : List (List UInt8))
    (hcut : chunks.flatten = ms.flatMap fun m => m.frame.make none)
    (ha : ∀ m ∈ ms, alloc m.frame.payloadLength = true) :
    (consumeAll alloc .new chunks).2.1 = .done ∧
      getFrames (ms.length + 1) (consumeAll alloc .new chunks).1 =
        ms.map (fun m => some m.frame) ++ [none] := by
  have hwire : chunks.flatten = (ms.map Message.wire).flatMap WireFrame.encode := by
    rw [hcut, List.flatMap_map]
    exact List.flatMap_congr fun m _ => m.make_eq
  have halloc : ∀ f ∈ ms.map Message.wire, alloc f.payload.length = true := by
    intro f hf
    obtain ⟨m, hm, rfl⟩ := List.mem_map.mp hf
    rw [Message.wire, wire_length, ← m.spec.2.1]
    exact ha m hm
  have hplain : ∀ f ∈ ms.map Message.wire, f.key = none := by
    intro f hf
    obtain ⟨m, -, rfl⟩ := List.mem_map.mp hf
    rfl
  obtain ⟨fb, hconsume, hframes⟩ := @parse_stream alloc (ms.map Message.wire) .new rfl halloc
  obtain ⟨hbuffer, hexit, -⟩ := @consumeAll_eq_consume alloc .new trivial chunks
  rw [hwire, hconsume] at hbuffer hexit
  have hseen : fb.frames = ms.map Message.frame := by
    have hkeys := (seenFrames_eq_iff (fun _ => 0) _).mpr (noStaleKey_plain hplain)
    rw [List.map_map] at hkeys
    exact hframes.trans (hkeys.trans (List.map_congr_left fun m _ => m.wire_frame))
  refine ⟨hexit, ?_⟩
  have hlen : ms.length = fb.frames.length := by rw [hseen, List.length_map]
  rw [hbuffer, hlen, getFrames_all, hseen, List.map_map]
  rfl

def helloText : Message :=
  ⟨0x1, ⟨.setTextPayload [0x68, 0x69], by decide⟩, by decide, by decide, by decide⟩

def twoBytes : Message := ⟨opBinary, ⟨.setBinaryPayload [0x0, 0xFF], by decide⟩, by decide, rfl⟩

def goingAway : Message := ⟨opClose, ⟨.setClosePayload 1001 [0x62], by decide⟩, by decide, rfl⟩

theorem make_round_trip_bytewise :
    (consumeAll (fun _ => true) .new
        (([helloText, twoBytes, goingAway].flatMap fun m => m.frame.make none).map fun b => [b])).2.1 =
      .done ∧
    getFrames 4 (consumeAll (fun _ => true) .new
        (([helloText, twoBytes, goingAway].flatMap fun m => m.frame.make none).map fun b => [b])).1 =
      [some helloText.frame, some twoBytes.frame, some goingAway.frame, none] :=
  make_round_trip (fun _ => true) [helloText, twoBytes, goingAway] _ (List.flatMap_singleton' _)
    fun _ _ => rfl

/-! ### Masked frames -/

/-- What every frame of a `FrameBuffer` is. -/
def Frame.Formed (f : Frame) : Prop := f.opcode < 16 ∧ f.payload.length = f.payloadLength

structure Formed (fb : FrameBuffer) : Prop where
  frames : ∀ f ∈ fb.frames, f.Formed
  opcode : fb.context.opcode < 16

theorem ofContext_formed {c : Context} (hop : c.opcode < 16)
    (hlen : c.payload.length = c.payloadLength) : (Frame.ofContext c).Formed := by
  have hframe : (Frame.ofContext c).opcode = c.opcode ∧
      (Frame.ofContext c).payloadLength = c.payloadLength ∧
      (Frame.ofContext c).payload = c.payload := by
    rw [payload_eq, Context.payload]
    unfold Frame.ofContext
    split_ifs <;> exact ⟨rfl, rfl, rfl⟩
  obtain ⟨hopcode, hlength, hpayload⟩ := hframe
  rw [Frame.Formed, hopcode, hlength, hpayload]
  exact ⟨hop, hlen⟩

theorem Formed.deliver {fb : FrameBuffer} (h : Formed fb)
    (hlen : fb.context.payload.length = fb.context.payloadLength) : Formed fb.deliver := by
  refine ⟨fun f hf => ?_, h.opcode⟩
  rcases List.mem_append.mp hf with hf | hf
  · exact h.frames f hf
  · rw [List.mem_singleton.mp hf]
    exact ofContext_formed h.opcode hlen

theorem getOpcode_lt (p : Parser) : p.getOpcode < 16 := by
  obtain ⟨n, hn, hlow⟩ := low_bits p.flags
  rw [Parser.getOpcode, hlow, UInt8.lt_iff_toNat_lt, UInt8.toNat_ofNat']
  exact lt_of_le_of_lt (Nat.mod_le _ _) hn

theorem beginBody_formed {fb : FrameBuffer} (h : Formed fb) : Formed (beginBody alloc fb).1 := by
  obtain ⟨hop, hlen, hrec, hpay⟩ := Context.opened_spec fb.parser.getOpcode fb.parser.length
  by_cases ha : alloc fb.parser.length = true
  · have hopened : ∀ state require, Formed (fb.goto state require).openFrame := fun _ _ =>
      ⟨h.frames, hop.symm ▸ getOpcode_lt fb.parser⟩
    by_cases hzero : fb.parser.length = 0
    · rw [beginBody_empty hzero ha]
      refine (hopened _ _).deliver ?_
      exact (congrArg List.length hpay).trans (List.length_replicate.trans hlen.symm)
    · rw [beginBody_body hzero ha]
      exact hopened _ _
  · have hheader : ∀ state require, onFrameHeader alloc (fb.goto state require) =
        ({ fb.goto state require with context :=
          ⟨fb.parser.getOpcode, fb.parser.length, [], [], 0⟩ }, .threw) :=
      fun _ _ => onFrameHeader_of_not_alloc ha
    unfold beginBody
    split_ifs
    · rw [hheader]
      exact ⟨h.frames, getOpcode_lt fb.parser⟩
    · rw [emptyFrame, hheader]
      exact ⟨h.frames, getOpcode_lt fb.parser⟩

theorem afterLength_formed {fb : FrameBuffer} (h : Formed fb) : Formed (afterLength alloc fb).1 := by
  unfold afterLength
  split_ifs
  · exact ⟨h.frames, h.opcode⟩
  · exact beginBody_formed h

theorem readTurn_formed (read : Parser → UInt8 → Parser) (next : FrameBuffer → FrameBuffer × Exit)
    {fb : FrameBuffer} (h : Formed fb) (hpos : 0 < fb.parser.require) (c : UInt8)
    (hnext : ∀ {b : FrameBuffer}, Formed b → Formed (next b).1) :
    Formed (readTurn read next fb [c]).buffer := by
  rw [readTurn_single read next hpos.ne']
  split_ifs
  · exact hnext ⟨h.frames, h.opcode⟩
  · exact ⟨h.frames, h.opcode⟩

theorem turn_formed {fb : FrameBuffer} (h : Formed fb) (hr : Ready fb) (c : UInt8) :
    Formed (turn alloc fb c []).buffer := by
  cases hs : fb.parser.state with
  | start =>
    simp only [turn, hs]
    exact ⟨h.frames, h.opcode⟩
  | head =>
    simp only [turn, hs, headTurn]
    split
    · exact ⟨h.frames, h.opcode⟩
    · exact afterLength_formed ⟨h.frames, h.opcode⟩
  | length =>
    simp only [Ready, hs] at hr
    simp only [turn, hs]
    exact readTurn_formed _ _ h hr.1 c afterLength_formed
  | mask =>
    simp only [Ready, hs] at hr
    simp only [turn, hs]
    exact readTurn_formed _ _ h hr.1 c beginBody_formed
  | body =>
    have hb := hr.inBody hs
    obtain ⟨hop, hlen, hrec, hpay⟩ := fb.context.receive_spec (fb.parser.decode [c])
    have hreceived : Formed (fb.receive [c]) := ⟨h.frames, hop.symm ▸ h.opcode⟩
    simp only [turn, hs]
    rcases Nat.lt_or_ge [c].length fb.parser.require with hlt | hge
    · rw [hb.bodyTurn_partial hlt]
      exact ⟨hreceived.frames, hreceived.opcode⟩
    · have hone : fb.parser.require = 1 := Nat.le_antisymm hge hb.pos
      rw [hb.bodyTurn_last hge, hone, List.take_succ_cons, List.take_zero]
      have hsize : (fb.context.receive (fb.parser.decode [c])).payload.length =
          (fb.context.receive (fb.parser.decode [c])).payloadLength := by
        have hcount := hb.count
        have hfits : fb.context.payloadReceived + (fb.parser.decode [c]).length ≤
            fb.context.payload.length := by
          rw [decode_length, hb.size, List.length_singleton]
          omega
        rw [hpay, hlen, writeAt_length hfits, hb.size]
      have hdelivered := hreceived.deliver hsize
      exact ⟨hdelivered.frames, hdelivered.opcode⟩

theorem consume_single_buffer (fb : FrameBuffer) (c : UInt8) :
    (consume alloc fb [c]).buffer = (turn alloc fb c []).buffer := by
  obtain ⟨fb', exit, extra, ht⟩ : ∃ fb' exit extra, turn alloc fb c [] = ⟨fb', exit, extra⟩ :=
    ⟨_, _, _, rfl⟩
  by_cases hexit : exit = .done
  · subst hexit
    rw [consume_of_turn ht, ht, List.drop_nil]
    rfl
  · rw [consume_of_turn_ne (by rw [ht]; exact hexit)]

theorem consume_formed {fb : FrameBuffer} (h : Formed fb) (hr : Ready fb) (data : List UInt8) :
    Formed (consume alloc fb data).buffer := by
  induction data generalizing fb with
  | nil => exact h
  | cons c rest ih =>
    have hone : Formed (consume alloc fb [c]).buffer := by
      rw [consume_single_buffer]
      exact turn_formed h hr c
    rw [consume_cons hr, Outcome.andThen]
    split
    · rename_i hdone
      refine ih hone ?_
      rcases (@consume_single_settled alloc fb hr c).1 with ⟨-, hready⟩ | ⟨hthrew, -⟩
      · exact hready
      · rw [hthrew] at hdone
        cases hdone
    · exact hone

/-- The bytes that `fb` holds are one frame, with what `f` has. -/
def RoundTrip (f : Frame) (fb : FrameBuffer) : Prop :=
  ∃ g, fb.frames = [g] ∧ g.opcode = f.opcode ∧ g.payloadLength = f.payloadLength ∧
    g.payload = f.payload

/-- A masked frame is read back as it was made only where the key does nothing: `make` writes the
key, and does not apply it. -/
theorem masked_round_trip_iff (alloc : ℕ → Bool) (cs : List SetterCall) (maskKey : UInt32)
    {f : Frame} (hf : exec Frame.call .new cs = some f) (ha : alloc f.payloadLength = true) :
    RoundTrip f (consume alloc .new (f.make (some maskKey))).buffer ↔
      f.opcode < 16 ∧ f.InStep ∧ ∀ i < f.payload.length, keyOf maskKey (Fin.ofNat 4 i) = 0 := by
  have hshort := (exec_short hf).payload
  have hnew : Formed .new := ⟨fun g hg => absurd hg List.not_mem_nil, by decide⟩
  have hready : Ready .new := trivial
  -- what the parser makes of a frame whose length is right
  have hparse : f.opcode < 16 → f.InStep →
      (consume alloc .new (f.make (some maskKey))).buffer.frames =
        [.carrying f.opcode (maskWith (keyOf maskKey) f.payload)] := by
    intro hop hstep
    have halloc : alloc (f.wire (some maskKey) hshort).payload.length = true := by
      rw [wire_length, ← hstep]
      exact ha
    obtain ⟨fb, hconsume, hparsed⟩ :=
      @parse_frame alloc (f.wire (some maskKey) hshort) .new rfl halloc
    rw [make_eq_encode (some maskKey) hshort hstep, hconsume,
      ← wire_opcode (some maskKey) hshort hop]
    exact hparsed.frames
  constructor
  · rintro ⟨g, hg, hop, hlen, hpay⟩
    have hall := (@consume_formed alloc .new hnew hready (f.make (some maskKey))).frames
    have hformed : g.Formed := hall g (by rw [hg]; exact List.mem_singleton_self g)
    have hsmall : f.opcode < 16 := hop ▸ hformed.1
    have hstep : f.InStep := by
      rw [Frame.InStep, ← hlen, ← hpay]
      exact hformed.2.symm
    rw [hparse hsmall hstep, List.cons.injEq] at hg
    have hmasked : g.payload = maskWith (keyOf maskKey) f.payload := by
      rw [← hg.1]
      exact (carrying_spec _ _).2.2
    exact ⟨hsmall, hstep, (maskWith_eq_self _ _).mp (hmasked.symm.trans hpay)⟩
  · rintro ⟨hop, hstep, hzero⟩
    have hself := (maskWith_eq_self (keyOf maskKey) f.payload).mpr hzero
    refine ⟨_, hparse hop hstep, ?_⟩
    rw [hself]
    obtain ⟨hopcode, hlength, hpayload⟩ := carrying_spec f.opcode f.payload
    exact ⟨hopcode, hlength.trans hstep.symm, hpayload⟩

/-- An empty payload, whatever the key. -/
theorem empty_masked_round_trip :
    exec Frame.call .new [⟨.setOpcode 0x9, by decide⟩, ⟨.setPingPayload [], by decide⟩] =
      some (Frame.new.setOpcode 0x9) ∧
    RoundTrip (Frame.new.setOpcode 0x9)
      (consume (fun _ => true) .new ((Frame.new.setOpcode 0x9).make (some 0x01020304))).buffer := by
  refine ⟨rfl, ?_⟩
  refine (masked_round_trip_iff (fun _ => true)
    [⟨.setOpcode 0x9, by decide⟩, ⟨.setPingPayload [], by decide⟩] 0x01020304 rfl rfl).mpr ?_
  exact ⟨by decide, rfl, fun i hi => absurd hi (Nat.not_lt_zero i)⟩

/-- `Hello` is read back as other bytes. -/
theorem masked_text_garbled :
    (consume (fun _ => true) .new (((Frame.new.setOpcode 0x1).setTextPayload
      [0x48, 0x65, 0x6C, 0x6C, 0x6F]).make (some 0x01020304))).buffer.frames =
        [.carrying 0x1 [0x49, 0x67, 0x6F, 0x68, 0x6E]] ∧
    ¬ RoundTrip ((Frame.new.setOpcode 0x1).setTextPayload [0x48, 0x65, 0x6C, 0x6C, 0x6F])
      (consume (fun _ => true) .new (((Frame.new.setOpcode 0x1).setTextPayload
        [0x48, 0x65, 0x6C, 0x6C, 0x6F]).make (some 0x01020304))).buffer := by
  have hframes : (consume (fun _ => true) .new (((Frame.new.setOpcode 0x1).setTextPayload
      [0x48, 0x65, 0x6C, 0x6C, 0x6F]).make (some 0x01020304))).buffer.frames =
        [.carrying 0x1 [0x49, 0x67, 0x6F, 0x68, 0x6E]] := by
    decide
  refine ⟨hframes, ?_⟩
  rintro ⟨g, hg, -, -, hpay⟩
  rw [hframes, List.cons.injEq] at hg
  rw [← hg.1] at hpay
  exact absurd hpay (by decide)

end MSylar.WebSocket
