import Mathlib.Data.Fintype.Basic
import Mathlib.Tactic.FinCases
import Mathlib.Tactic.IntervalCases
import Mathlib.Tactic.Ring
import MSylar.WebSocket.Chunks

/-!
# Streams of frames

Well-formed frames, concatenated and fed to one `FrameBuffer`. `on_frame_body` applies
the mask of the parser to every body, and only a masked frame sets it: an unmasked frame
is decoded with the key of the last masked frame before it (`WireFrame.seen`).
-/

namespace MSylar.WebSocket

variable {alloc : ℕ → Bool}

abbrev Key := Fin 4 → UInt8

/-- `first` holds the FIN bit, the reserved bits and the opcode. -/
structure WireFrame where
  first : UInt8
  key : Option Key
  payload : List UInt8
  short : payload.length < 2^63

def maskWith (key : Key) (bytes : List UInt8) : List UInt8 :=
  bytes.mapIdx fun i b => b ^^^ key (Fin.ofNat 4 i)

def bigEndian : ℕ → ℕ → List UInt8
  | 0, _ => []
  | w + 1, n => UInt8.ofNat (n / 256 ^ w) :: bigEndian w n

def lengthField (n : ℕ) : ℕ := if n < 126 then n else if n < 65536 then 126 else 127

def extendedLength (n : ℕ) : List UInt8 :=
  if n < 126 then [] else if n < 65536 then bigEndian 2 n else bigEndian 8 n

namespace WireFrame

def opcode (f : WireFrame) : UInt8 := f.first &&& 0xF

def keyBytes (f : WireFrame) : List UInt8 :=
  match f.key with
  | some k => [k 0, k 1, k 2, k 3]
  | none => []

def wirePayload (f : WireFrame) : List UInt8 :=
  match f.key with
  | some k => maskWith k f.payload
  | none => f.payload

def second (f : WireFrame) : UInt8 :=
  (if f.key.isSome then 0x80 else 0) ||| UInt8.ofNat (lengthField f.payload.length)

def encode (f : WireFrame) : List UInt8 :=
  [f.first] ++ ([f.second] ++
    (extendedLength f.payload.length ++ (f.keyBytes ++ f.wirePayload)))

end WireFrame

/-- The frame that `getFrame` should give for an opcode and a payload. -/
def Frame.carrying (opcode : UInt8) (payload : List UInt8) : Frame :=
  if opcode = opBinary then .ofContext ⟨opcode, payload.length, [], payload, payload.length⟩
  else .ofContext ⟨opcode, payload.length, payload, [], payload.length⟩

def WireFrame.frame (f : WireFrame) : Frame := .carrying f.opcode f.payload

/-! ### Masks -/

theorem maskWith_length (key : Key) (bytes : List UInt8) :
    (maskWith key bytes).length = bytes.length := List.length_mapIdx

theorem maskWith_maskWith (key : Key) (bytes : List UInt8) :
    maskWith key (maskWith key bytes) = bytes := by
  unfold maskWith
  rw [List.mapIdx_mapIdx, List.mapIdx_eq_iff]
  intro i
  cases bytes[i]? with
  | none => rfl
  | some b => simp only [Option.map_some, Function.comp, UInt8.xor_assoc, UInt8.xor_self, UInt8.xor_zero]

theorem xor_eq_self (b k : UInt8) : b ^^^ k = b ↔ k = 0 := by
  constructor
  · intro h
    rw [← @UInt8.zero_xor k, ← @UInt8.xor_self b, UInt8.xor_assoc, h]
  · rintro rfl
    exact UInt8.xor_zero

theorem maskWith_eq_self (key : Key) (bytes : List UInt8) :
    maskWith key bytes = bytes ↔ ∀ i < bytes.length, key (Fin.ofNat 4 i) = 0 := by
  unfold maskWith
  rw [List.mapIdx_eq_iff]
  constructor
  · intro h i hi
    have hb := h i
    rw [List.getElem?_eq_getElem hi, Option.map_some, Option.some.injEq] at hb
    exact (xor_eq_self _ _).mp hb.symm
  · intro h i
    rcases Nat.lt_or_ge i bytes.length with hi | hi
    · rw [List.getElem?_eq_getElem hi, Option.map_some, h i hi, UInt8.xor_zero]
    · rw [List.getElem?_eq_none hi, Option.map_none]

/-! ### Lengths -/

theorem shiftIn_eq (length : ℕ) (c : UInt8) :
    shiftIn length c = (length * 256 + c.toNat) % 2^64 := by
  have hc := c.toNat_lt
  unfold shiftIn
  omega

theorem bigEndian_length (w n : ℕ) : (bigEndian w n).length = w := by
  induction w with
  | zero => rfl
  | succ w ih => rw [bigEndian, List.length_cons, ih]

theorem foldl_readLength_bigEndian (w n : ℕ) (p : Parser) (hl : p.length < 2^64) :
    ((bigEndian w n).foldl readLength p).length = (p.length * 256 ^ w + n % 256 ^ w) % 2^64 := by
  induction w generalizing p with
  | zero =>
    rw [bigEndian, List.foldl_nil, Nat.pow_zero, Nat.mul_one, Nat.mod_one, Nat.add_zero,
      Nat.mod_eq_of_lt hl]
  | succ w ih =>
    have hlt : (readLength p (UInt8.ofNat (n / 256 ^ w))).length < 2^64 := by
      rw [readLength, shiftIn_eq]
      exact Nat.mod_lt _ (by decide)
    have hdigit : (UInt8.ofNat (n / 256 ^ w)).toNat = n / 256 ^ w % 256 := by
      simp only [UInt8.toNat_ofNat', Nat.reducePow]
    have hmod : ∀ x y z : ℕ, (x % 2^64 * y + z) % 2^64 = (x * y + z) % 2^64 := by
      intro x y z
      rw [Nat.add_mod, Nat.mod_mul_mod, ← Nat.add_mod]
    have hsplit : n % 256 ^ (w + 1) = n % 256 ^ w + 256 ^ w * (n / 256 ^ w % 256) := Nat.mod_pow_succ
    rw [bigEndian, List.foldl_cons, ih _ hlt, readLength, shiftIn_eq, hdigit, hmod, hsplit]
    congr 1
    ring

theorem foldl_readLength_extended {n w : ℕ} (hw : w ≤ 8) (hn : n < 256 ^ w) (p : Parser)
    (hl : p.length = 0) : ((bigEndian w n).foldl readLength p).length = n := by
  have hle : 256 ^ w ≤ 2 ^ 64 := by
    calc 256 ^ w ≤ 256 ^ 8 := Nat.pow_le_pow_right (by decide) hw
      _ = 2 ^ 64 := by decide
  rw [foldl_readLength_bigEndian w n p (by rw [hl]; decide), hl, Nat.zero_mul, Nat.zero_add,
    Nat.mod_eq_of_lt hn, Nat.mod_eq_of_lt (lt_of_lt_of_le hn hle)]

theorem takeBytes_all (read : Parser → UInt8 → Parser)
    (hread : ∀ p c, (read p c).require = p.require - 1) {p : Parser} {bytes : List UInt8}
    (h : bytes.length = p.require) :
    takeBytes read p bytes = (bytes.foldl read p, bytes.length) ∧
      (bytes.foldl read p).require = 0 := by
  induction bytes generalizing p with
  | nil => exact ⟨rfl, h.symm⟩
  | cons c cs ih =>
    rw [List.length_cons] at h
    have hne : p.require ≠ 0 := by omega
    have hrest : cs.length = (read p c).require := by
      rw [hread]
      omega
    obtain ⟨htake, hzero⟩ := ih hrest
    rw [takeBytes_cons read hne, htake]
    exact ⟨rfl, hzero⟩

/-! ### One frame -/

theorem consume_chain {fb fb₁ fb₂ : FrameBuffer} {a b : List UInt8} (h : Ready fb)
    (ha : consume alloc fb a = ⟨fb₁, .done, a.length⟩)
    (hb : consume alloc fb₁ b = ⟨fb₂, .done, b.length⟩) :
    consume alloc fb (a ++ b) = ⟨fb₂, .done, (a ++ b).length⟩ := by
  rw [consume_append h, ha, Outcome.andThen, if_pos rfl, hb, List.length_append]
  rfl

theorem consume_read (read : Parser → UInt8 → Parser) (next : FrameBuffer → FrameBuffer × Exit)
    {fb fb' : FrameBuffer} {bytes : List UInt8}
    (hturn : ∀ c cs, turn alloc fb c cs = readTurn read next fb (c :: cs))
    (hread : ∀ p c, (read p c).require = p.require - 1) (hne : bytes ≠ [])
    (hlen : bytes.length = fb.parser.require)
    (hnext : next { fb with parser := bytes.foldl read fb.parser } = (fb', .done)) :
    consume alloc fb bytes = ⟨fb', .done, bytes.length⟩ := by
  obtain ⟨htake, hzero⟩ := takeBytes_all read hread hlen
  cases bytes with
  | nil => exact absurd rfl hne
  | cons c cs =>
    have ht : turn alloc fb c cs = ⟨fb', .done, cs.length⟩ := by
      simp only [hturn, readTurn, htake, hzero, hnext, if_true, List.length_cons, Nat.add_sub_cancel]
    rw [consume_of_turn ht, List.drop_length, Nat.min_self, List.length_cons]
    rfl

theorem consume_body {fb : FrameBuffer} (h : InBody fb) {data : List UInt8}
    (hlen : data.length = fb.parser.require) :
    consume alloc fb data = ⟨(fb.receive data).deliver.goto .start 0, .done, data.length⟩ := by
  have hpos := h.pos
  cases data with
  | nil => rw [List.length_nil] at hlen; omega
  | cons c cs =>
    have ht : turn alloc fb c cs =
        ⟨(fb.receive (c :: cs)).deliver.goto .start 0, .done, cs.length⟩ := by
      simp only [turn, h.state]
      rw [h.bodyTurn_last hlen.ge, ← hlen, List.take_length, List.length_cons, Nat.add_sub_cancel]
    rw [consume_of_turn ht, List.drop_length, Nat.min_self, List.length_cons]
    rfl

/-- `fb'` is `fb` after one more frame, with the parser at the start of the next. -/
structure Parsed (fb : FrameBuffer) (mask : Key) (frame : Frame) (fb' : FrameBuffer) : Prop where
  state : fb'.parser.state = .start
  mask : fb'.parser.mask = mask
  frames : fb'.frames = fb.frames ++ [frame]

theorem writeAt_all {buffer bytes : List UInt8} (h : bytes.length = buffer.length) :
    writeAt buffer 0 bytes = bytes := by
  rw [writeAt, List.take_zero, List.nil_append, Nat.zero_add, h, List.drop_length, List.append_nil]

theorem ofContext_opened (opcode : UInt8) {n : ℕ} {bytes : List UInt8} (h : bytes.length = n) :
    Frame.ofContext ((Context.opened opcode n).receive bytes) = .carrying opcode bytes := by
  subst h
  unfold Context.opened Frame.carrying
  split
  · rename_i hop
    simp only [Context.receive, hop, if_true, Nat.zero_add]
    rw [writeAt_all (List.length_replicate.symm)]
  · rename_i hop
    simp only [Context.receive, hop, if_false, Nat.zero_add]
    rw [writeAt_all (List.length_replicate.symm)]

theorem Context.receive_nil (c : Context) : c.receive [] = c := by
  have hwrite : ∀ buffer pos, writeAt buffer pos [] = buffer := by
    intro buffer pos
    rw [writeAt, List.append_nil, List.length_nil, Nat.add_zero, List.take_append_drop]
  unfold Context.receive
  split <;> simp only [hwrite, List.length_nil, Nat.add_zero]

theorem decode_maskWith {p : Parser} (h : p.maskOffset = 0) (src : List UInt8) :
    p.decode src = maskWith p.mask src := by
  simp only [Parser.decode, maskWith, h, Nat.add_zero]

theorem beginBody_frame {fb : FrameBuffer} {wire : List UInt8} (hlen : fb.parser.length = wire.length)
    (hoff : fb.parser.maskOffset = 0) (ha : alloc wire.length = true) :
    ∃ fb₁ fb₂, beginBody alloc fb = (fb₁, .done) ∧ Ready fb₁ ∧
      consume alloc fb₁ wire = ⟨fb₂, .done, wire.length⟩ ∧
      Parsed fb fb.parser.mask (.carrying fb.parser.getOpcode (maskWith fb.parser.mask wire)) fb₂ := by
  have hframe : Frame.ofContext ((Context.opened fb.parser.getOpcode fb.parser.length).receive
      (maskWith fb.parser.mask wire)) =
        .carrying fb.parser.getOpcode (maskWith fb.parser.mask wire) :=
    ofContext_opened _ ((maskWith_length _ _).trans hlen.symm)
  by_cases hzero : fb.parser.length = 0
  · have hnil : wire = [] := List.length_eq_zero_iff.mp (hlen ▸ hzero)
    subst hnil
    refine ⟨_, _, beginBody_empty hzero (hlen ▸ ha), trivial, rfl, rfl, rfl, ?_⟩
    have hsame : (Context.opened fb.parser.getOpcode fb.parser.length).receive [] =
        .opened fb.parser.getOpcode fb.parser.length := Context.receive_nil _
    rw [← hframe]
    exact congrArg (fun c => fb.frames ++ [Frame.ofContext c]) hsame.symm
  · have hbody : InBody (fb.goto .body fb.parser.length).openFrame := by
      have hset := @beginBody_settled alloc fb
      rw [beginBody_body hzero (hlen ▸ ha)] at hset
      rcases hset with ⟨-, hready⟩ | ⟨hthrew, -⟩
      · exact hready.inBody rfl
      · cases hthrew
    refine ⟨_, _, beginBody_body hzero (hlen ▸ ha), hbody.ready, consume_body hbody hlen.symm,
      rfl, rfl, ?_⟩
    have hdecode : fb.parser.decode wire = maskWith fb.parser.mask wire := decode_maskWith hoff wire
    rw [← hframe, ← hdecode]
    rfl

theorem foldl_readMask (k : Key) {p : Parser} (h : p.require = 4) :
    [k 0, k 1, k 2, k 3].foldl readMask p = { p with mask := k, require := 0 } := by
  simp only [List.foldl_cons, List.foldl_nil, readMask, h, Parser.mk.injEq, true_and, and_true]
  funext j
  fin_cases j <;> rfl

namespace WireFrame

/-- The payload that `on_frame_body` makes of a frame when the parser still has the mask `m`. -/
def seen (f : WireFrame) (m : Key) : List UInt8 :=
  match f.key with
  | some _ => f.payload
  | none => maskWith m f.payload

theorem wirePayload_length (f : WireFrame) : f.wirePayload.length = f.payload.length := by
  unfold wirePayload
  split
  · exact maskWith_length _ _
  · rfl

theorem maskWith_wirePayload (f : WireFrame) (m : Key) :
    maskWith (f.key.getD m) f.wirePayload = f.seen m := by
  unfold wirePayload seen
  cases f.key with
  | none => rfl
  | some k => exact maskWith_maskWith k f.payload

theorem afterLength_frame (f : WireFrame) {fb : FrameBuffer}
    (hop : fb.parser.getOpcode = f.opcode) (hmask : fb.parser.hasMask = f.key.isSome)
    (hlen : fb.parser.length = f.payload.length) (hoff : fb.parser.maskOffset = 0)
    (ha : alloc f.payload.length = true) :
    ∃ fb₁ fb₂, afterLength alloc fb = (fb₁, .done) ∧ Ready fb₁ ∧
      consume alloc fb₁ (f.keyBytes ++ f.wirePayload) =
        ⟨fb₂, .done, (f.keyBytes ++ f.wirePayload).length⟩ ∧
      Parsed fb (f.key.getD fb.parser.mask) (.carrying f.opcode (f.seen fb.parser.mask)) fb₂ := by
  have hlen' : fb.parser.length = f.wirePayload.length := hlen.trans f.wirePayload_length.symm
  have ha' : alloc f.wirePayload.length = true := f.wirePayload_length ▸ ha
  rw [← f.maskWith_wirePayload, ← hop]
  unfold afterLength
  cases hkey : f.key with
  | none =>
    rw [hkey, Option.isSome_none] at hmask
    obtain ⟨fb₁, fb₂, hbegin, hready, hconsume, hparsed⟩ := beginBody_frame hlen' hoff ha'
    refine ⟨fb₁, fb₂, ?_, hready, ?_, hparsed⟩
    · rw [hmask]
      exact hbegin
    · simpa only [keyBytes, hkey, List.nil_append] using hconsume
  | some k =>
    rw [hkey, Option.isSome_some] at hmask
    have hready : Ready (fb.goto .mask 4) := ⟨Nat.succ_pos 3, Nat.le_refl 4⟩
    -- the buffer as the mask loop leaves it
    obtain ⟨fbk, hfbk⟩ : ∃ b, { fb.goto .mask 4 with
      parser := { (fb.goto .mask 4).parser with mask := k, require := 0 } } = b := ⟨_, rfl⟩
    have hlenk : fbk.parser.length = f.wirePayload.length := hfbk ▸ hlen'
    have hoffk : fbk.parser.maskOffset = 0 := hfbk ▸ hoff
    obtain ⟨fb₁, fb₂, hbegin, -, hconsume, hparsed⟩ := beginBody_frame hlenk hoffk ha'
    have hkeys : consume alloc (fb.goto .mask 4) [k 0, k 1, k 2, k 3] = ⟨fb₁, .done, 4⟩ := by
      refine consume_read readMask (beginBody alloc) (fun _ _ => rfl) (fun _ _ => rfl)
        (List.cons_ne_nil _ _) rfl ?_
      rw [foldl_readMask k rfl, hfbk]
      exact hbegin
    refine ⟨fb.goto .mask 4, fb₂, ?_, hready, ?_, ?_⟩
    · rw [hmask]
      rfl
    · simp only [keyBytes, hkey]
      exact consume_chain hready hkeys hconsume
    · subst hfbk
      exact ⟨hparsed.state, hparsed.mask, hparsed.frames⟩

end WireFrame

/-! ### The first two bytes -/

theorem low_bits (c : UInt8) : ∃ n < 16, c &&& 0xF = UInt8.ofNat n := by
  refine ⟨(c &&& 0xF).toNat, ?_, UInt8.ofNat_toNat.symm⟩
  rw [UInt8.toNat_and]
  exact Nat.lt_succ_of_le Nat.and_le_right

theorem flag_bits : ∀ n < 16, ∀ fin masked : Bool,
    let start := if fin then UInt8.ofNat n ||| finalFrame else UInt8.ofNat n
    let flags := if masked then start ||| hasMaskFlag else start
    flags &&& 0xF = UInt8.ofNat n ∧ (flags &&& hasMaskFlag != 0) = masked := by
  decide

theorem second_bits : ∀ n < 128, ∀ masked : Bool,
    let c := (if masked then (0x80 : UInt8) else 0) ||| UInt8.ofNat n
    (c &&& 0x7F).toNat = n ∧ (c &&& 0x80 ≠ 0 ↔ masked = true) := by
  decide

theorem lengthField_lt (n : ℕ) : lengthField n < 128 := by
  unfold lengthField
  split
  · omega
  · split <;> omega

/-- What the parser has of a frame after its first two bytes. -/
structure HeadRead (f : WireFrame) (fb : FrameBuffer) (p : Parser) : Prop where
  opcode : p.getOpcode = f.opcode
  masked : p.hasMask = f.key.isSome
  offset : p.maskOffset = 0
  mask : p.mask = fb.parser.mask

theorem HeadRead.congr {f : WireFrame} {fb : FrameBuffer} {p q : Parser} (h : HeadRead f fb p)
    (hf : q.flags = p.flags) (ho : q.maskOffset = p.maskOffset) (hm : q.mask = p.mask) :
    HeadRead f fb q := by
  refine ⟨?_, ?_, ho.trans h.offset, hm.trans h.mask⟩
  · rw [Parser.getOpcode, hf]
    exact h.opcode
  · rw [Parser.hasMask, hf]
    exact h.masked

theorem head_frame (f : WireFrame) {fb : FrameBuffer} (hs : fb.parser.state = .start) :
    ∃ fbh p, consume alloc fb [f.first] = ⟨fbh, .done, 1⟩ ∧ Ready fbh ∧ fbh.frames = fb.frames ∧
      HeadRead f fb p ∧
      turn alloc fbh f.second [] =
        if 126 ≤ lengthField f.payload.length then
          ⟨{ fbh with parser := { p with length := 0 } }.goto .length
            (if lengthField f.payload.length = 127 then 8 else 2), .done, 0⟩
        else
          ⟨(afterLength alloc { fbh with parser :=
              { p with length := lengthField f.payload.length } }).1,
            (afterLength alloc { fbh with parser :=
              { p with length := lengthField f.payload.length } }).2, 0⟩ := by
  have ht : turn alloc fb f.first [] = startTurn fb f.first := by simp only [turn, hs]
  obtain ⟨hlen, hbit⟩ := second_bits _ (lengthField_lt f.payload.length) f.key.isSome
  obtain ⟨fbh, hfbh⟩ : ∃ b, (startTurn fb f.first).buffer = b := ⟨_, rfl⟩
  refine ⟨fbh, { fbh.parser with flags := if f.key.isSome then fbh.parser.flags ||| hasMaskFlag
    else fbh.parser.flags }, ?_, ?_, ?_, ?_, ?_⟩
  · rw [consume_of_turn ht, ← hfbh]
    rfl
  · subst hfbh
    trivial
  · subst hfbh
    rfl
  · obtain ⟨n, hn, hlow⟩ := low_bits f.first
    obtain ⟨hop, hmask⟩ := flag_bits n hn (decide (f.first &&& 0x80 ≠ 0)) f.key.isSome
    subst hfbh
    refine ⟨?_, ?_, rfl, rfl⟩
    · simp only [Parser.getOpcode, startTurn, WireFrame.opcode, hlow]
      simpa only [decide_eq_true_eq] using hop
    · simp only [Parser.hasMask, startTurn, hlow]
      simpa only [decide_eq_true_eq] using hmask
  · have hstate : fbh.parser.state = .head := by
      subst hfbh
      rfl
    simp only [turn, hstate, headTurn, WireFrame.second, hlen, hbit]

theorem foldl_readLength_frame (bytes : List UInt8) (p : Parser) :
    (bytes.foldl readLength p).flags = p.flags ∧
      (bytes.foldl readLength p).maskOffset = p.maskOffset ∧
      (bytes.foldl readLength p).mask = p.mask := by
  induction bytes generalizing p with
  | nil => exact ⟨rfl, rfl, rfl⟩
  | cons c cs ih => exact ih (readLength p c)

theorem consume_extended (f : WireFrame) {fb fbl : FrameBuffer} {w : ℕ} (hw : 0 < w ∧ w ≤ 8)
    (hs : fbl.parser.state = .length) (hreq : fbl.parser.require = w) (hzero : fbl.parser.length = 0)
    (hread : HeadRead f fb fbl.parser) (hn : f.payload.length < 256 ^ w)
    (ha : alloc f.payload.length = true) :
    ∃ fb', consume alloc fbl (bigEndian w f.payload.length ++ (f.keyBytes ++ f.wirePayload)) =
        ⟨fb', .done, (bigEndian w f.payload.length ++ (f.keyBytes ++ f.wirePayload)).length⟩ ∧
      Parsed fbl (f.key.getD fb.parser.mask) (.carrying f.opcode (f.seen fb.parser.mask)) fb' := by
  obtain ⟨hflags, hoff, hmask⟩ := foldl_readLength_frame (bigEndian w f.payload.length) fbl.parser
  have hread' := hread.congr hflags hoff hmask
  obtain ⟨fb₁, fb₂, hafter, -, hconsume, hparsed⟩ := @WireFrame.afterLength_frame alloc f
    { fbl with parser := (bigEndian w f.payload.length).foldl readLength fbl.parser }
    hread'.opcode hread'.masked (foldl_readLength_extended hw.2 hn _ hzero) hread'.offset ha
  have hready : Ready fbl := by
    simp only [Ready, hs, hreq]
    exact hw
  have hlength : consume alloc fbl (bigEndian w f.payload.length) =
      ⟨fb₁, .done, (bigEndian w f.payload.length).length⟩ := by
    refine consume_read readLength (afterLength alloc) (fun c cs => ?_) (fun _ _ => rfl) ?_ ?_ hafter
    · simp only [turn, hs]
    · intro hnil
      have := congrArg List.length hnil
      rw [bigEndian_length, List.length_nil] at this
      omega
    · rw [bigEndian_length, hreq]
  refine ⟨fb₂, consume_chain hready hlength hconsume, hparsed.state, ?_, ?_⟩
  · rw [hparsed.mask]
    exact congrArg _ hread'.mask
  · rw [hparsed.frames]
    exact congrArg (fun m => fbl.frames ++ [Frame.carrying f.opcode (f.seen m)]) hread'.mask

theorem Parsed.of_frames {fb fb₁ fb₂ : FrameBuffer} {mask : Key} {frame : Frame}
    (h : Parsed fb₁ mask frame fb₂) (hf : fb₁.frames = fb.frames) : Parsed fb mask frame fb₂ :=
  ⟨h.state, h.mask, hf ▸ h.frames⟩

/-- One frame from the start state: the parser is back in it, with the frame's key if the
frame has one, and the frame is in the list as it was seen. -/
theorem parse_frame (f : WireFrame) {fb : FrameBuffer} (hs : fb.parser.state = .start)
    (ha : alloc f.payload.length = true) :
    ∃ fb', consume alloc fb f.encode = ⟨fb', .done, f.encode.length⟩ ∧
      Parsed fb (f.key.getD fb.parser.mask) (.carrying f.opcode (f.seen fb.parser.mask)) fb' := by
  obtain ⟨fbh, p, hfirst, hready, hframes, hread, hturn⟩ := @head_frame alloc f fb hs
  have hstart : Ready fb := by
    simp only [Ready, hs]
  suffices hrest : ∃ fb', consume alloc fbh
      ([f.second] ++ (extendedLength f.payload.length ++ (f.keyBytes ++ f.wirePayload))) =
        ⟨fb', .done, ([f.second] ++
          (extendedLength f.payload.length ++ (f.keyBytes ++ f.wirePayload))).length⟩ ∧
      Parsed fbh (f.key.getD fb.parser.mask) (.carrying f.opcode (f.seen fb.parser.mask)) fb' by
    obtain ⟨fb', hconsume, hparsed⟩ := hrest
    exact ⟨fb', consume_chain hstart hfirst hconsume, hparsed.of_frames hframes⟩
  have hsecond : ∀ {b : FrameBuffer}, turn alloc fbh f.second [] = ⟨b, .done, 0⟩ →
      consume alloc fbh [f.second] = ⟨b, .done, [f.second].length⟩ := by
    intro b ht
    rw [consume_of_turn ht]
    rfl
  have hlong : ∀ w, 0 < w ∧ w ≤ 8 → f.payload.length < 256 ^ w →
      turn alloc fbh f.second [] =
        ⟨{ fbh with parser := { p with length := 0 } }.goto .length w, .done, 0⟩ →
      ∃ fb', consume alloc fbh
        ([f.second] ++ (bigEndian w f.payload.length ++ (f.keyBytes ++ f.wirePayload))) =
          ⟨fb', .done, ([f.second] ++
            (bigEndian w f.payload.length ++ (f.keyBytes ++ f.wirePayload))).length⟩ ∧
        Parsed fbh (f.key.getD fb.parser.mask) (.carrying f.opcode (f.seen fb.parser.mask)) fb' := by
    intro w hw hn ht
    obtain ⟨fb', hconsume, hparsed⟩ := @consume_extended alloc f fb
      ({ fbh with parser := { p with length := 0 } }.goto .length w) w hw rfl rfl rfl
      (hread.congr rfl rfl rfl) hn ha
    exact ⟨fb', consume_chain hready (hsecond ht) hconsume, hparsed.of_frames rfl⟩
  by_cases hshort : f.payload.length < 126
  · have hfield : lengthField f.payload.length = f.payload.length := if_pos hshort
    rw [hfield, if_neg (by omega)] at hturn
    have hread' : HeadRead f fb { p with length := f.payload.length } := hread.congr rfl rfl rfl
    obtain ⟨fb₁, fb₂, hafter, -, hconsume, hparsed⟩ := @WireFrame.afterLength_frame alloc f
      { fbh with parser := { p with length := f.payload.length } }
      hread'.opcode hread'.masked rfl hread'.offset ha
    rw [hafter] at hturn
    have hmask : p.mask = fb.parser.mask := hread.mask
    rw [extendedLength, if_pos hshort, List.nil_append]
    refine ⟨fb₂, consume_chain hready (hsecond hturn) hconsume, ?_⟩
    rw [← hmask]
    exact hparsed.of_frames rfl
  · have hbound := f.short
    by_cases hmid : f.payload.length < 65536
    · have hfield : lengthField f.payload.length = 126 := by
        rw [lengthField, if_neg hshort, if_pos hmid]
      rw [hfield] at hturn
      rw [extendedLength, if_neg hshort, if_pos hmid]
      exact hlong 2 (by decide) hmid hturn
    · have hfield : lengthField f.payload.length = 127 := by
        rw [lengthField, if_neg hshort, if_neg hmid]
      rw [hfield] at hturn
      rw [extendedLength, if_neg hshort, if_neg hmid]
      exact hlong 8 (by decide) (lt_of_lt_of_le hbound (by decide)) hturn

/-! ### Streams -/

/-- The frames as the parser sees them, from the mask `m` on. -/
def seenFrames : Key → List WireFrame → List Frame
  | _, [] => []
  | m, f :: fs => .carrying f.opcode (f.seen m) :: seenFrames (f.key.getD m) fs

theorem parse_stream (fs : List WireFrame) {fb : FrameBuffer} (hs : fb.parser.state = .start)
    (ha : ∀ f ∈ fs, alloc f.payload.length = true) :
    ∃ fb', consume alloc fb (fs.flatMap WireFrame.encode) =
        ⟨fb', .done, (fs.flatMap WireFrame.encode).length⟩ ∧
      fb'.frames = fb.frames ++ seenFrames fb.parser.mask fs := by
  induction fs generalizing fb with
  | nil => exact ⟨fb, rfl, (List.append_nil _).symm⟩
  | cons f fs ih =>
    obtain ⟨fb₁, hframe, hparsed⟩ := parse_frame f hs (ha f List.mem_cons_self)
    obtain ⟨fb₂, hrest, hframes⟩ := ih hparsed.state fun g hg => ha g (List.mem_cons_of_mem _ hg)
    have hready : Ready fb := by
      simp only [Ready, hs]
    refine ⟨fb₂, ?_, ?_⟩
    · rw [List.flatMap_cons]
      exact consume_chain hready hframe hrest
    · rw [hframes, hparsed.frames, hparsed.mask, List.append_assoc]
      rfl

/-- No unmasked frame meets a key of an earlier frame: the bytes of `m`, the key of the last
masked frame, that the payload would be combined with are zero. -/
def NoStaleKey : Key → List WireFrame → Prop
  | _, [] => True
  | m, f :: fs =>
    (f.key = none → ∀ i < f.payload.length, m (Fin.ofNat 4 i) = 0) ∧ NoStaleKey (f.key.getD m) fs

theorem Frame.carrying_inj {opcode : UInt8} {a b : List UInt8}
    (h : Frame.carrying opcode a = .carrying opcode b) : a = b := by
  by_cases hop : opcode = opBinary
  · have hbin := congrArg Frame.payloadBinary h
    simpa [Frame.carrying, Frame.ofContext, hop, opBinary, opClose] using hbin
  · have htext := congrArg Frame.payloadText h
    simp only [Frame.carrying, hop, if_false] at htext
    unfold Frame.ofContext at htext
    split at htext <;> split at htext <;> exact htext

theorem WireFrame.seen_eq_payload (f : WireFrame) (m : Key) :
    f.seen m = f.payload ↔ (f.key = none → ∀ i < f.payload.length, m (Fin.ofNat 4 i) = 0) := by
  unfold WireFrame.seen
  cases f.key with
  | none => simpa using maskWith_eq_self m f.payload
  | some k => simp

theorem seenFrames_eq_iff (m : Key) (fs : List WireFrame) :
    seenFrames m fs = fs.map WireFrame.frame ↔ NoStaleKey m fs := by
  induction fs generalizing m with
  | nil => simp [seenFrames, NoStaleKey]
  | cons f fs ih =>
    rw [seenFrames, List.map_cons, List.cons.injEq, ih, NoStaleKey, ← f.seen_eq_payload]
    refine and_congr_left fun _ => ⟨fun h => Frame.carrying_inj h, fun h => ?_⟩
    rw [h]
    rfl

def getFrames : ℕ → FrameBuffer → List (Option Frame)
  | 0, _ => []
  | n + 1, fb => (getFrame fb).1 :: getFrames n (getFrame fb).2

theorem getFrames_all (fb : FrameBuffer) :
    getFrames (fb.frames.length + 1) fb = fb.frames.map some ++ [none] := by
  obtain ⟨p, c, frames⟩ := fb
  induction frames with
  | nil => rfl
  | cons f fs ih =>
    simp only [List.length_cons, List.map_cons, List.cons_append]
    exact congrArg _ ih

theorem seenFrames_length (m : Key) (fs : List WireFrame) : (seenFrames m fs).length = fs.length := by
  induction fs generalizing m with
  | nil => rfl
  | cons f fs ih => rw [seenFrames, List.length_cons, List.length_cons, ih]

/-- The frames of a stream come out of `getFrame` as they went in, and nothing after them,
exactly if no unmasked frame meets a stale key. -/
theorem stream_frames_iff (alloc : ℕ → Bool) (fs : List WireFrame)
    (ha : ∀ f ∈ fs, alloc f.payload.length = true) :
    getFrames (fs.length + 1) (consume alloc .new (fs.flatMap WireFrame.encode)).buffer =
        fs.map (fun f => some f.frame) ++ [none] ↔
      NoStaleKey (fun _ => 0) fs := by
  obtain ⟨fb', hconsume, hframes⟩ := @parse_stream alloc fs .new rfl ha
  have hseen : fb'.frames = seenFrames (fun _ => 0) fs := hframes
  have hlen : fs.length = fb'.frames.length := by rw [hseen, seenFrames_length]
  rw [hconsume, hlen, getFrames_all, hseen, ← seenFrames_eq_iff]
  have hmap : fs.map (fun f => some f.frame) = (fs.map WireFrame.frame).map some := by
    rw [List.map_map]
    rfl
  rw [hmap, List.append_left_inj, List.map_inj_right (fun _ _ h => Option.some.inj h)]

def maskedText : WireFrame := ⟨0x81, some fun i => [1, 2, 3, 4].getD i 0, [0x61], by decide⟩

def plainText : WireFrame := ⟨0x81, none, [0x62], by decide⟩

theorem plain_before_masked :
    getFrames 3 (consume (fun _ => true) .new ([plainText, maskedText].flatMap WireFrame.encode)).buffer =
      [some plainText.frame, some maskedText.frame, none] :=
  (stream_frames_iff (fun _ => true) [plainText, maskedText] (fun _ _ => rfl)).mpr
    ⟨fun _ _ _ => rfl, fun h => (by cases h), trivial⟩

theorem plain_after_masked :
    getFrames 3 (consume (fun _ => true) .new ([maskedText, plainText].flatMap WireFrame.encode)).buffer ≠
      [some maskedText.frame, some plainText.frame, none] := by
  decide

end MSylar.WebSocket
