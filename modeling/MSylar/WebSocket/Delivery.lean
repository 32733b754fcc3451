import MSylar.WebSocket.RecvFrame

/-!
# When a frame is delivered

A `FrameBuffer` delivers a frame with the last byte of the frame and with no other byte, and the
frames that wait in it have no part in how the next bytes are read.
-/

namespace MSylar.WebSocket
variable {alloc : ℕ → Bool}

/-! ### Frames that wait -/

/-- The same buffer with other frames in front. -/
def FrameBuffer.behind (l : List Frame) (fb : FrameBuffer) : FrameBuffer :=
  { fb with frames := l ++ fb.frames }

@[simp] theorem parser_behind (l : List Frame) (fb : FrameBuffer) :
    (fb.behind l).parser = fb.parser := rfl

/-- A callback that does not look at the frames. -/
def Blind (g : FrameBuffer → FrameBuffer × Exit) : Prop :=
  ∀ l fb, g (fb.behind l) = ((g fb).1.behind l, (g fb).2)

theorem onFrameHeader_blind : Blind (onFrameHeader alloc) := by
  intro l fb
  unfold onFrameHeader
  change (if alloc fb.parser.length = true then _ else _) = _
  split_ifs <;> rfl

theorem onFrameBody_blind (src : List UInt8) : Blind fun fb => onFrameBody fb src := by
  intro l fb
  unfold onFrameBody
  change (if fb.context.payloadLength < fb.context.payloadReceived + src.length then _ else _) = _
  dsimp only
  split_ifs <;> rfl

theorem onFrameEnd_blind : Blind onFrameEnd := by
  intro l fb
  unfold onFrameEnd
  change (if fb.context.payloadReceived ≠ fb.context.payloadLength then _ else _) = _
  split_ifs
  · rfl
  · simp only [FrameBuffer.deliver, FrameBuffer.behind, List.append_assoc]

theorem emptyFrame_blind : Blind (emptyFrame alloc) := by
  intro l fb
  unfold emptyFrame
  dsimp only
  rw [onFrameHeader_blind]
  dsimp only
  split_ifs
  · exact onFrameEnd_blind l _
  · rfl

theorem beginBody_blind : Blind (beginBody alloc) := by
  intro l fb
  unfold beginBody
  change (if fb.parser.length ≠ 0 then _ else _) = _
  split_ifs
  · exact onFrameHeader_blind l (fb.goto .body fb.parser.length)
  · exact emptyFrame_blind l (fb.goto .start fb.parser.require)

theorem afterLength_blind : Blind (afterLength alloc) := by
  intro l fb
  unfold afterLength
  change (if fb.parser.hasMask = true then _ else _) = _
  split_ifs
  · rfl
  · exact beginBody_blind l fb

def Turn.behind (l : List Frame) (t : Turn) : Turn := { t with buffer := t.buffer.behind l }

theorem headTurn_behind (l : List Frame) (fb : FrameBuffer) (c : UInt8) :
    headTurn alloc (fb.behind l) c = (headTurn alloc fb c).behind l := by
  by_cases hlong : 126 ≤ (c &&& 0x7F).toNat
  · simp only [headTurn, parser_behind, if_pos hlong]
    rfl
  · simp only [headTurn, parser_behind, if_neg hlong]
    have hafter := @afterLength_blind alloc l { fb with parser := { fb.parser with
      length := (c &&& 0x7F).toNat
      flags := if c &&& 0x80 ≠ 0 then fb.parser.flags ||| hasMaskFlag else fb.parser.flags } }
    exact congrArg (fun r : FrameBuffer × Exit => (⟨r.1, r.2, 0⟩ : Turn)) hafter

theorem readTurn_behind {next : FrameBuffer → FrameBuffer × Exit} (hnext : Blind next)
    (read : Parser → UInt8 → Parser) (l : List Frame) (fb : FrameBuffer) (data : List UInt8) :
    readTurn read next (fb.behind l) data = (readTurn read next fb data).behind l := by
  have hafter := hnext l { fb with parser := (takeBytes read fb.parser data).1 }
  unfold readTurn
  dsimp only [FrameBuffer.behind] at hafter ⊢
  rw [hafter]
  split_ifs <;> rfl

theorem endTurn_behind (l : List Frame) (fb : FrameBuffer) (extra : ℕ) :
    endTurn (fb.behind l) extra = (endTurn fb extra).behind l := by
  have hend := onFrameEnd_blind l fb
  by_cases hdone : (onFrameEnd fb).2 = .done
  · simp only [endTurn, hend, if_pos hdone]
    rfl
  · simp only [endTurn, hend, if_neg hdone]
    rfl

theorem bodyTurn_behind (l : List Frame) (fb : FrameBuffer) (data : List UInt8) :
    bodyTurn (fb.behind l) data = (bodyTurn fb data).behind l := by
  by_cases hzero : fb.parser.require = 0
  · have hempty : ∀ b : FrameBuffer, b.parser = fb.parser → bodyTurn b data = endTurn b 0 := by
      intro b hb
      exact if_pos (by rw [hb]; exact hzero)
    rw [hempty (fb.behind l) rfl, hempty fb rfl]
    exact endTurn_behind l fb 0
  · have hbody := fun src => onFrameBody_blind src l fb
    by_cases hle : fb.parser.require ≤ data.length
    · by_cases hdone : (onFrameBody fb (data.take fb.parser.require)).2 = .done
      · simp only [bodyTurn, parser_behind, if_neg hzero, if_pos hle, hbody, if_pos hdone]
        exact endTurn_behind l
          ((onFrameBody fb (data.take fb.parser.require)).1.goto .body 0) (fb.parser.require - 1)
      · simp only [bodyTurn, parser_behind, if_neg hzero, if_pos hle, hbody, if_neg hdone]
        rfl
    · by_cases hdone : (onFrameBody fb data).2 = .done
      · simp only [bodyTurn, parser_behind, if_neg hzero, if_neg hle, hbody, if_pos hdone]
        rfl
      · simp only [bodyTurn, parser_behind, if_neg hzero, if_neg hle, hbody, if_neg hdone]
        rfl

theorem turn_behind (l : List Frame) (fb : FrameBuffer) (c : UInt8) (rest : List UInt8) :
    turn alloc (fb.behind l) c rest = (turn alloc fb c rest).behind l := by
  have hstate : (fb.behind l).parser.state = fb.parser.state := rfl
  rw [turn, turn, hstate]
  cases fb.parser.state with
  | start => rfl
  | head => exact headTurn_behind l fb c
  | length => exact readTurn_behind afterLength_blind readLength l fb (c :: rest)
  | mask => exact readTurn_behind beginBody_blind readMask l fb (c :: rest)
  | body => exact bodyTurn_behind l fb (c :: rest)

def Outcome.behind (l : List Frame) (o : Outcome) : Outcome := { o with buffer := o.buffer.behind l }

theorem execute_behind (l : List Frame) (fb : FrameBuffer) (skip : ℕ) (data : List UInt8) :
    execute alloc (fb.behind l) skip data = (execute alloc fb skip data).behind l := by
  induction data generalizing fb skip with
  | nil => rfl
  | cons c rest ih =>
    cases skip with
    | succ skip =>
      rw [execute, execute, ih]
      rfl
    | zero =>
      by_cases hdone : (turn alloc fb c rest).exit = .done
      · have hdone' : ((turn alloc fb c rest).behind l).exit = .done := hdone
        rw [execute, execute, turn_behind, if_pos hdone, if_pos hdone', Turn.behind, ih]
        rfl
      · have hdone' : ¬ ((turn alloc fb c rest).behind l).exit = .done := hdone
        rw [execute, execute, turn_behind, if_neg hdone, if_neg hdone']
        rfl

theorem consume_behind (l : List Frame) (fb : FrameBuffer) (data : List UInt8) :
    consume alloc (fb.behind l) data = (consume alloc fb data).behind l :=
  execute_behind l fb 0 data

/-! ### Single bytes -/

/-- A step that ends a frame takes the parser to the start, any other step does neither. -/
def Delivers (frames : List Frame) (fb : FrameBuffer) : Prop :=
  fb.parser.state = .start ∧ fb.frames.length = frames.length + 1 ∨
    fb.parser.state ≠ .start ∧ fb.frames = frames

theorem beginBody_delivers {fb : FrameBuffer} (hdone : (beginBody alloc fb).2 = .done) :
    Delivers fb.frames (beginBody alloc fb).1 := by
  by_cases ha : alloc fb.parser.length = true
  · by_cases hzero : fb.parser.length = 0
    · rw [beginBody_empty hzero ha]
      exact .inl ⟨rfl, List.length_append⟩
    · rw [beginBody_body hzero ha]
      refine .inr ⟨?_, rfl⟩
      intro hstate
      cases hstate
  · rw [(beginBody_threw ha).1] at hdone
    cases hdone

theorem afterLength_delivers {fb : FrameBuffer} (hdone : (afterLength alloc fb).2 = .done) :
    Delivers fb.frames (afterLength alloc fb).1 := by
  unfold afterLength at hdone ⊢
  split_ifs at hdone ⊢
  · refine .inr ⟨?_, rfl⟩
    intro hstate
    cases hstate
  · exact beginBody_delivers hdone

theorem turn_delivers {fb : FrameBuffer} (h : Ready fb) (c : UInt8)
    (hdone : (turn alloc fb c []).exit = .done) :
    Delivers fb.frames (turn alloc fb c []).buffer := by
  cases hs : fb.parser.state with
  | start =>
    simp only [turn, hs]
    refine .inr ⟨?_, rfl⟩
    intro hstate
    cases hstate
  | head =>
    simp only [turn, hs, headTurn] at hdone ⊢
    split at hdone
    · rename_i hlong
      rw [if_pos hlong]
      refine .inr ⟨?_, rfl⟩
      intro hstate
      cases hstate
    · rename_i hshort
      rw [if_neg hshort]
      exact afterLength_delivers hdone
  | length =>
    simp only [Ready, hs] at h
    simp only [turn, hs, readTurn_single readLength _ (Nat.ne_of_gt h.1)] at hdone ⊢
    split at hdone
    · rename_i hlast
      rw [if_pos hlast]
      exact afterLength_delivers hdone
    · rename_i hmore
      rw [if_neg hmore]
      refine .inr ⟨?_, rfl⟩
      intro hstate
      cases hs.symm.trans hstate
  | mask =>
    simp only [Ready, hs] at h
    simp only [turn, hs, readTurn_single readMask _ (Nat.ne_of_gt h.1)] at hdone ⊢
    split at hdone
    · rename_i hlast
      rw [if_pos hlast]
      exact beginBody_delivers hdone
    · rename_i hmore
      rw [if_neg hmore]
      refine .inr ⟨?_, rfl⟩
      intro hstate
      cases hs.symm.trans hstate
  | body =>
    have hb := h.inBody hs
    simp only [turn, hs]
    rcases Nat.lt_or_ge [c].length fb.parser.require with hlt | hge
    · rw [hb.bodyTurn_partial hlt]
      refine .inr ⟨?_, rfl⟩
      intro hstate
      cases hstate
    · rw [hb.bodyTurn_last hge]
      exact .inl ⟨rfl, List.length_append⟩

/-! ### The frames of a part of a stream -/

theorem consume_frames (fb : FrameBuffer) (bytes : List UInt8) :
    (consume alloc fb bytes).buffer =
      (consume alloc { fb with frames := [] } bytes).buffer.behind fb.frames := by
  have hbehind := @consume_behind alloc fb.frames { fb with frames := [] } bytes
  have hfb : FrameBuffer.behind fb.frames { fb with frames := [] } = fb := by
    rw [FrameBuffer.behind, List.append_nil]
  rw [hfb] at hbehind
  rw [hbehind]
  rfl

/-- Where the parser is back at the start, the last byte has delivered a frame. -/
theorem frames_lt_of_start {fb : FrameBuffer} (h : Ready fb) {bytes : List UInt8} (hne : bytes ≠ [])
    (hdone : (consume alloc fb bytes).exit = .done)
    (hstart : (consume alloc fb bytes).buffer.parser.state = .start) :
    fb.frames.length < (consume alloc fb bytes).buffer.frames.length := by
  obtain ⟨z, b, rfl⟩ : ∃ z b, bytes = z ++ [b] :=
    ⟨bytes.dropLast, bytes.getLast hne, (List.dropLast_append_getLast hne).symm⟩
  rw [consume_append h] at hdone hstart ⊢
  by_cases hz : (consume alloc fb z).exit = .done
  · rw [Outcome.andThen, if_pos hz] at hdone hstart ⊢
    have hready : Ready (consume alloc fb z).buffer := by
      rcases (@consume_settled alloc fb h z).1 with ⟨-, hready⟩ | ⟨hthrew, -⟩
      · exact hready
      · rw [hz] at hthrew
        cases hthrew
    obtain ⟨hbuffer, hexit⟩ := @consume_one alloc (consume alloc fb z).buffer b
    have hlast := turn_delivers hready b (hexit.symm.trans hdone)
    rw [← hbuffer] at hlast
    rcases hlast with ⟨-, hlength⟩ | ⟨hnot, -⟩
    · have hgrown := congrArg FrameBuffer.frames (@consume_frames alloc fb z)
      have hle := congrArg List.length hgrown
      rw [FrameBuffer.behind, List.length_append] at hle
      change _ < (consume alloc (consume alloc fb z).buffer [b]).buffer.frames.length
      omega
    · exact absurd hstart hnot
  · rw [Outcome.andThen, if_neg hz] at hdone
    exact absurd hdone hz

/-- The bytes of the frames. -/
def encodeAll (fs : List WireFrame) : List UInt8 := fs.flatMap WireFrame.encode

theorem parse_whole (fs : List WireFrame) {fb : FrameBuffer} (hs : fb.parser.state = .start)
    (ha : ∀ f ∈ fs, alloc f.payload.length = true) :
    (consume alloc fb (encodeAll fs)).exit = .done ∧
      (consume alloc fb (encodeAll fs)).buffer.parser.state = .start ∧
      (consume alloc fb (encodeAll fs)).buffer.frames =
        fb.frames ++ seenFrames fb.parser.mask fs := by
  induction fs generalizing fb with
  | nil => exact ⟨rfl, hs, (List.append_nil _).symm⟩
  | cons f fs ih =>
    obtain ⟨fb', hframe, hparsed⟩ := parse_frame f hs (ha f List.mem_cons_self)
    obtain ⟨hdone, hstart, hframes⟩ := ih hparsed.state fun g hg => ha g (List.mem_cons_of_mem f hg)
    have hready : Ready fb := by
      simp only [Ready, hs]
    rw [encodeAll, List.flatMap_cons, consume_append hready, hframe, Outcome.andThen, if_pos rfl]
    refine ⟨hdone, hstart, hframes.trans ?_⟩
    rw [hparsed.frames, hparsed.mask, List.append_assoc]
    rfl

/-- What the parser has made of the first bytes of a stream. -/
def parsed (alloc : ℕ → Bool) (x : List UInt8) : FrameBuffer := (consume alloc .new x).buffer

/-- `x` is the beginning of a stream of frames that can be allocated. -/
structure Begins (alloc : ℕ → Bool) (fs : List WireFrame) (x : List UInt8) : Prop where
  alloc : ∀ f ∈ fs, alloc f.payload.length = true
  starts : x <+: encodeAll fs

theorem Begins.shorter {fs : List WireFrame} {x y : List UInt8} (h : Begins alloc fs (x ++ y)) :
    Begins alloc fs x := ⟨h.alloc, (List.prefix_append x y).trans h.starts⟩

theorem Begins.done {fs : List WireFrame} {x : List UInt8} (h : Begins alloc fs x) :
    (consume alloc .new x).exit = .done := by
  obtain ⟨y, hy⟩ := h.starts
  have hall := (@parse_whole alloc fs .new rfl h.alloc).1
  have hnew : Ready .new := trivial
  by_contra hne
  rw [← hy, consume_append hnew, Outcome.andThen, if_neg hne] at hall
  exact hne hall

theorem Begins.ready {fs : List WireFrame} {x : List UInt8} (h : Begins alloc fs x) :
    Ready (parsed alloc x) := by
  have hnew : Ready .new := trivial
  rcases (@consume_settled alloc .new hnew x).1 with ⟨-, hready⟩ | ⟨hthrew, -⟩
  · exact hready
  · rw [h.done] at hthrew
    cases hthrew

theorem Begins.append {fs : List WireFrame} {x y : List UInt8} (h : Begins alloc fs (x ++ y)) :
    (consume alloc (parsed alloc x) y).exit = .done ∧
      parsed alloc (x ++ y) = (consume alloc (parsed alloc x) y).buffer := by
  have hnew : Ready .new := trivial
  have hdone := h.done
  rw [consume_append hnew, Outcome.andThen, if_pos h.shorter.done] at hdone
  refine ⟨hdone, ?_⟩
  rw [parsed, consume_append hnew, Outcome.andThen, if_pos h.shorter.done]
  rfl

/-- The next bytes, read by the parser without the frames that waited in the buffer. -/
theorem Begins.next {fs : List WireFrame} {x y : List UInt8} (h : Begins alloc fs (x ++ y)) :
    (consume alloc { parsed alloc x with frames := [] } y).exit = .done ∧
      (consume alloc { parsed alloc x with frames := [] } y).nparsed = y.length ∧
      parsed alloc (x ++ y) =
        (consume alloc { parsed alloc x with frames := [] } y).buffer.behind
          (parsed alloc x).frames := by
  have hready : Ready { parsed alloc x with frames := [] } := h.shorter.ready
  obtain ⟨hdone, hparsed⟩ := h.append
  have hbehind := @consume_behind alloc (parsed alloc x).frames { parsed alloc x with frames := [] } y
  have hfb : FrameBuffer.behind (parsed alloc x).frames { parsed alloc x with frames := [] } =
      parsed alloc x := by
    rw [FrameBuffer.behind, List.append_nil]
  rw [hfb] at hbehind
  have hexit : (consume alloc { parsed alloc x with frames := [] } y).exit = .done := by
    rw [hbehind] at hdone
    exact hdone
  exact ⟨hexit, (consume_settled hready y).2 hexit, hparsed.trans (congrArg Outcome.buffer hbehind)⟩

theorem Begins.frames_initial {fs : List WireFrame} {x y : List UInt8}
    (h : Begins alloc fs (x ++ y)) :
    (parsed alloc x).frames <+: (parsed alloc (x ++ y)).frames := by
  rw [h.append.2, consume_frames]
  exact List.prefix_append _ _

theorem parsed_whole {fs : List WireFrame} (ha : ∀ f ∈ fs, alloc f.payload.length = true) :
    (parsed alloc (encodeAll fs)).parser.state = .start ∧
      (parsed alloc (encodeAll fs)).frames = seenFrames (fun _ => 0) fs := by
  obtain ⟨-, hstart, hframes⟩ := @parse_whole alloc fs .new rfl ha
  exact ⟨hstart, hframes⟩

/-- The frames that are complete in `x` are in `x`, and the next one is not. -/
theorem Begins.boundary {fs : List WireFrame} {x : List UInt8} (h : Begins alloc fs x) :
    (encodeAll (fs.take (parsed alloc x).frames.length)).length ≤ x.length ∧
      (x ≠ encodeAll fs → ∃ f ∈ fs, x.length <
        (encodeAll (fs.take (parsed alloc x).frames.length)).length + f.encode.length) := by
  have hsub : ∀ k, Begins alloc fs (encodeAll (fs.take k)) := by
    intro k
    refine ⟨h.alloc, encodeAll (fs.drop k), ?_⟩
    rw [encodeAll, encodeAll, ← List.flatMap_append, List.take_append_drop]
    rfl
  have hcount : ∀ k ≤ fs.length,
      (parsed alloc (encodeAll (fs.take k))).parser.state = .start ∧
        (parsed alloc (encodeAll (fs.take k))).frames.length = k := by
    intro k hk
    obtain ⟨hstart, hframes⟩ := @parsed_whole alloc (fs.take k)
      fun f hf => h.alloc f (List.mem_of_mem_take hf)
    refine ⟨hstart, ?_⟩
    rw [hframes, seenFrames_length, List.length_take, Nat.min_eq_left hk]
  have hle : (parsed alloc x).frames.length ≤ fs.length := by
    obtain ⟨y, hy⟩ := h.starts
    have hall : Begins alloc fs (x ++ y) := ⟨h.alloc, hy ▸ List.prefix_rfl⟩
    have hgrown := hall.frames_initial.length_le
    have hwhole := (hcount fs.length le_rfl).2
    rw [List.take_length, ← hy] at hwhole
    omega
  generalize hk : (parsed alloc x).frames.length = k at hle ⊢
  have hpast : (encodeAll (fs.take k)).length ≤ x.length := by
    by_contra hlong
    obtain ⟨z, hz⟩ : x <+: encodeAll (fs.take k) :=
      List.prefix_of_prefix_length_le h.starts (hsub k).starts (by omega)
    have hzne : z ≠ [] := by
      rintro rfl
      rw [List.append_nil] at hz
      rw [hz] at hlong
      exact hlong le_rfl
    obtain ⟨hstart, hlength⟩ := hcount k hle
    have hboth : Begins alloc fs (x ++ z) := hz ▸ hsub k
    rw [← hz, hboth.append.2] at hstart hlength
    have hgrown := frames_lt_of_start h.ready hzne hboth.append.1 hstart
    omega
  refine ⟨hpast, fun hne => ?_⟩
  have hlt : k < fs.length := by
    rcases hle.lt_or_eq with hlt | rfl
    · exact hlt
    · rw [List.take_length] at hpast
      exact absurd (h.starts.eq_of_length_le hpast) hne
  refine ⟨fs[k], List.getElem_mem hlt, ?_⟩
  have hnext : encodeAll (fs.take (k + 1)) = encodeAll (fs.take k) ++ fs[k].encode := by
    rw [List.take_succ_eq_append_getElem hlt, encodeAll, List.flatMap_append, List.flatMap_singleton]
    rfl
  by_contra hlong
  obtain ⟨z, hz⟩ : encodeAll (fs.take (k + 1)) <+: x := by
    refine List.prefix_of_prefix_length_le (hsub (k + 1)).starts h.starts ?_
    rw [hnext, List.length_append]
    omega
  have hboth : Begins alloc fs (encodeAll (fs.take (k + 1)) ++ z) := hz ▸ h
  have hgrown := hboth.frames_initial.length_le
  rw [hz, hk, (hcount (k + 1) hlt).2] at hgrown
  omega

/-- Bytes that complete no frame are bytes of one frame. -/
theorem Begins.within_frame {fs : List WireFrame} {x y : List UInt8} (h : Begins alloc fs (x ++ y))
    (hsame : (parsed alloc x).frames.length = (parsed alloc (x ++ y)).frames.length)
    (hne : x ++ y ≠ encodeAll fs) : ∃ f ∈ fs, y.length < f.encode.length := by
  obtain ⟨f, hf, hlt⟩ := h.boundary.2 hne
  have hpast := h.shorter.boundary.1
  rw [hsame] at hpast
  rw [List.length_append] at hlt
  exact ⟨f, hf, by omega⟩

end MSylar.WebSocket
