import Mathlib.Data.List.Basic
import Mathlib.Logic.Function.Basic
import MSylar.Lib.Text

/-!
# The parameters of a request (http.cc:4-31)

`parserParams` runs once, in the constructor, on an empty path and an empty map of
parameters. Its positions are `int`s, made from the `size_t`s of `find`, and are compared
with `npos` after a conversion back. The map is what its lookups return.
-/

namespace MSylar.Server
open MSylar.Text MSylar.Word

abbrev Params := List Char → Option (List Char)

namespace Params

/-- `insert` of a map: an entry that is there stays. -/
def insert (params : Params) (key value : List Char) : Params :=
  if (params key).isSome then params else Function.update params key (some value)

theorem insert_apply (params : Params) (key value k : List Char) :
    params.insert key value k = (params k).or ([(key, value)].lookup k) := by
  unfold insert
  by_cases hk : k = key
  · subst hk
    cases hp : params k <;> simp [hp]
  · have hbeq : (k == key) = false := beq_eq_false_iff_ne.mpr hk
    split <;> simp [hk, List.lookup_cons, hbeq]

end Params

structure Request where
  path : List Char
  params : Params

/-- The loop over the parameters. `none` means that `substr` throws (or that the fuel is used
up). -/
def paramsLoop (uri : List Char) (paramEnd : ℤ) : ℕ → ℤ → Params → Option Params
  | 0, _, _ => none
  | fuel + 1, paramBegin, params =>
    if paramBegin < paramEnd then
      let keyEnd := int32 (find uri '=' (sizeT paramBegin))
      if sizeT keyEnd = npos ∨ paramEnd < keyEnd then
        some params
      else do
        let key ← substr uri (sizeT paramBegin) (sizeT (keyEnd - paramBegin))
        let found := int32 (find uri '&' (sizeT keyEnd))
        let valueEnd := if sizeT found = npos ∨ paramEnd < found then paramEnd else found
        let value ← substr uri (sizeT (keyEnd + 1)) (sizeT (valueEnd - keyEnd - 1))
        paramsLoop uri paramEnd fuel (valueEnd + 1) (params.insert key value)
    else
      some params

/-- Each round of the loop moves `param_begin` forward. -/
def parserParams (uri : List Char) : Option Request := do
  let pathEnd := int32 (find uri '?' 0)
  let path ← if sizeT pathEnd ≠ npos then substr uri 0 (sizeT pathEnd) else some []
  let hash := int32 (find uri '#' 0)
  let paramEnd := if sizeT hash = npos then int32 uri.length else hash
  let params ← paramsLoop uri paramEnd (uri.length + 1) (pathEnd + 1) fun _ => none
  some ⟨path, params⟩

/-! ### What a URI says -/

/-- The pieces that contain `=`, each split at its first `=`. -/
def pairs (q : List Char) : List (List Char × List Char) :=
  ((q.splitOn '&').filter fun p => '=' ∈ p).map fun p => (before '=' p, after '=' p)

/-- The text between the first `?` and the first `#` after it; empty without a `?`. -/
def query (uri : List Char) : List Char := before '#' (after '?' uri)

def uriPath (uri : List Char) : List Char :=
  if '?' ∈ uri then before '?' uri else before '#' uri

/-- The request has the path and the parameters of the URI. -/
def AsDefined (uri : List Char) : Prop :=
  ∃ r, parserParams uri = some r ∧ r.path = uriPath uri ∧
    ∀ k, r.params k = (pairs (query uri)).lookup k

/-- No piece without `=` stands before one with `=`. -/
def Filled (q : List Char) : Prop :=
  (q.splitOn '&').Pairwise fun a b => '=' ∈ b → '=' ∈ a

/-- Without a `?` the path has to be empty; behind a `#` the query must not contain an `=`. -/
def Ordinary (uri : List Char) : Prop :=
  if '?' ∈ uri then
    if '#' ∈ before '?' uri then '=' ∉ query uri else Filled (query uri)
  else
    before '#' uri = []

instance (uri : List Char) : Decidable (Ordinary uri) :=
  inferInstanceAs (Decidable (if '?' ∈ uri then
    if '#' ∈ before '?' uri then '=' ∉ query uri else
      ((query uri).splitOn '&').Pairwise fun a b => '=' ∈ b → '=' ∈ a
    else before '#' uri = []))

/-! ### What the loop reads -/

/-- A key ends at the next `=`, whatever stands before it; its value ends at the next `&`. -/
inductive Reads : List Char → List (List Char × List Char) → Prop where
  | stop (q : List Char) : '=' ∉ q → Reads q []
  | last (k v : List Char) : '=' ∉ k → '&' ∉ v → Reads (k ++ '=' :: v) [(k, v)]
  | next (k v q : List Char) (ps : List (List Char × List Char)) : '=' ∉ k → '&' ∉ v →
      Reads q ps → Reads (k ++ '=' :: (v ++ '&' :: q)) ((k, v) :: ps)

theorem exists_reads (q : List Char) : ∃ ps, Reads q ps := by
  induction hn : q.length using Nat.strong_induction_on generalizing q with
  | _ n ih =>
    by_cases heq : '=' ∈ q
    · obtain ⟨k, u, rfl, hk⟩ := List.eq_append_cons_of_mem heq
      by_cases hamp : '&' ∈ u
      · obtain ⟨v, t, rfl, hv⟩ := List.eq_append_cons_of_mem hamp
        simp only [List.length_append, List.length_cons] at hn
        obtain ⟨ps, hps⟩ := ih t.length (by omega) t rfl
        exact ⟨(k, v) :: ps, Reads.next k v t ps hk hv hps⟩
      · exact ⟨[(k, u)], Reads.last k u hk hamp⟩
    · exact ⟨[], Reads.stop q heq⟩

/-! #### The pieces of a query -/

theorem pairs_of_not_mem {q : List Char} (h : '=' ∉ q) : pairs q = [] := by
  have hnone : ∀ p ∈ q.splitOn '&', '=' ∉ p := fun p hp heq =>
    h ((mem_iff_splitOn (by decide) q).mpr ⟨p, hp, heq⟩)
  unfold pairs
  rw [List.filter_eq_nil_iff.mpr (by simpa using hnone), List.map_nil]

theorem pairs_piece {k v : List Char} (hk : '=' ∉ k) (hk' : '&' ∉ k) (hv : '&' ∉ v) :
    pairs (k ++ '=' :: v) = [(k, v)] := by
  unfold pairs
  rw [List.splitOn_eq_singleton (by simp [hk', hv])]
  simp [before_append_cons hk, after_append_cons hk]

theorem pairs_append {k v : List Char} (hk : '=' ∉ k) (hk' : '&' ∉ k) (hv : '&' ∉ v)
    (q : List Char) : pairs (k ++ '=' :: (v ++ '&' :: q)) = (k, v) :: pairs q := by
  have hpiece : '&' ∉ k ++ '=' :: v := by simp [hk', hv]
  have hsplit := List.splitOn_append_cons_self_of_not_mem hpiece q
  rw [List.append_assoc, List.cons_append] at hsplit
  unfold pairs
  rw [hsplit]
  simp [before_append_cons hk, after_append_cons hk]

theorem not_amp_of_mem_pairs {q : List Char} {p : List Char × List Char} (h : p ∈ pairs q) :
    '&' ∉ p.1 := by
  obtain ⟨piece, hpiece, rfl⟩ := List.mem_map.mp h
  intro hamp
  exact not_mem_of_mem_splitOn (List.mem_filter.mp hpiece).1 ((List.takeWhile_sublist _).mem hamp)

theorem filled_of_not_mem {q : List Char} (h : '=' ∉ q) : Filled q := by
  refine List.pairwise_of_forall_mem_list fun a _ b hb hmem => ?_
  exact absurd ((mem_iff_splitOn (by decide) q).mpr ⟨b, hb, hmem⟩) h

/-- With a `&` in the key, the first piece has no `=` and a later one does. -/
theorem not_filled_of_amp {k u : List Char} (hk : '=' ∉ k) (hamp : '&' ∈ k) :
    ¬Filled (k ++ '=' :: u) := by
  obtain ⟨a, b, rfl, ha⟩ := List.eq_append_cons_of_mem hamp
  intro hfilled
  unfold Filled at hfilled
  rw [List.append_assoc, List.cons_append, List.splitOn_append_cons_self_of_not_mem ha] at hfilled
  obtain ⟨p, hp, hmem⟩ := (mem_iff_splitOn (show '=' ≠ '&' by decide)
    (b ++ '=' :: u)).mp (by simp)
  have hfirst : '=' ∈ a := (List.pairwise_cons.mp hfilled).1 p hp hmem
  simp [hfirst] at hk

theorem filled_append_iff {k v q : List Char} (hk' : '&' ∉ k) (hv : '&' ∉ v) :
    Filled (k ++ '=' :: (v ++ '&' :: q)) ↔ Filled q := by
  have hpiece : '&' ∉ k ++ '=' :: v := by simp [hk', hv]
  have hsplit := List.splitOn_append_cons_self_of_not_mem hpiece q
  rw [List.append_assoc, List.cons_append] at hsplit
  unfold Filled
  rw [hsplit, List.pairwise_cons]
  exact and_iff_right fun _ _ _ => by simp

namespace Reads

theorem not_amp {q : List Char} {ps : List (List Char × List Char)} (h : Reads q ps)
    (hfilled : Filled q) : ∀ p ∈ ps, '&' ∉ p.1 := by
  induction h with
  | stop q _ => simp
  | last k v hk hv =>
    have hk' : '&' ∉ k := fun hamp => not_filled_of_amp hk hamp hfilled
    simpa using hk'
  | next k v q ps hk hv _ ih =>
    have hk' : '&' ∉ k := fun hamp => not_filled_of_amp hk hamp hfilled
    have hps := ih ((filled_append_iff hk' hv).mp hfilled)
    intro p hp
    rcases List.mem_cons.mp hp with rfl | hp
    · exact hk'
    · exact hps p hp

theorem eq_pairs {q : List Char} {ps : List (List Char × List Char)} (h : Reads q ps)
    (hps : ∀ p ∈ ps, '&' ∉ p.1) : Filled q ∧ ps = pairs q := by
  induction h with
  | stop q hq => exact ⟨filled_of_not_mem hq, (pairs_of_not_mem hq).symm⟩
  | last k v hk hv =>
    have hk' : '&' ∉ k := hps (k, v) List.mem_cons_self
    refine ⟨?_, (pairs_piece hk hk' hv).symm⟩
    unfold Filled
    rw [List.splitOn_eq_singleton (by simp [hk', hv])]
    exact List.pairwise_singleton _ _
  | next k v q ps hk hv _ ih =>
    have hk' : '&' ∉ k := hps (k, v) List.mem_cons_self
    obtain ⟨hfilled, heq⟩ := ih fun p hp => hps p (List.mem_cons_of_mem _ hp)
    exact ⟨(filled_append_iff hk' hv).mpr hfilled, by rw [pairs_append hk hk' hv, heq]⟩

theorem of_nil {ps : List (List Char × List Char)} (h : Reads [] ps) : ps = [] := by
  rw [(h.eq_pairs (h.not_amp (filled_of_not_mem List.not_mem_nil))).2,
    pairs_of_not_mem List.not_mem_nil]

/-- The loop's keys are those of the pieces exactly when no key runs over a `&`. -/
theorem lookup_iff {q : List Char} {ps : List (List Char × List Char)} (h : Reads q ps) :
    (∀ k, ps.lookup k = (pairs q).lookup k) ↔ Filled q := by
  constructor
  · intro hlookup
    refine (h.eq_pairs fun p hp => ?_).1
    have hkey : (ps.lookup p.1).isSome := by
      rw [List.lookup_isSome_iff]
      exact ⟨p, hp, by simp⟩
    rw [hlookup, List.lookup_isSome_iff] at hkey
    obtain ⟨p', hp', heq⟩ := hkey
    rw [eq_of_beq heq]
    exact not_amp_of_mem_pairs hp'
  · intro hfilled k
    rw [(h.eq_pairs (h.not_amp hfilled)).2]

end Reads

/-! ### The loop -/

/-- The query is followed by the end of the URI or by a `#`. -/
def Ends (rest : List Char) : Prop := rest = [] ∨ ∃ t, rest = '#' :: t

/-- A search that finds nothing in the rest of the query fails, or ends behind it. -/
theorem find_beyond {c : Char} (hc : c ≠ '#') {u : List Char} (hu : c ∉ u) {rest : List Char}
    (hrest : Ends rest) (w : List Char) (hlen : (w ++ (u ++ rest)).length < 2^31) :
    sizeT (int32 (find (w ++ (u ++ rest)) c w.length)) = npos ∨
      ((w ++ u).length : ℤ) < int32 (find (w ++ (u ++ rest)) c w.length) := by
  by_cases hmem : c ∈ rest
  · obtain ⟨a, b, rfl, ha⟩ := List.eq_append_cons_of_mem hmem
    have hpos : 0 < a.length := by
      rcases hrest with hnil | ⟨t, ht⟩
      · simp at hnil
      · refine List.length_pos_of_ne_nil fun hnil => hc ?_
        rw [hnil, List.nil_append] at ht
        exact (List.cons.inj ht).1
    have hfind := find_append (c := c) (u := u ++ a) (by simp [hu, ha]) w b
    rw [List.append_assoc] at hfind
    simp only [List.length_append, List.length_cons] at hlen hfind ⊢
    rw [hfind, int32_of_lt (by omega)]
    exact Or.inr (by omega)
  · left
    rw [find_of_not_mem (by simp [hu, hmem]), int32_npos, sizeT_neg_one]

theorem paramsLoop_done (uri : List Char) {paramBegin paramEnd : ℤ} (h : paramEnd ≤ paramBegin)
    (fuel : ℕ) (params : Params) :
    paramsLoop uri paramEnd (fuel + 1) paramBegin params = some params := by
  simp only [paramsLoop, if_neg (not_lt.mpr h)]

theorem paramsLoop_stop {q rest : List Char} (hq : '=' ∉ q) (hrest : Ends rest) (w : List Char)
    (hlen : (w ++ (q ++ rest)).length < 2^31) (fuel : ℕ) (params : Params) :
    paramsLoop (w ++ (q ++ rest)) (w ++ q).length (fuel + 1) w.length params = some params := by
  have hbeyond := find_beyond (by decide) hq hrest w hlen
  simp only [List.length_append] at hlen
  simp only [paramsLoop, sizeT_natCast (show w.length < 2^64 by omega), if_pos hbeyond, ite_self]

/-- One round: the key up to the `=`, the value up to the position that `value_end` gets. -/
theorem paramsLoop_round {k v : List Char} (hk : '=' ∉ k) (w u : List Char) (paramEnd : ℕ)
    (hend : w.length + k.length + 1 + v.length ≤ paramEnd) (hle : paramEnd < 2^31)
    (hvalue : (if sizeT (int32 (find (w ++ (k ++ '=' :: (v ++ u))) '&' (w ++ k).length)) = npos ∨
        (paramEnd : ℤ) < int32 (find (w ++ (k ++ '=' :: (v ++ u))) '&' (w ++ k).length) then
        (paramEnd : ℤ) else int32 (find (w ++ (k ++ '=' :: (v ++ u))) '&' (w ++ k).length)) =
      ((w ++ k).length + 1 + v.length : ℕ)) (fuel : ℕ) (params : Params) :
    paramsLoop (w ++ (k ++ '=' :: (v ++ u))) paramEnd (fuel + 1) w.length params =
      paramsLoop (w ++ (k ++ '=' :: (v ++ u))) paramEnd fuel
        ((w ++ k).length + 1 + v.length + 1 : ℕ) (params.insert k v) := by
  have hfind := find_append hk w (v ++ u)
  have hkey := substr_append w k ('=' :: (v ++ u))
  have hval := substr_append (w ++ k ++ ['=']) v u
  simp only [List.append_assoc, List.cons_append, List.nil_append] at hval
  generalize hs : w ++ (k ++ '=' :: (v ++ u)) = s at *
  have hw : w.length + (k.length + (1 + (v.length + u.length))) = s.length := by
    rw [← hs]
    simp only [List.length_append, List.length_cons]
    omega
  simp only [List.length_append, List.length_cons, List.length_nil] at hval hvalue ⊢
  have hkeyEnd : int32 (find s '=' w.length) = (w.length + k.length : ℕ) := by
    rw [hfind, int32_of_lt (by omega)]
  have hkeySize : ((w.length + k.length : ℕ) : ℤ) - w.length = (k.length : ℕ) := by omega
  have hvalBegin : ((w.length + k.length : ℕ) : ℤ) + 1 = (w.length + (k.length + 1) : ℕ) := by omega
  have hvalSize : ((w.length + k.length + 1 + v.length : ℕ) : ℤ) - (w.length + k.length : ℕ) - 1 =
      (v.length : ℕ) := by omega
  rw [paramsLoop, if_pos (by omega), sizeT_natCast (by omega)]
  simp only [hkeyEnd]
  rw [if_neg (not_or.mpr ⟨sizeT_ne_npos (by omega), by omega⟩), hkeySize,
    sizeT_natCast (show k.length < 2^64 by omega), hkey,
    sizeT_natCast (show w.length + k.length < 2^64 by omega)]
  simp only [hvalue, hvalBegin, hvalSize, Option.bind_eq_bind, Option.bind_some]
  rw [sizeT_natCast (show v.length < 2^64 by omega), sizeT_natCast (by omega), hval,
    Option.bind_some]
  rfl

theorem paramsLoop_reads {q : List Char} {ps : List (List Char × List Char)} (h : Reads q ps)
    {rest : List Char} (hrest : Ends rest) (w : List Char)
    (hlen : (w ++ (q ++ rest)).length < 2^31) (fuel : ℕ) (hfuel : q.length < fuel)
    (params : Params) :
    ∃ r, paramsLoop (w ++ (q ++ rest)) (w ++ q).length fuel w.length params = some r ∧
      ∀ k, r k = (params k).or (ps.lookup k) := by
  induction h generalizing w fuel params with
  | stop q hq =>
    obtain ⟨fuel, rfl⟩ := Nat.exists_eq_add_one_of_ne_zero (show fuel ≠ 0 by omega)
    exact ⟨params, paramsLoop_stop hq hrest w hlen fuel params, fun k => by simp⟩
  | last k v hk hv =>
    simp only [List.append_assoc, List.cons_append] at hlen ⊢
    have hsize := hlen
    simp only [List.length_append, List.length_cons] at hsize hfuel
    have hbeyond := find_beyond (c := '&') (u := '=' :: v) (by decide) (by simp [hv]) hrest
      (w ++ k) (by simpa only [List.append_assoc, List.cons_append] using hlen)
    simp only [List.append_assoc, List.cons_append] at hbeyond
    have hend : (w ++ (k ++ '=' :: v)).length = (w ++ k).length + 1 + v.length := by
      simp only [List.length_append, List.length_cons]
      omega
    obtain ⟨fuel, rfl⟩ := Nat.exists_eq_add_of_le' (show 2 ≤ fuel by omega)
    refine ⟨params.insert k v, ?_, fun x => Params.insert_apply params k v x⟩
    rw [paramsLoop_round hk w rest _ (by rw [hend, List.length_append])
      (by rw [hend, List.length_append]; omega) (by rw [if_pos hbeyond, hend]) (fuel + 1) params]
    exact paramsLoop_done _ (by omega) fuel _
  | next k v q ps hk hv _ ih =>
    simp only [List.append_assoc, List.cons_append] at hlen ⊢
    have hsize := hlen
    simp only [List.length_append, List.length_cons] at hsize hfuel
    have hfind := find_append (c := '&') (u := '=' :: v) (by simp [hv]) (w ++ k) (q ++ rest)
    simp only [List.append_assoc, List.cons_append, List.length_cons] at hfind
    obtain ⟨fuel, rfl⟩ := Nat.exists_eq_add_one_of_ne_zero (show fuel ≠ 0 by omega)
    have hround := paramsLoop_round (v := v) hk w ('&' :: (q ++ rest))
      (w ++ (k ++ '=' :: (v ++ '&' :: q))).length
      (by simp only [List.length_append, List.length_cons]; omega)
      (by simp only [List.length_append, List.length_cons]; omega)
      (by
        rw [hfind, int32_of_lt (by rw [List.length_append]; omega), if_neg]
        · rw [Nat.add_right_comm]
          rfl
        · rintro (hnpos | hlt)
          · exact sizeT_ne_npos (by rw [List.length_append]; omega) hnpos
          · simp only [List.length_append, List.length_cons] at hlt
            omega) fuel params
    obtain ⟨r, hr, hlookup⟩ := ih (w ++ k ++ '=' :: v ++ ['&'])
      (by simpa only [List.append_assoc, List.cons_append, List.nil_append] using hlen) fuel
      (by omega) (params.insert k v)
    simp only [List.append_assoc, List.cons_append, List.nil_append] at hr
    refine ⟨r, ?_, fun x => ?_⟩
    · rw [hround, ← hr]
      congr 2
      simp only [List.length_append, List.length_cons, List.length_nil]
      omega
    · rw [hlookup, Params.insert_apply, Option.or_assoc]
      congr 1
      rw [List.lookup_cons, List.lookup_cons, List.lookup_nil]
      cases x == k <;> rfl

/-! ### The whole URI -/

theorem exists_ends (uri : List Char) :
    ∃ rest, Ends rest ∧ before '#' uri ++ rest = uri := by
  by_cases h : '#' ∈ uri
  · exact ⟨'#' :: after '#' uri, Or.inr ⟨_, rfl⟩, before_append_after h⟩
  · exact ⟨[], Or.inl rfl, by rw [before_of_not_mem h, List.append_nil]⟩

theorem paramEnd_eq {uri : List Char} (hlen : uri.length < 2^31) :
    (if sizeT (int32 (find uri '#' 0)) = npos then int32 uri.length else int32 (find uri '#' 0)) =
      ((before '#' uri).length : ℕ) := by
  by_cases h : '#' ∈ uri
  · have hfind := find_first (not_mem_before '#' uri) (after '#' uri)
    have hsize := congrArg List.length (before_append_after h)
    rw [before_append_after h] at hfind
    rw [List.length_append] at hsize
    rw [hfind, int32_of_lt (by omega), if_neg (sizeT_ne_npos (by omega))]
  · rw [find_absent h, int32_npos, sizeT_neg_one, if_pos rfl, before_of_not_mem h, int32_of_lt hlen]

/-- What the loop runs over. -/
def region (uri : List Char) : List Char :=
  if '?' ∈ uri then if '#' ∈ before '?' uri then [] else query uri else before '#' uri

/-- With a `?` the loop starts right behind it. -/
theorem parserParams_query {p t : List Char} (hp : '?' ∉ p)
    (hlen : (p ++ '?' :: t).length < 2^31) :
    parserParams (p ++ '?' :: t) =
      (paramsLoop (p ++ '?' :: t) (before '#' (p ++ '?' :: t)).length ((p ++ '?' :: t).length + 1)
        (p ++ ['?']).length fun _ => none).map fun params => ⟨p, params⟩ := by
  have hsize := hlen
  simp only [List.length_append, List.length_cons] at hsize
  unfold parserParams
  simp only [paramEnd_eq hlen, find_first hp]
  have hbegin : ((p ++ ['?']).length : ℤ) = p.length + 1 := by simp
  rw [int32_of_lt (by omega), if_pos (sizeT_ne_npos (by omega)), sizeT_natCast (by omega),
    substr_prefix, hbegin, Option.map_eq_bind]
  rfl

theorem parserParams_no_query {uri : List Char} (h : '?' ∉ uri) (hlen : uri.length < 2^31) :
    parserParams uri =
      (paramsLoop uri (before '#' uri).length (uri.length + 1) 0 fun _ => none).map
        fun params => ⟨[], params⟩ := by
  unfold parserParams
  simp only [paramEnd_eq hlen, find_absent h, int32_npos, sizeT_neg_one, ne_eq, not_true, if_false]
  rw [Option.map_eq_bind]
  rfl

theorem parserParams_eq {uri : List Char} (hlen : uri.length < 2^31) :
    ∃ ps r, Reads (region uri) ps ∧ parserParams uri = some r ∧
      r.path = (if '?' ∈ uri then before '?' uri else []) ∧ ∀ k, r.params k = ps.lookup k := by
  obtain ⟨ps, hps⟩ := exists_reads (region uri)
  suffices hloop : ∃ params, parserParams uri =
      some ⟨if '?' ∈ uri then before '?' uri else [], params⟩ ∧ ∀ k, params k = ps.lookup k by
    obtain ⟨params, hrun, hlookup⟩ := hloop
    exact ⟨ps, _, hps, hrun, rfl, hlookup⟩
  unfold region at hps
  by_cases hquest : '?' ∈ uri
  · rw [if_pos hquest] at hps ⊢
    obtain ⟨p, t, rfl, hp⟩ := List.eq_append_cons_of_mem hquest
    rw [parserParams_query hp hlen]
    unfold query at hps
    rw [before_append_cons hp] at hps ⊢
    rw [after_append_cons hp] at hps
    by_cases hhash : '#' ∈ p
    · -- the query would end before it starts
      rw [if_pos hhash] at hps
      obtain ⟨a, b, rfl, ha⟩ := List.eq_append_cons_of_mem hhash
      rw [List.append_assoc, List.cons_append, before_append_cons ha, paramsLoop_done]
      · refine ⟨_, rfl, fun k => ?_⟩
        rw [hps.of_nil, List.lookup_nil]
      · simp only [List.length_append, List.length_cons]
        omega
    · rw [if_neg hhash] at hps
      obtain ⟨rest, hrest, ht⟩ := exists_ends t
      have hw : '#' ∉ p ++ ['?'] := by simp [hhash]
      have huri : p ++ '?' :: t = (p ++ ['?']) ++ (before '#' t ++ rest) := by
        rw [ht, List.append_assoc, List.cons_append, List.nil_append]
      have hsize := congrArg List.length huri
      simp only [List.length_append, List.length_cons] at hsize
      have hend : before '#' (p ++ '?' :: t) = (p ++ ['?']) ++ before '#' t := by
        rw [← before_append hw, List.append_assoc, List.cons_append, List.nil_append]
      obtain ⟨params, hrun, hlookup⟩ := paramsLoop_reads hps hrest (p ++ ['?']) (huri ▸ hlen)
        ((p ++ '?' :: t).length + 1) (by simp only [List.length_append, List.length_cons]; omega)
        fun _ => none
      rw [← huri, ← hend] at hrun
      rw [hrun]
      exact ⟨params, rfl, fun k => by rw [hlookup, Option.none_or]⟩
  · rw [if_neg hquest] at hps ⊢
    rw [parserParams_no_query hquest hlen]
    obtain ⟨rest, hrest, huri⟩ := exists_ends uri
    have hsize := congrArg List.length huri
    rw [List.length_append] at hsize
    obtain ⟨params, hrun, hlookup⟩ := paramsLoop_reads hps hrest []
      (by rw [List.nil_append, huri]; exact hlen) (uri.length + 1) (by omega) fun _ => none
    simp only [List.nil_append, List.length_nil, huri] at hrun
    rw [show ((0 : ℕ) : ℤ) = 0 from rfl] at hrun
    rw [hrun]
    exact ⟨params, rfl, fun k => by rw [hlookup, Option.none_or]⟩

/-! ### When the parameters are the URI's -/

theorem forall_lookup_none_iff {q : List Char} :
    (∀ k, (pairs q).lookup k = none) ↔ '=' ∉ q := by
  constructor
  · intro hnone heq
    obtain ⟨p, hp, hmem⟩ := (mem_iff_splitOn (show '=' ≠ '&' by decide) q).mp heq
    have hpair : (before '=' p, after '=' p) ∈ pairs q :=
      List.mem_map.mpr ⟨p, List.mem_filter.mpr ⟨hp, by simpa using hmem⟩, rfl⟩
    have hsome : ((pairs q).lookup (before '=' p)).isSome := by
      rw [List.lookup_isSome_iff]
      exact ⟨_, hpair, by simp⟩
    rw [hnone] at hsome
    exact Bool.false_ne_true hsome
  · intro hq k
    rw [pairs_of_not_mem hq, List.lookup_nil]

theorem as_defined_iff (uri : List Char) (hlen : uri.length < 2^31) :
    AsDefined uri ↔ Ordinary uri := by
  obtain ⟨ps, r, hps, hrun, hpath, hlookup⟩ := parserParams_eq hlen
  have hdef : AsDefined uri ↔
      r.path = uriPath uri ∧ ∀ k, ps.lookup k = (pairs (query uri)).lookup k := by
    simp only [AsDefined, hrun, Option.some.injEq, exists_eq_left', hlookup]
  rw [hdef, hpath]
  unfold Ordinary uriPath
  unfold region at hps
  by_cases hquest : '?' ∈ uri
  · simp only [if_pos hquest, true_and] at hps ⊢
    by_cases hhash : '#' ∈ before '?' uri
    · rw [if_pos hhash] at hps ⊢
      rw [hps.of_nil, ← forall_lookup_none_iff]
      simp only [List.lookup_nil, eq_comm]
    · rw [if_neg hhash] at hps ⊢
      exact hps.lookup_iff
  · simp only [if_neg hquest] at hps ⊢
    constructor
    · exact fun h => h.1.symm
    · intro hempty
      rw [hempty] at hps ⊢
      refine ⟨rfl, fun k => ?_⟩
      have hquery : query uri = [] := by
        unfold query
        rw [after_of_not_mem hquest]
        rfl
      rw [hps.of_nil, hquery, pairs_of_not_mem List.not_mem_nil]

theorem search_as_defined :
    AsDefined "/p?a=1&b=&a=2&c#top".toList ∧
      (pairs (query "/p?a=1&b=&a=2&c#top".toList)).lookup ['a'] = some ['1'] :=
  ⟨(as_defined_iff _ (by decide)).mpr (by decide +kernel), by decide +kernel⟩

/-- No path without a `?`; a key that runs over a `&`; a query behind a `#` is not read. -/
theorem not_as_defined :
    ¬AsDefined "/a=b".toList ∧ ¬AsDefined "/p?a&b=c".toList ∧ ¬AsDefined "/a#b?c=d".toList := by
  refine ⟨?_, ?_, ?_⟩
  · rintro ⟨r, hr, hpath, -⟩
    have hrun : (parserParams "/a=b".toList).map (·.path) = some [] := by decide +kernel
    rw [hr, Option.map_some, Option.some.injEq] at hrun
    rw [hrun] at hpath
    exact absurd hpath (by decide +kernel)
  · rintro ⟨r, hr, -, hlookup⟩
    have hrun : (parserParams "/p?a&b=c".toList).map (·.params "a&b".toList) = some (some ['c']) := by
      decide +kernel
    rw [hr, Option.map_some, Option.some.injEq, hlookup] at hrun
    exact absurd hrun (by decide +kernel)
  · rintro ⟨r, hr, -, hlookup⟩
    have hrun : (parserParams "/a#b?c=d".toList).map (·.params ['c']) = some none := by
      decide +kernel
    rw [hr, Option.map_some, Option.some.injEq, hlookup] at hrun
    exact absurd hrun (by decide +kernel)

end MSylar.Server
