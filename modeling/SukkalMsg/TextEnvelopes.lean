import SukkalMsg.RequestReply

/-!
# Envelopes of texts

An envelope whose headers are texts, around a text: what the builder writes is the bytes of
that value, a receiver takes it apart into its headers and its text, and finds each header
under its name.
-/

namespace SukkalMsg

open Names Binjson Store Renderer
open PyBinjson (boxed)

/-- A text whose size fits its four bytes. -/
abbrev ShortText := {s : Bytes // s.length < 2 ^ 32}

namespace Wire

def text (s : ShortText) : Wire := .leaf (.string s)

def headers (hs : List (Bytes × ShortText)) : Wire := .object (hs.map fun h => (h.1, text h.2))

/-- An envelope of headers that are texts, around a text. -/
def envelope (hs : List (Bytes × ShortText)) (s : ShortText) : Wire := .array [headers hs, text s]

theorem bytes_text (s : ShortText) : (text s).bytes = encode [.string s] := rfl

end Wire

theorem enveloped_eq (hs : List (Bytes × ShortText)) (s : ShortText) :
    enveloped (hs.map fun h => (h.1, h.2.1)) (encode [.string s]) = (Wire.envelope hs s).bytes := by
  have hpairs : ∀ (hs : List (Bytes × ShortText)) (n : ℕ) (content : Bytes),
      ((hs.map fun h => (h.1, h.2.1)).flatMap fun h => [Item.key h.1, .string h.2]).foldl
          Builder.put ⟨[⟨0x11, n, content⟩, ⟨0x10, 0, []⟩], []⟩ =
        ⟨[⟨0x11, n + hs.length,
          content ++ Wire.bytesOfPairs (hs.map fun h => (h.1, .text h.2))⟩,
          ⟨0x10, 0, []⟩], []⟩ := by
    intro hs
    induction hs with
    | nil => simp [Wire.bytesOfPairs]
    | cons h hs ih =>
      intro n content
      have hone := ih (n + 1) (content ++ le 4 h.1.length ++ h.1 ++ (Wire.text h.2).bytes)
      simp only [List.map_cons, List.flatMap_cons, List.cons_append, List.nil_append,
        List.foldl_cons, Builder.put, Builder.key, Builder.value, List.length_cons,
        Wire.bytesOfPairs]
      refine (Eq.trans ?_ hone).trans ?_
      · rfl
      · simp only [List.append_assoc, Nat.add_assoc, Nat.add_comm 1]
  simp only [enveloped, headerItems, List.cons_append, List.foldl_cons, List.foldl_append,
    List.foldl_nil, Builder.put, hpairs]
  simp [Builder.close, Builder.value, Wire.envelope, Wire.headers, Wire.bytes, Wire.bytesOfItems,
    Wire.bytes_text, boxed, Nat.add_comm]

/-- What the callbacks of such headers are. -/
def headerVisits (hs : List (Bytes × ShortText)) : List Visit :=
  .objectBegin hs.length :: (hs.flatMap fun h => [.key h.1, .string h.2]) ++ [.objectEnd]

/-- `bj_decode` walks this envelope, its headers and its text. -/
structure Reads (V : Vendor) (decode : Decoder) (hs : List (Bytes × ShortText)) (s : ShortText) :
    Prop where
  shape : V.callbacks (Wire.envelope hs s).bytes = some (Wire.envelope hs s).callbacks
  headers : decode (Wire.headers hs).bytes = (headerVisits hs, true)
  text : decode (Wire.text s).bytes = ([.string s], true)

section

variable {V : Vendor} {G : UInt64 → Bytes} {decode : Decoder} {consumed : Bytes → ℕ}
  {hs : List (Bytes × ShortText)} {s : ShortText}

/-- The first header of a name, as far as it fits its buffers. -/
theorem headerValue_headers (h : Reads V decode hs s) (name : Bytes) (size : ℕ) :
    headerValue decode (Wire.headers hs).bytes name size =
      (hs.find? fun h => keyBuf 64 h.1 = name).map fun h =>
        cut size (keyBuf (BJM_SUBJECT_MAX + 1) h.2) := by
  have hgot : ∀ (hs : List (Bytes × ShortText)) (g : HdrGet), g.got = true →
      ∃ key, (hs.flatMap fun h => [Visit.key h.1, .string h.2]).foldl (hgVisit name) g =
        ⟨key, g.value, true⟩ := by
    intro hs
    induction hs with
    | nil => exact fun g hg => ⟨g.key, by rw [← hg]; rfl⟩
    | cons h hs ih =>
      intro g hg
      simp only [List.flatMap_cons, List.cons_append, List.nil_append, List.foldl_cons, hgVisit, hg,
        true_or, if_true]
      exact ih ⟨keyBuf 64 h.1, g.value, true⟩ rfl
  have hfind : ∀ (hs : List (Bytes × ShortText)) (g : HdrGet), g.got = false → ∃ key,
      (hs.flatMap fun h => [Visit.key h.1, .string h.2]).foldl (hgVisit name) g =
        match hs.find? fun h => keyBuf 64 h.1 = name with
        | none => ⟨key, g.value, false⟩
        | some h => ⟨key, keyBuf (BJM_SUBJECT_MAX + 1) h.2, true⟩ := by
    intro hs
    induction hs with
    | nil => exact fun g hg => ⟨g.key, by rw [← hg]; rfl⟩
    | cons h hs ih =>
      intro g hg
      rw [List.find?_cons]
      simp only [List.flatMap_cons, List.cons_append, List.nil_append, List.foldl_cons, hgVisit, hg,
        Bool.false_eq_true, false_or]
      by_cases hname : keyBuf 64 h.1 = name
      · simp only [hname, ne_eq, not_true_eq_false, if_false, decide_true]
        exact hgot hs ⟨name, keyBuf (BJM_SUBJECT_MAX + 1) h.2, true⟩ rfl
      · simp only [hname, ne_eq, not_false_eq_true, if_true, decide_false]
        exact ih ⟨keyBuf 64 h.1, g.value, false⟩ rfl
  obtain ⟨key, hrun⟩ := hfind hs ⟨[], [], false⟩ rfl
  have hall : (headerVisits hs).foldl (hgVisit name) ⟨[], [], false⟩ =
      (hs.flatMap fun h => [Visit.key h.1, .string h.2]).foldl (hgVisit name) ⟨[], [], false⟩ := by
    simp only [headerVisits, List.cons_append, List.foldl_cons, List.foldl_append, List.foldl_nil,
      hgVisit]
  simp only [headerValue, h.headers, hall, hrun]
  cases hs.find? fun h => keyBuf 64 h.1 = name <;> simp

theorem split_envelope (hV : V.WalksWire consumed) (hsized : (Wire.envelope hs s).Sized) :
    bjmEnvelopeSplit V (Wire.envelope hs s).bytes =
      some ⟨(Wire.headers hs).bytes, (Wire.text s).bytes⟩ :=
  (split_array hV hsized.2.2 _).mpr ⟨_, _, rfl, rfl⟩

theorem keyBuf_eq_self {cap : ℕ} {k : Bytes} (hk : k.length < cap) (h0 : 0 ∉ k) :
    keyBuf cap k = k := by
  rw [keyBuf, List.take_of_length_le (by omega), takeWhile_of_notMem h0]

theorem length_bytes_text (s : ShortText) : (Wire.text s).bytes.length = s.1.length + 5 := by
  rw [Wire.bytes_text]
  simp only [encode, List.foldl_cons, List.foldl_nil, Builder.put, Builder.value, List.nil_append,
    List.length_cons, List.length_append, length_le]
  omega

theorem sized_envelope (hhs : hs.length ≤ 2)
    (hshort : ∀ h ∈ hs, h.1.length + h.2.1.length ≤ 200) (hs' : s.1.length + 2 ^ 9 < 2 ^ 32) :
    (Wire.envelope hs s).Sized := by
  have hpairs : ∀ hs : List (Bytes × ShortText), (∀ h ∈ hs, h.1.length + h.2.1.length ≤ 200) →
      (Wire.bytesOfPairs (hs.map fun h => (h.1, .text h.2))).length ≤ hs.length * 209 ∧
        Wire.SizedPairs (hs.map fun h => (h.1, .text h.2)) := by
    intro hs
    induction hs with
    | nil => exact fun _ => ⟨Nat.le_refl 0, trivial⟩
    | cons h hs ih =>
      intro hshort
      have hone := hshort h List.mem_cons_self
      obtain ⟨hlen, hsized⟩ := ih fun h hh => hshort h (List.mem_cons_of_mem _ hh)
      refine ⟨?_, ?_, trivial, hsized⟩
      · simp only [List.map_cons, Wire.bytesOfPairs, List.length_append, length_le,
          length_bytes_text, List.length_cons]
        omega
      · exact Nat.lt_of_le_of_lt (Nat.le_trans (Nat.le_add_right _ _) hone) (by decide)
  obtain ⟨hlen, hsized⟩ := hpairs hs hshort
  have hheaders : (Wire.headers hs).bytes.length =
      arrayHeader + (Wire.bytesOfPairs (hs.map fun h => (h.1, .text h.2))).length :=
    length_boxed_header ..
  have hheader : arrayHeader = 9 := rfl
  have hbound : hs.length * 209 ≤ 418 := by omega
  refine ⟨by simp, ?_, ⟨?_, ?_, hsized⟩, trivial, trivial⟩
  · simp only [Wire.bytesOfItems, List.length_append, List.length_nil, length_bytes_text, hheaders]
    omega
  · rw [List.length_map]
    omega
  · omega

theorem countOf_envelope (hs : List (Bytes × ShortText)) (s : ShortText) :
    countOf (Wire.envelope hs s).callbacks = hs.length + 3 := by
  have hpairs : ∀ hs : List (Bytes × ShortText),
      countOf (Wire.callbacksOfPairs (hs.map fun h => (h.1, .text h.2))) = hs.length := by
    intro hs
    induction hs with
    | nil => rfl
    | cons h hs ih =>
      have hone : countOf (Wire.text h.2).callbacks = 1 := Wire.countOf_leaf _
      rw [List.map_cons, Wire.callbacksOfPairs, countOf_cons_of_neg (by decide), countOf_append,
        hone, ih, List.length_cons, Nat.add_comm]
  have htext : countOf (Wire.text s).callbacks = 1 := Wire.countOf_leaf _
  have hends : countOf [Callback.objectEnd] = 0 ∧ countOf [Callback.arrayEnd] = 0 ∧
      countOf ([] : List Callback) = 0 := ⟨rfl, rfl, rfl⟩
  rw [Wire.envelope, Wire.headers, Wire.callbacks, countOf_cons_of_pos rfl]
  simp only [Wire.callbacksOfItems, countOf_append, htext, hends]
  rw [Wire.callbacks, countOf_cons_of_pos rfl, countOf_append, hpairs, hends.1]

theorem Reads.passes (hr : Reads V decode hs s) (hV : V.WalksWire consumed) (hhs : hs.length ≤ 2)
    (hsized : (Wire.envelope hs s).Sized) :
    (Wire.envelope hs s).bytes ≠ [] ∧
      V.valueSize (Wire.envelope hs s).bytes = some (Wire.envelope hs s).bytes.length ∧
      bjmEnvelopeShapeOk V (Wire.envelope hs s).bytes = true := by
  refine ⟨Wire.bytes_ne_nil _, ?_, ?_⟩
  · have hsize := hV.sizes _ [] hsized
    rwa [List.append_nil] at hsize
  · simp only [bjmEnvelopeShapeOk, hr.shape, beq_iff_eq]
    refine (shape_iff hsized).mpr ⟨⟨_, _, rfl⟩, countLasts_of_le ?_⟩
    rw [countOf_envelope]
    omega

end

end SukkalMsg
