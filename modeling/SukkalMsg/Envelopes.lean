import SukkalMsg.MessageSurvival

/-!
# The shape of an envelope, and its two halves

The broker checks an envelope on the flat sequence of callbacks, to which every nested value
contributes; a subscriber takes it apart by the sizes of its elements. Both say of a value
what its outermost structure is.
-/

namespace SukkalMsg

open Binjson PyBinjson PyProtocol

/-- A value without elements. -/
inductive Leaf where
  | null
  | bool (t : Bool)
  | int (w : {w : Bytes // w.length = 8})
  | float (w : {w : Bytes // w.length = 8})
  | date (w : {w : Bytes // w.length = 8})
  | pointer (w : {w : Bytes // w.length = 8})
  | oid (w : {w : Bytes // w.length = 12})
  | string (raw : {raw : Bytes // raw.length < 2 ^ 32})
  | binary (raw : {raw : Bytes // raw.length < 2 ^ 32})

/-- A value on the wire. -/
inductive Wire where
  | leaf (l : Leaf)
  | array (items : List Wire)
  | object (pairs : List (Bytes × Wire))

namespace Leaf

def bytes : Leaf → Bytes
  | null => [TYPE.NULL]
  | bool t => [if t then TYPE.TRUE else TYPE.FALSE]
  | int w => TYPE.INT :: w
  | float w => TYPE.FLOAT :: w
  | date w => TYPE.DATE :: w
  | pointer w => TYPE.POINTER :: w
  | oid w => TYPE.OID :: w
  | string raw => TYPE.STRING :: (le 4 raw.1.length ++ raw)
  | binary raw => TYPE.BINARY :: (le 4 raw.1.length ++ raw)

def callback : Leaf → Callback
  | null => .null
  | bool _ => .bool
  | int _ => .int
  | float _ => .float
  | date _ => .date
  | pointer _ => .pointer
  | oid _ => .oid
  | string _ => .string
  | binary _ => .binary

end Leaf

namespace Wire

mutual

def bytes : Wire → Bytes
  | leaf l => l.bytes
  | array items => boxed TYPE.ARRAY items.length (bytesOfItems items)
  | object pairs => boxed TYPE.OBJECT pairs.length (bytesOfPairs pairs)

def bytesOfItems : List Wire → Bytes
  | [] => []
  | w :: ws => w.bytes ++ bytesOfItems ws

def bytesOfPairs : List (Bytes × Wire) → Bytes
  | [] => []
  | (k, w) :: ps => le 4 k.length ++ (k ++ (w.bytes ++ bytesOfPairs ps))

end

mutual

/-- What a visitor is told of the value. -/
def callbacks : Wire → List Callback
  | leaf l => [l.callback]
  | array items => .arrayBegin items.length :: (callbacksOfItems items ++ [.arrayEnd])
  | object pairs => .objectBegin pairs.length :: (callbacksOfPairs pairs ++ [.objectEnd])

def callbacksOfItems : List Wire → List Callback
  | [] => []
  | w :: ws => w.callbacks ++ callbacksOfItems ws

def callbacksOfPairs : List (Bytes × Wire) → List Callback
  | [] => []
  | (_, w) :: ps => .key :: (w.callbacks ++ callbacksOfPairs ps)

end

mutual

/-- Every size and count fits its four bytes. -/
def Sized : Wire → Prop
  | leaf _ => True
  | array items => items.length < 2 ^ 32 ∧ 4 + (bytesOfItems items).length < 2 ^ 32 ∧
      SizedItems items
  | object pairs => pairs.length < 2 ^ 32 ∧ 4 + (bytesOfPairs pairs).length < 2 ^ 32 ∧
      SizedPairs pairs

def SizedItems : List Wire → Prop
  | [] => True
  | w :: ws => w.Sized ∧ SizedItems ws

def SizedPairs : List (Bytes × Wire) → Prop
  | [] => True
  | (k, w) :: ps => k.length < 2 ^ 32 ∧ w.Sized ∧ SizedPairs ps

end

end Wire

/-- The halves `bjm_envelope_split` points at. -/
structure Halves where
  headers : Bytes
  message : Bytes
  deriving DecidableEq

def arrayHeader : ℕ := 1 + 4 + 4

def bjmEnvelopeSplit (V : Vendor) (data : Bytes) : Option Halves :=
  if data.length ≤ arrayHeader ∨ data.head? ≠ some TYPE.ARRAY then none
  else
    match V.valueSize (data.drop arrayHeader) with
    | none => none
    | some s0 =>
      if data.length ≤ arrayHeader + s0 then none
      else
        match V.valueSize (data.drop (arrayHeader + s0)) with
        | none => none
        | some s1 =>
          if arrayHeader + s0 + s1 ≠ data.length then none
          else some ⟨(data.drop arrayHeader).take s0, (data.drop (arrayHeader + s0)).take s1⟩

/-- `bj_decode` walks a value and tells its visitor of it; `bj_value_size` agrees on how long
the value is, whatever stands behind it. -/
structure Vendor.WalksWire (V : Vendor) (consumed : Bytes → ℕ) : Prop where
  walks : ∀ {data cbs}, V.callbacks data = some cbs →
    ∃ w : Wire, w.Sized ∧ data.take (consumed data) = w.bytes ∧ cbs = w.callbacks
  sizes : ∀ (w : Wire) (rest : Bytes), w.Sized → V.valueSize (w.bytes ++ rest) = some w.bytes.length

/-- The data is this value, and `bj_decode` says so. -/
structure Wire.Decoded (V : Vendor) (data : Bytes) (w : Wire) : Prop where
  sized : w.Sized
  bytes : data = w.bytes
  callbacks : V.callbacks data = some w.callbacks

/-! ### The callbacks -/

variable {V : Vendor} {consumed : Bytes → ℕ} {data : Bytes} {w : Wire}

theorem Wire.callbacks_cons (w : Wire) : ∃ cb rest, w.callbacks = cb :: rest ∧
    cb.counted = true ∧ ((∃ n, cb = .objectBegin n) ↔ ∃ pairs, w = .object pairs) := by
  cases w with
  | leaf l => cases l <;> exact ⟨_, [], rfl, rfl, by simp [Leaf.callback]⟩
  | array items => exact ⟨_, _, rfl, rfl, by simp⟩
  | object pairs => exact ⟨_, _, rfl, rfl, by simp⟩

theorem Leaf.length_bytes_pos (l : Leaf) : 0 < l.bytes.length := by
  cases l <;> simp [Leaf.bytes]

theorem Wire.countOf_leaf (l : Leaf) : countOf (Wire.leaf l).callbacks = 1 := by
  cases l <;> rfl

theorem length_boxed_header (kind : UInt8) (count : ℕ) (content : Bytes) :
    (boxed kind count content).length = arrayHeader + content.length := by
  simp only [boxed, List.length_cons, List.length_append, length_le, arrayHeader]
  omega

mutual

theorem Wire.countOf_callbacks_le (w : Wire) : countOf w.callbacks ≤ w.bytes.length := by
  match w with
  | .leaf l =>
    rw [Wire.countOf_leaf]
    exact l.length_bytes_pos
  | .array items =>
    have hle := Wire.countOf_callbacksOfItems_le items
    have hend : countOf [Callback.arrayEnd] = 0 := rfl
    have hheader : arrayHeader = 9 := rfl
    rw [callbacks, countOf_cons_of_pos rfl, countOf_append, Wire.bytes, length_boxed_header]
    omega
  | .object pairs =>
    have hle := Wire.countOf_callbacksOfPairs_le pairs
    have hend : countOf [Callback.objectEnd] = 0 := rfl
    have hheader : arrayHeader = 9 := rfl
    rw [callbacks, countOf_cons_of_pos rfl, countOf_append, Wire.bytes, length_boxed_header]
    omega

theorem Wire.countOf_callbacksOfItems_le (ws : List Wire) :
    countOf (callbacksOfItems ws) ≤ (bytesOfItems ws).length := by
  match ws with
  | [] => exact Nat.zero_le _
  | w :: ws =>
    have hw := Wire.countOf_callbacks_le w
    have hws := Wire.countOf_callbacksOfItems_le ws
    rw [callbacksOfItems, countOf_append, bytesOfItems, List.length_append]
    omega

theorem Wire.countOf_callbacksOfPairs_le (ps : List (Bytes × Wire)) :
    countOf (callbacksOfPairs ps) ≤ (bytesOfPairs ps).length := by
  match ps with
  | [] => exact Nat.zero_le _
  | (k, w) :: ps =>
    have hw := Wire.countOf_callbacks_le w
    have hps := Wire.countOf_callbacksOfPairs_le ps
    rw [callbacksOfPairs, countOf_cons_of_neg (by decide), countOf_append, bytesOfPairs]
    simp only [List.length_append]
    omega

end

theorem Wire.Sized.countOf_lt (h : w.Sized) : countOf w.callbacks < 2 ^ 32 := by
  cases w with
  | leaf l =>
    rw [Wire.countOf_leaf]
    decide
  | array items =>
    obtain ⟨-, hlen, -⟩ := h
    have hle := Wire.countOf_callbacksOfItems_le items
    have hend : countOf [Callback.arrayEnd] = 0 := rfl
    rw [Wire.callbacks, countOf_cons_of_pos rfl, countOf_append]
    omega
  | object pairs =>
    obtain ⟨-, hlen, -⟩ := h
    have hle := Wire.countOf_callbacksOfPairs_le pairs
    have hend : countOf [Callback.objectEnd] = 0 := rfl
    rw [Wire.callbacks, countOf_cons_of_pos rfl, countOf_append]
    omega

theorem shape_second {cb : Callback} (hcb : cb.counted = true)
    (hobj : ¬ ∃ n, cb = .objectBegin n) :
    ∃ ok, ok ≠ 2 ∧ shapeVisit ⟨1, 1⟩ cb = ⟨seenAfter 2, ok⟩ := by
  cases cb <;> simp [shapeVisit, Shape.next, seenAfter, Callback.counted] at hcb hobj ⊢

/-- The check on the flat callbacks is one on the value's own structure, and on the count. -/
theorem shape_iff (h : w.Sized) :
    (w.callbacks.foldl shapeVisit ⟨0, 0⟩).ok = 2 ↔
      (∃ pairs m, w = .array [.object pairs, m]) ∧ CountLasts w.callbacks := by
  have hcount := h.countOf_lt
  cases w with
  | leaf l =>
    refine iff_of_false ?_ ?_
    · cases l <;> simp [Wire.callbacks, Leaf.callback, shapeVisit]
    · rintro ⟨⟨pairs, m, hw⟩, -⟩
      cases hw
  | object pairs =>
    rw [Wire.callbacks, countOf_cons_of_pos rfl] at hcount
    refine iff_of_false ?_ ?_
    · have hstart : shapeVisit ⟨0, 0⟩ (.objectBegin pairs.length) = ⟨seenAfter 1, 0⟩ := rfl
      rw [Wire.callbacks, List.foldl_cons, hstart, shape_spoiled (by decide) (by omega)]
      decide
    · rintro ⟨⟨pairs, m, hw⟩, -⟩
      cases hw
  | array items =>
    by_cases htwo : items.length = 2
    · obtain ⟨v, m, rfl⟩ := List.length_eq_two.mp htwo
      obtain ⟨cb, rest, hcb, hcounted, hobj⟩ := v.callbacks_cons
      have hall : (Wire.array [v, m]).callbacks = .arrayBegin 2 :: cb ::
          (rest ++ (m.callbacks ++ []) ++ [.arrayEnd]) := by
        simp only [Wire.callbacks, Wire.callbacksOfItems, hcb]
        rfl
      rw [hall] at hcount ⊢
      by_cases ho : ∃ n, cb = .objectBegin n
      · obtain ⟨pairs, rfl⟩ := hobj.mp ho
        obtain ⟨n, rfl⟩ := ho
        rw [shape_pair (by omega)]
        split_ifs with hlasts
        · exact iff_of_true rfl ⟨⟨_, _, rfl⟩, hlasts⟩
        · exact iff_of_false (by decide) fun hn => hlasts hn.2
      · obtain ⟨ok, hok, hsecond⟩ := shape_second hcounted ho
        rw [countOf_cons_of_pos rfl, countOf_cons_of_pos hcounted] at hcount
        have hstart : shapeVisit ⟨0, 0⟩ (.arrayBegin 2) = ⟨1, 1⟩ := rfl
        rw [List.foldl_cons, hstart, List.foldl_cons, hsecond,
          shape_settled (Nat.le_refl 2) (by omega)]
        refine iff_of_false ?_ ?_
        · split_ifs
          · exact hok
          · decide
        · rintro ⟨⟨pairs, m', hw⟩, -⟩
          obtain ⟨rfl, -⟩ := List.cons.inj (Wire.array.inj hw)
          exact ho (hobj.mpr ⟨pairs, rfl⟩)
    · have hstart : shapeVisit ⟨0, 0⟩ (.arrayBegin items.length) = ⟨seenAfter 1, 0⟩ := by
        simp [shapeVisit, htwo, Shape.next, seenAfter]
      rw [Wire.callbacks, countOf_cons_of_pos rfl] at hcount
      refine iff_of_false ?_ ?_
      · rw [Wire.callbacks, List.foldl_cons, hstart, shape_spoiled (by decide) (by omega)]
        decide
      · rintro ⟨⟨pairs, m, hw⟩, -⟩
        exact absurd (by rw [Wire.array.inj hw]; rfl) htwo

/-! ### The sizes -/

theorem Wire.bytes_ne_nil (w : Wire) : w.bytes ≠ [] := by
  cases w with
  | leaf l => cases l <;> simp [Wire.bytes, Leaf.bytes]
  | array items => simp [Wire.bytes, boxed]
  | object pairs => simp [Wire.bytes, boxed]

theorem Leaf.head_bytes (l : Leaf) : l.bytes.head? ≠ some TYPE.ARRAY := by
  cases l with
  | bool t => cases t <;> exact fun h => absurd (Option.some.inj h) (by decide)
  | _ => exact fun h => absurd (Option.some.inj h) (by decide)

theorem Wire.length_bytes_pos (w : Wire) : 0 < w.bytes.length :=
  List.length_pos_iff.mpr w.bytes_ne_nil

theorem drop_header (kind : UInt8) (count : ℕ) (content : Bytes) (n : ℕ) :
    (boxed kind count content).drop (arrayHeader + n) = content.drop n := by
  have hhead : boxed kind count content =
      (kind :: (le 4 (4 + content.length) ++ le 4 count)) ++ content := by simp [boxed]
  have hlen : (kind :: (le 4 (4 + content.length) ++ le 4 count)).length = arrayHeader := by
    simp [length_le, arrayHeader]
  rw [hhead, ← hlen, List.drop_length_add_append]

/-- The elements of an array, taken apart by their sizes. -/
theorem split_array (hV : V.WalksWire consumed) {items : List Wire} (hs : Wire.SizedItems items)
    (e : Halves) :
    bjmEnvelopeSplit V (Wire.array items).bytes = some e ↔
      ∃ v₀ v₁, items = [v₀, v₁] ∧ e = ⟨v₀.bytes, v₁.bytes⟩ := by
  have hhead : (Wire.array items).bytes.head? = some TYPE.ARRAY := rfl
  have hlen : (Wire.array items).bytes.length =
      arrayHeader + (Wire.bytesOfItems items).length := length_boxed_header ..
  have hdrop : ∀ n, (Wire.array items).bytes.drop (arrayHeader + n) =
      (Wire.bytesOfItems items).drop n := drop_header _ _ _
  have hdrop₀ := hdrop 0
  rw [Nat.add_zero, List.drop_zero] at hdrop₀
  match items with
  | [] =>
    simp [bjmEnvelopeSplit, hlen, Wire.bytesOfItems]
  | v :: ws =>
    have hv := v.length_bytes_pos
    have hsize : V.valueSize (Wire.bytesOfItems (v :: ws)) = some v.bytes.length :=
      hV.sizes v _ hs.1
    have hlong : ¬ (Wire.array (v :: ws)).bytes.length ≤ arrayHeader := by
      rw [hlen, Wire.bytesOfItems, List.length_append]
      omega
    match ws with
    | [] =>
      have hend : (Wire.array [v]).bytes.length ≤ arrayHeader + v.bytes.length := by
        rw [hlen, Wire.bytesOfItems, Wire.bytesOfItems, List.append_nil]
      simp [bjmEnvelopeSplit, hhead, hdrop₀, hsize, hend]
    | m :: rest =>
      have hm := m.length_bytes_pos
      have hsecond : (Wire.bytesOfItems (v :: m :: rest)).drop v.bytes.length =
          m.bytes ++ Wire.bytesOfItems rest := List.drop_left' rfl
      have hsize₁ : V.valueSize (m.bytes ++ Wire.bytesOfItems rest) = some m.bytes.length :=
        hV.sizes m _ hs.2.1
      have hmore : ¬ (Wire.array (v :: m :: rest)).bytes.length ≤ arrayHeader + v.bytes.length := by
        rw [hlen, Wire.bytesOfItems, Wire.bytesOfItems, List.length_append, List.length_append]
        omega
      have hfirst : (Wire.bytesOfItems (v :: m :: rest)).take v.bytes.length = v.bytes :=
        List.take_left' rfl
      have hall : arrayHeader + v.bytes.length + m.bytes.length =
          (Wire.array (v :: m :: rest)).bytes.length ↔ rest = [] := by
        rw [hlen, Wire.bytesOfItems, Wire.bytesOfItems, List.length_append, List.length_append]
        cases rest with
        | nil => simp [Wire.bytesOfItems, Nat.add_assoc]
        | cons x xs =>
          have hx := x.length_bytes_pos
          rw [Wire.bytesOfItems, List.length_append]
          simp only [reduceCtorEq, iff_false]
          omega
      simp only [bjmEnvelopeSplit, hlong, hhead, ne_eq, not_true_eq_false, or_self, if_false,
        hdrop₀, hsize, hmore, hdrop, hsecond, hsize₁, hall, hfirst, List.take_left' rfl]
      by_cases hrest : rest = []
      · subst hrest
        simp [eq_comm]
      · simp [hrest]

theorem split_iff (hV : V.WalksWire consumed) (h : w.Decoded V data) (e : Halves) :
    bjmEnvelopeSplit V data = some e ↔ ∃ v₀ v₁, w = .array [v₀, v₁] ∧ e = ⟨v₀.bytes, v₁.bytes⟩ := by
  rw [h.bytes]
  cases w with
  | leaf l =>
    have hhead : (Wire.leaf l).bytes.head? ≠ some TYPE.ARRAY := l.head_bytes
    simp [bjmEnvelopeSplit, hhead]
  | object pairs =>
    have hhead : (Wire.object pairs).bytes.head? ≠ some TYPE.ARRAY :=
      fun hh => absurd (Option.some.inj hh) (by decide)
    simp [bjmEnvelopeSplit, hhead]
  | array items =>
    rw [split_array hV h.sized.2.2]
    simp

/-- What the check and the splitter make of a value. -/
structure Wire.Enveloped (V : Vendor) (data : Bytes) (w : Wire) : Prop where
  shape : bjmEnvelopeShapeOk V data = true ↔ ∃ pairs m, w = .array [.object pairs, m]
  splits : ∀ pairs m, w = .array [.object pairs, m] →
    bjmEnvelopeSplit V data = some ⟨(Wire.object pairs).bytes, m.bytes⟩ ∧
      data = data.take arrayHeader ++ ((Wire.object pairs).bytes ++ m.bytes)
  only : ∀ e, bjmEnvelopeSplit V data = some e → ∃ v₀ v₁, w = .array [v₀, v₁]

/-- The count of the values lasts to the end of an array of two opening with an object. -/
def Wire.Countable (w : Wire) : Prop :=
  (∃ pairs m, w = .array [.object pairs, m]) → CountLasts w.callbacks

/-- What `bj_decode` walks to its end is a value. It passes the check exactly when it is an array
of two opening with an object, and is then taken apart into these two, and nothing but an array
of two is ever taken apart: if, and only if, the count of its values lasts. -/
theorem checked_envelope_splits_iff (hV : V.WalksWire consumed) {cbs : List Callback}
    (hdec : V.callbacks data = some cbs) (hall : consumed data = data.length) :
    (∃ w, Wire.Decoded V data w) ∧
      ∀ w, Wire.Decoded V data w → (w.Enveloped V data ↔ w.Countable) := by
  constructor
  · obtain ⟨w, hsized, hbytes, hcbs⟩ := hV.walks hdec
    rw [hall, List.take_length] at hbytes
    exact ⟨w, hsized, hbytes, hcbs ▸ hdec⟩
  · intro w h
    have hshape : bjmEnvelopeShapeOk V data = true ↔
        (∃ pairs m, w = .array [.object pairs, m]) ∧ CountLasts w.callbacks := by
      simp only [bjmEnvelopeShapeOk, h.callbacks, beq_iff_eq]
      exact shape_iff h.sized
    constructor
    · exact fun he hw => (hshape.mp (he.shape.mpr hw)).2
    · intro hc
      refine ⟨hshape.trans (and_iff_left_of_imp hc), ?_, ?_⟩
      · rintro pairs m rfl
        refine ⟨(split_iff hV h _).mpr ⟨_, _, rfl, rfl⟩, ?_⟩
        have hdrop := drop_header TYPE.ARRAY 2 (Wire.bytesOfItems [.object pairs, m]) 0
        have hrest : data.drop arrayHeader = (Wire.object pairs).bytes ++ m.bytes := by
          rw [h.bytes]
          simpa [Wire.bytes, Wire.bytesOfItems] using hdrop
        rw [← hrest, List.take_append_drop]
      · intro e he
        obtain ⟨v₀, v₁, hw, -⟩ := (split_iff hV h e).mp he
        exact ⟨v₀, v₁, hw⟩

theorem valueSize_cons (kind : UInt8) (body : Bytes) :
    PyBinjson.valueSize (kind :: body) 0 = kindSize (kind :: body) kind 0 := by
  simp [PyBinjson.valueSize, need, bind, Except.bind]

theorem valueSize_framed {kind : UInt8} {n : ℕ} (body : Bytes) (hn : n < 2 ^ 32)
    (hkind : kind = TYPE.STRING ∨ kind = TYPE.BINARY ∨ kind = TYPE.ARRAY ∨ kind = TYPE.OBJECT) :
    PyBinjson.valueSize (kind :: (le 4 n ++ body)) 0 = .ok (1 + 4 + n) := by
  have hread : Reads ([kind] ++ (le 4 n ++ body)) 1 (le 4 n) := Reads.prefixed [kind] body
  have hsize := hread.u32 hn
  have hrule : kindSize ([kind] ++ (le 4 n ++ body)) kind 0 =
      u32 ([kind] ++ (le 4 n ++ body)) 1 >>= fun read => pure (1 + 4 + read.1) := by
    rcases hkind with rfl | rfl | rfl | rfl <;> rfl
  rw [valueSize_cons]
  refine hrule.trans ?_
  rw [hsize]
  rfl

theorem valueSize_bytes (w : Wire) (hs : w.Sized) :
    PyBinjson.valueSize w.bytes 0 = .ok w.bytes.length := by
  have hboxed : ∀ content : Bytes,
      arrayHeader + content.length = 1 + 4 + (4 + content.length) := fun _ => by
    simp only [arrayHeader]
    omega
  have hraw : ∀ (kind : UInt8) (raw : Bytes),
      (kind :: (le 4 raw.length ++ raw)).length = 1 + 4 + raw.length := fun _ _ => by
    simp only [List.length_cons, List.length_append, length_le]
    omega
  cases w with
  | leaf l =>
    cases l with
    | null => rfl
    | bool t => cases t <;> rfl
    | int w | float w | date w | pointer w | oid w =>
      rw [Wire.bytes, Leaf.bytes, valueSize_cons, List.length_cons, w.2]
      rfl
    | string raw =>
      rw [Wire.bytes, Leaf.bytes, hraw]
      exact valueSize_framed _ raw.2 (.inl rfl)
    | binary raw =>
      rw [Wire.bytes, Leaf.bytes, hraw]
      exact valueSize_framed _ raw.2 (.inr (.inl rfl))
  | array items =>
    rw [Wire.bytes, length_boxed_header, hboxed, boxed]
    exact valueSize_framed _ hs.2.1 (.inr (.inr (.inl rfl)))
  | object pairs =>
    rw [Wire.bytes, length_boxed_header, hboxed, boxed]
    exact valueSize_framed _ hs.2.1 (.inr (.inr (.inr rfl)))

/-- A decoder that knows one value, and sizes by the rule. -/
def soleVendor (w : Wire) : Vendor :=
  { sizedVendor with callbacks := fun data => if data = w.bytes then some w.callbacks else none }

theorem soleVendor_walks (h : w.Sized) : (soleVendor w).WalksWire List.length := by
  constructor
  · intro data cbs hcbs
    simp only [soleVendor] at hcbs
    split at hcbs
    · rename_i hdata
      subst hdata
      exact ⟨w, h, List.take_length, (Option.some.inj hcbs).symm⟩
    · contradiction
  · intro w' rest hs
    have hsize := PyBinjson.valueSize_append rest (valueSize_bytes w' hs)
    simp only [soleVendor, sizedVendor, hsize]
    rfl

theorem soleVendor_decodes (h : w.Sized) : w.Decoded (soleVendor w) w.bytes :=
  ⟨h, rfl, by simp [soleVendor]⟩

/-- `[{}, [null, null, ..]]` -/
def crowdedEnvelope (n : ℕ) : Wire :=
  .array [.object [], .array (List.replicate n (.leaf .null))]

section

variable {n : ℕ}

theorem crowdedEnvelope_sized (hn : n + 2 ^ 6 < 2 ^ 32) : (crowdedEnvelope n).Sized := by
  have hnulls : (Wire.bytesOfItems (List.replicate n (.leaf .null))).length = n ∧
      Wire.SizedItems (List.replicate n (.leaf .null)) := by
    clear hn
    induction n with
    | zero => exact ⟨rfl, trivial⟩
    | succ n ih => exact ⟨by simp [List.replicate_succ, Wire.bytesOfItems, Wire.bytes, Leaf.bytes,
        ih.1], trivial, ih.2⟩
  obtain ⟨hlen, hsized⟩ := hnulls
  have hinner : (Wire.array (List.replicate n (.leaf .null))).bytes.length = 9 + n := by
    rw [Wire.bytes, length_boxed, hlen]
  refine ⟨by simp, ?_, ⟨by decide, by decide, trivial⟩, ⟨?_, ?_, hsized⟩, trivial⟩
  · have hobject : (Wire.object []).bytes.length = 9 := rfl
    simp only [Wire.bytesOfItems, List.length_append, hobject, hinner, List.length_nil]
    omega
  · rw [List.length_replicate]
    omega
  · omega

theorem crowdedEnvelope_overruns (hn : 2 ^ 31 ≤ n + 2) :
    ¬ CountLasts (crowdedEnvelope n).callbacks := by
  have hnulls : (Wire.callbacksOfItems (List.replicate n (.leaf .null))).filter Callback.counted =
      List.replicate n .null := by
    clear hn
    induction n with
    | zero => rfl
    | succ n ih =>
      rw [List.replicate_succ, List.replicate_succ, ← ih]
      rfl
  have hcounted : (crowdedEnvelope n).callbacks.filter Callback.counted =
      [.arrayBegin 2, .objectBegin 0, .arrayBegin n] ++ List.replicate n .null := by
    have hbegin : (Callback.arrayBegin (List.replicate n (Wire.leaf .null)).length) =
        .arrayBegin n := by rw [List.length_replicate]
    simp only [crowdedEnvelope, Wire.callbacks, Wire.callbacksOfItems, Wire.callbacksOfPairs,
      hbegin, List.filter_append, List.cons_append, List.nil_append, List.append_nil,
      List.filter_cons, hnulls, Callback.counted]
    simp
  intro h
  have hlast : Callback.null ∈
      ((crowdedEnvelope n).callbacks.filter Callback.counted).drop (2 ^ 31) := by
    rw [hcounted, List.drop_append, List.mem_append, List.drop_replicate, List.mem_replicate]
    exact .inr ⟨by simp only [List.length_cons, List.length_nil]; omega, rfl⟩
  exact absurd (h _ hlast) (by decide)

/-- Nulls enough, and an envelope is taken for none, though it comes apart. -/
theorem crowdedEnvelope_refused :
    (soleVendor (crowdedEnvelope (2 ^ 31 - 2))).WalksWire List.length ∧
      (crowdedEnvelope (2 ^ 31 - 2)).Decoded (soleVendor (crowdedEnvelope (2 ^ 31 - 2)))
        (crowdedEnvelope (2 ^ 31 - 2)).bytes ∧
      ¬ (crowdedEnvelope (2 ^ 31 - 2)).Enveloped (soleVendor (crowdedEnvelope (2 ^ 31 - 2)))
        (crowdedEnvelope (2 ^ 31 - 2)).bytes := by
  have hsized : (crowdedEnvelope (2 ^ 31 - 2)).Sized := crowdedEnvelope_sized (by decide)
  have hdecoded := soleVendor_decodes hsized
  have hall := (checked_envelope_splits_iff (soleVendor_walks hsized) hdecoded.callbacks rfl).2
  refine ⟨soleVendor_walks hsized, hdecoded, fun he => ?_⟩
  exact crowdedEnvelope_overruns (by decide) ((hall _ hdecoded).mp he ⟨_, _, rfl⟩)

end

/-- `[{}, [null]]`: no headers, and an array for a message. -/
theorem bareEnvelope_splits :
    (∃ w, Wire.Decoded (soleVendor (crowdedEnvelope 1)) (crowdedEnvelope 1).bytes w) ∧
      (crowdedEnvelope 1).Enveloped (soleVendor (crowdedEnvelope 1)) (crowdedEnvelope 1).bytes := by
  have hsized : (crowdedEnvelope 1).Sized := crowdedEnvelope_sized (by decide)
  have hdecoded := soleVendor_decodes hsized
  obtain ⟨hsome, hiff⟩ :=
    checked_envelope_splits_iff (soleVendor_walks hsized) hdecoded.callbacks rfl
  exact ⟨hsome, (hiff _ hdecoded).mpr fun _ => countLasts_of_le (by decide)⟩

end SukkalMsg
