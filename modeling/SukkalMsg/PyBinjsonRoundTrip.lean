import SukkalMsg.PyBinjson

/-!
# The Python codec is faithful

What `encode` writes is read back, wherever it stands in a buffer; it says its own
size in its first bytes, and so no encoding begins another one. The decoder's side
needs no encoder: whatever it accepts at an offset is as long as `value_size` says.
-/

namespace SukkalMsg.PyBinjson

open Binjson

variable {D : Type} {P : PyRuntime D} {view b b' : Bytes} {offset next n fuel : ℕ}

theorem bind_eq_ok {α β : Type} {x : Except PyError α} {f : α → Except PyError β} {r : β} :
    (x >>= f) = .ok r ↔ ∃ a, x = .ok a ∧ f a = .ok r := by
  cases x <;> simp [bind, Except.bind]

theorem bind_eq_error {α β : Type} {x : Except PyError α} {f : α → Except PyError β}
    {e : PyError} :
    (x >>= f) = .error e ↔ x = .error e ∨ ∃ a, x = .ok a ∧ f a = .error e := by
  cases x <;> simp [bind, Except.bind]

theorem need_eq_ok {what : String} {u : Unit} :
    need view offset n what = .ok u ↔ offset + n ≤ view.length := by
  simp only [need]
  split
  · simp
    omega
  · simp
    omega

theorem u32_eq_ok {r : ℕ × ℕ} :
    u32 view offset = .ok r ↔
      offset + 4 ≤ view.length ∧ r = (leValue (slice view offset 4), offset + 4) := by
  simp only [u32, bind_eq_ok, need_eq_ok, pure, Except.pure, Except.ok.injEq, exists_const,
    eq_comm (a := r)]

theorem packU32_eq_ok : packU32 n = .ok b ↔ n < 2 ^ 32 ∧ b = le 4 n := by
  simp only [packU32]
  split
  · rename_i h
    simp only [h, Except.ok.injEq, true_and, eq_comm]
  · rename_i h
    exact iff_of_false nofun fun h' => h h'.1

/-! ### What stands at an offset -/

/-- These bytes stand in the buffer at the offset. -/
structure Reads (view : Bytes) (offset : ℕ) (b : Bytes) : Prop where
  inside : offset + b.length ≤ view.length
  bytes : slice view offset b.length = b

namespace Reads

theorem append_iff :
    Reads view offset (b ++ b') ↔ Reads view offset b ∧ Reads view (offset + b.length) b' := by
  have hsplit : slice view offset (b ++ b').length =
      slice view offset b.length ++ slice view (offset + b.length) b'.length := by
    simp only [slice, List.length_append, List.take_add, List.drop_drop]
  constructor
  · rintro ⟨hin, hb⟩
    have hlen : (b ++ b').length = b.length + b'.length := List.length_append
    have hlb : (slice view offset b.length).length = b.length := by
      simp only [slice, List.length_take, List.length_drop]
      omega
    rw [hsplit] at hb
    obtain ⟨h, h'⟩ := List.append_inj hb hlb
    exact ⟨⟨by omega, h⟩, by omega, h'⟩
  · rintro ⟨⟨-, h⟩, hin, h'⟩
    refine ⟨?_, by rw [hsplit, h, h']⟩
    rw [List.length_append]
    omega

theorem prefixed (pre rest : Bytes) : Reads (pre ++ (b ++ rest)) pre.length b := by
  refine ⟨?_, ?_⟩
  · simp only [List.length_append]
    omega
  · simp [slice]

theorem need (h : Reads view offset b) (hn : n ≤ b.length) (what : String) :
    need view offset n what = .ok () :=
  need_eq_ok.mpr (by have := h.inside; omega)

theorem head {k : UInt8} (h : Reads view offset (k :: b)) : (view.drop offset).headD 0 = k := by
  have hb := h.bytes
  simp only [slice] at hb
  cases hd : view.drop offset with
  | nil => simp [hd] at hb
  | cons x xs =>
    rw [hd] at hb
    exact (List.cons.inj hb).1

theorem tail {k : UInt8} (h : Reads view offset (k :: b)) : Reads view (offset + 1) b :=
  have hsplit : Reads view offset ([k] ++ b) := h
  (append_iff.mp hsplit).2

theorem u32 (h : Reads view offset (le 4 n)) (hn : n < 2 ^ 32) :
    u32 view offset = .ok (n, offset + 4) := by
  have hin := h.inside
  have hb := h.bytes
  rw [length_le] at hin hb
  rw [u32_eq_ok, hb, leValue_le (by omega)]
  exact ⟨hin, rfl⟩

theorem word (h : Reads view offset (le 8 n)) (hn : n < 2 ^ 64) (what : String)
    (read : ℕ → Except PyError (PyValue D)) :
    decodeWord view offset what read = (read n).map (·, offset + 8) := by
  have hneed := h.need (n := 8) (by simp [length_le]) what
  have hb := h.bytes
  rw [length_le] at hb
  simp only [decodeWord, hneed, hb, leValue_le (k := 8) hn]
  cases read n <;> rfl

/-- Raw bytes behind their length. -/
theorem raw (h : Reads view offset (le 4 b.length ++ b)) (hn : b.length < 2 ^ 32)
    (what : String) (read : Bytes → Except PyError (PyValue D)) :
    decodeRaw view offset what read = (read b).map (·, offset + 4 + b.length) := by
  obtain ⟨hsize, hraw⟩ := append_iff.mp h
  rw [length_le] at hraw
  simp only [decodeRaw, hsize.u32 hn, bind, Except.bind, hraw.need (Nat.le_refl _), hraw.bytes]
  cases read b <;> rfl

end Reads

/-! ### The domain of the round trip -/

mutual

/-- What a value is read back as: a tuple as a list, an instant as its milliseconds. -/
def reread (P : PyRuntime D) : PyValue D → PyValue D
  | .list items => .list (rereadItems P items)
  | .tuple items => .list (rereadItems P items)
  | .dict items => .dict (rereadPairs P items)
  | .datetime when => .datetime (((P.timestampMs when).bind P.fromtimestamp).getD when)
  | .none => .none
  | .bool b => .bool b
  | .oid id => .oid id
  | .pointer offset => .pointer offset
  | .bytes raw => .bytes raw
  | .int n => .int n
  | .float bits => .float bits
  | .str s => .str s

def rereadItems (P : PyRuntime D) : List (PyValue D) → List (PyValue D)
  | [] => []
  | item :: items => reread P item :: rereadItems P items

def rereadPairs (P : PyRuntime D) : List (String × PyValue D) → List (String × PyValue D)
  | [] => []
  | (key, item) :: items => (key, reread P item) :: rereadPairs P items

end

mutual

/-- The bytes an encoding takes. -/
def wireSize : PyValue D → ℕ
  | .none => 1
  | .bool _ => 1
  | .oid _ => 13
  | .pointer _ => 9
  | .datetime _ => 9
  | .bytes raw => 5 + raw.length
  | .int _ => 9
  | .float _ => 9
  | .str s => 5 + (utf8 s).length
  | .list items => 9 + itemsSize items
  | .tuple items => 9 + itemsSize items
  | .dict items => 9 + pairsSize items

def itemsSize : List (PyValue D) → ℕ
  | [] => 0
  | item :: items => wireSize item + itemsSize items

def pairsSize : List (String × PyValue D) → ℕ
  | [] => 0
  | (key, item) :: items => 4 + (utf8 key).length + (wireSize item + pairsSize items)

end

/-- Values whose integers are exact in a double, whose dicts have each key once, and whose
instants the interpreter can make again. -/
inductive Built (P : PyRuntime D) : PyValue D → Prop
  | none : Built P .none
  | bool (b : Bool) : Built P (.bool b)
  | oid (id : ObjectId) : Built P (.oid id)
  | pointer (offset : UInt64) : Built P (.pointer offset)
  | datetime {when : D} {ms : ℤ} (htime : P.timestampMs when = some ms)
    (hms : -2 ^ 63 ≤ ms ∧ ms < 2 ^ 63) (h : (P.fromtimestamp ms).isSome = true) :
    Built P (.datetime when)
  | bytes (raw : Bytes) : Built P (.bytes raw)
  | int {n : ℤ} (h : n.natAbs ≤ MAX_SAFE_INT) : Built P (.int n)
  | float (bits : UInt64) : Built P (.float bits)
  | str (s : String) : Built P (.str s)
  | list {items : List (PyValue D)} (h : ∀ item ∈ items, Built P item) : Built P (.list items)
  | tuple {items : List (PyValue D)} (h : ∀ item ∈ items, Built P item) : Built P (.tuple items)
  | dict {items : List (String × PyValue D)} (hkeys : (items.map Prod.fst).Nodup)
    (h : ∀ item ∈ items, Built P item.2) : Built P (.dict items)

/-- Values with no tuple and no instant in them. -/
inductive Plain : PyValue D → Prop
  | none : Plain .none
  | bool (b : Bool) : Plain (.bool b)
  | oid (id : ObjectId) : Plain (.oid id)
  | pointer (offset : UInt64) : Plain (.pointer offset)
  | bytes (raw : Bytes) : Plain (.bytes raw)
  | int (n : ℤ) : Plain (.int n)
  | float (bits : UInt64) : Plain (.float bits)
  | str (s : String) : Plain (.str s)
  | list {items : List (PyValue D)} (h : ∀ item ∈ items, Plain item) : Plain (.list items)
  | dict {items : List (String × PyValue D)} (h : ∀ item ∈ items, Plain item.2) :
    Plain (.dict items)

/-- They are read back as themselves. -/
theorem Plain.reread_eq {v : PyValue D} (hv : Plain v) : reread P v = v := by
  induction hv with
  | @list items _ ih =>
    have hitems : rereadItems P items = items := by
      induction items with
      | nil => rfl
      | cons item items ih' =>
        rw [rereadItems, ih item List.mem_cons_self,
          ih' (fun i hi => ‹∀ item ∈ _, Plain item› i (List.mem_cons_of_mem _ hi))
            (fun i hi => ih i (List.mem_cons_of_mem _ hi))]
    rw [reread, hitems]
  | @dict items _ ih =>
    have hitems : rereadPairs P items = items := by
      induction items with
      | nil => rfl
      | cons item items ih' =>
        rw [rereadPairs, ih item List.mem_cons_self,
          ih' (fun i hi => ‹∀ item ∈ _, Plain item.2› i (List.mem_cons_of_mem _ hi))
            (fun i hi => ih i (List.mem_cons_of_mem _ hi))]
    rw [reread, hitems]
  | _ => rfl

/-- The lengths a value carries, its own and those inside it, fit in 32 bits. -/
def LengthsFit (v : PyValue D) : Prop := wireSize v < 2 ^ 32 + 5

theorem wireSize_pos (v : PyValue D) : 0 < wireSize v := by
  cases v <;> simp only [wireSize] <;> omega

theorem length_le_itemsSize (items : List (PyValue D)) : items.length ≤ itemsSize items := by
  induction items with
  | nil => simp [itemsSize]
  | cons item items ih =>
    have := wireSize_pos item
    simp only [itemsSize, List.length_cons]
    omega

theorem length_le_pairsSize (items : List (String × PyValue D)) :
    items.length ≤ pairsSize items := by
  induction items with
  | nil => simp [pairsSize]
  | cons item items ih =>
    simp only [pairsSize, List.length_cons]
    omega

/-! ### Encoding succeeds -/

theorem encodeRaw_ok {kind : UInt8} (hn : b.length < 2 ^ 32) :
    encodeRaw kind b = .ok (kind :: (le 4 b.length ++ b)) := by
  simp only [encodeRaw, packU32, hn, if_true]
  rfl

/-- What a container of these elements is written as. -/
def boxed (kind : UInt8) (count : ℕ) (content : Bytes) : Bytes :=
  kind :: (le 4 (4 + content.length) ++ (le 4 count ++ content))

theorem encodeContainer_ok {kind : UInt8} (hcount : n < 2 ^ 32) (hb : 4 + b.length < 2 ^ 32) :
    encodeContainer kind n (.ok b) = .ok (boxed kind n b) := by
  have hlen : (le 4 n ++ b).length = 4 + b.length := by
    rw [List.length_append, length_le]
  simp only [encodeContainer, packU32, hcount, if_true, bind, Except.bind, hlen, hb]
  rfl

theorem length_boxed (kind : UInt8) (count : ℕ) (content : Bytes) :
    (boxed kind count content).length = 9 + content.length := by
  simp only [boxed, List.length_cons, List.length_append, length_le]
  omega

/-- A value whose encoding has the size it should. -/
def Encodes (P : PyRuntime D) (v : PyValue D) : Prop :=
  LengthsFit v → ∃ b, encodeInto P v = .ok b ∧ b.length = wireSize v

theorem encodeItems_ok {items : List (PyValue D)} (h : ∀ item ∈ items, Encodes P item)
    (hfit : itemsSize items < 2 ^ 32) :
    ∃ b, encodeItems P items = .ok b ∧ b.length = itemsSize items := by
  induction items with
  | nil => exact ⟨[], rfl, rfl⟩
  | cons item items ih =>
    simp only [itemsSize] at hfit
    obtain ⟨out, hout, hlen⟩ := h item List.mem_cons_self (by simp only [LengthsFit]; omega)
    obtain ⟨rest, hrest, hlen'⟩ := ih (fun i hi => h i (List.mem_cons_of_mem _ hi)) (by omega)
    refine ⟨out ++ rest, ?_, ?_⟩
    · simp only [encodeItems, hout, hrest]
      rfl
    · rw [List.length_append, hlen, hlen', itemsSize]

theorem encodePairs_ok {items : List (String × PyValue D)}
    (h : ∀ item ∈ items, Encodes P item.2) (hfit : pairsSize items < 2 ^ 32) :
    ∃ b, encodePairs P items = .ok b ∧ b.length = pairsSize items := by
  induction items with
  | nil => exact ⟨[], rfl, rfl⟩
  | cons item items ih =>
    obtain ⟨key, item⟩ := item
    simp only [pairsSize] at hfit
    have hkey : (utf8 key).length < 2 ^ 32 := by omega
    obtain ⟨out, hout, hlen⟩ := h _ List.mem_cons_self (by simp only [LengthsFit]; omega)
    obtain ⟨rest, hrest, hlen'⟩ := ih (fun i hi => h i (List.mem_cons_of_mem _ hi)) (by omega)
    simp only at hout hlen
    refine ⟨le 4 (utf8 key).length ++ (utf8 key ++ (out ++ rest)), ?_, ?_⟩
    · simp only [encodePairs, packU32, hkey, if_true, hout, hrest]
      rfl
    · simp only [List.length_append, length_le, hlen, hlen', pairsSize]
      omega

theorem int64_of_safe {n : ℤ} (h : n.natAbs ≤ MAX_SAFE_INT) : -2 ^ 63 ≤ n ∧ n < 2 ^ 63 := by
  simp only [MAX_SAFE_INT] at h
  omega

theorem packI64_ok {n : ℤ} (h : n.natAbs ≤ MAX_SAFE_INT) : packI64 n = .ok (le 8 (ofDouble n)) :=
  if_pos (int64_of_safe h)

/-- Every value of the domain is encoded, in the bytes its size says. -/
theorem Built.encodes {v : PyValue D} (hv : Built P v) : Encodes P v := by
  induction hv with
  | none => exact fun _ => ⟨_, rfl, rfl⟩
  | bool b => exact fun _ => ⟨_, rfl, rfl⟩
  | oid id => exact fun _ => ⟨_, rfl, by simp [id.length, wireSize]⟩
  | pointer offset => exact fun _ => ⟨_, rfl, by simp [length_le, wireSize]⟩
  | @datetime when ms htime hms h =>
    intro _
    refine ⟨TYPE.DATE :: le 8 (ofDouble ms), ?_, by simp [length_le, wireSize]⟩
    simp only [encodeInto, packDate, htime, packI64, hms, and_self, if_true]
    rfl
  | bytes raw =>
    intro hfit
    simp only [LengthsFit, wireSize] at hfit
    refine ⟨_, encodeRaw_ok (by omega), ?_⟩
    simp only [List.length_cons, List.length_append, length_le, wireSize]
    omega
  | @int n h =>
    intro _
    refine ⟨TYPE.INT :: le 8 (ofDouble n), ?_, by simp [length_le, wireSize]⟩
    simp only [encodeInto, h, if_true, packI64_ok h]
    rfl
  | float bits => exact fun _ => ⟨_, rfl, by simp [length_le, wireSize]⟩
  | str s =>
    intro hfit
    simp only [LengthsFit, wireSize] at hfit
    refine ⟨_, encodeRaw_ok (by omega), ?_⟩
    simp only [List.length_cons, List.length_append, length_le, wireSize]
    omega
  | @list items h ih =>
    intro hfit
    simp only [LengthsFit, wireSize] at hfit
    have hcount := length_le_itemsSize items
    obtain ⟨b, hb, hlen⟩ := encodeItems_ok ih (by omega)
    refine ⟨boxed TYPE.ARRAY items.length b, ?_, by rw [length_boxed, hlen, wireSize]⟩
    rw [encodeInto, hb]
    exact encodeContainer_ok (by omega) (by omega)
  | @tuple items h ih =>
    intro hfit
    simp only [LengthsFit, wireSize] at hfit
    have hcount := length_le_itemsSize items
    obtain ⟨b, hb, hlen⟩ := encodeItems_ok ih (by omega)
    refine ⟨boxed TYPE.ARRAY items.length b, ?_, by rw [length_boxed, hlen, wireSize]⟩
    rw [encodeInto, hb]
    exact encodeContainer_ok (by omega) (by omega)
  | @dict items _ h ih =>
    intro hfit
    simp only [LengthsFit, wireSize] at hfit
    have hcount := length_le_pairsSize items
    obtain ⟨b, hb, hlen⟩ := encodePairs_ok ih (by omega)
    refine ⟨boxed TYPE.OBJECT items.length b, ?_, by rw [length_boxed, hlen, wireSize]⟩
    rw [encodeInto, hb]
    exact encodeContainer_ok (by omega) (by omega)

/-! ### Decoding what was encoded -/

theorem encodeRaw_inv {kind : UInt8} {raw : Bytes} (h : encodeRaw kind raw = .ok b) :
    raw.length < 2 ^ 32 ∧ b = kind :: (le 4 raw.length ++ raw) := by
  obtain ⟨size, hsize, hb⟩ := bind_eq_ok.mp h
  obtain ⟨hn, rfl⟩ := packU32_eq_ok.mp hsize
  exact ⟨hn, (Except.ok.inj hb).symm⟩

theorem encodeContainer_inv {kind : UInt8} {items : Except PyError Bytes}
    (h : encodeContainer kind n items = .ok b) :
    ∃ content, items = .ok content ∧ n < 2 ^ 32 ∧ 4 + content.length < 2 ^ 32 ∧
      b = boxed kind n content := by
  obtain ⟨count, hcount, h⟩ := bind_eq_ok.mp h
  obtain ⟨content, hitems, h⟩ := bind_eq_ok.mp h
  obtain ⟨size, hsize, hb⟩ := bind_eq_ok.mp h
  obtain ⟨hn, rfl⟩ := packU32_eq_ok.mp hcount
  obtain ⟨hlen, rfl⟩ := packU32_eq_ok.mp hsize
  rw [List.length_append, length_le] at hlen
  refine ⟨content, hitems, hn, hlen, ?_⟩
  rw [← Except.ok.inj hb, List.length_append, length_le]
  rfl

/-- The value is read back wherever its encoding stands. -/
def ReadsBack (P : PyRuntime D) (v : PyValue D) : Prop :=
  ∀ b, encodeInto P v = .ok b → ∀ view offset fuel, Reads view offset b → b.length ≤ fuel →
    decodeAt P view fuel offset = .ok (reread P v, offset + b.length)

theorem decodeItems_ok {items : List (PyValue D)} (hread : ∀ item ∈ items, ReadsBack P item)
    (acc : List (PyValue D)) (h : encodeItems P items = .ok b) (hr : Reads view offset b)
    (hfuel : b.length ≤ fuel) :
    decodeItems (decodeAt P view fuel) items.length offset acc =
      .ok (.list (acc ++ rereadItems P items), offset + b.length) := by
  induction items generalizing b offset acc with
  | nil =>
    obtain rfl := Except.ok.inj h
    simp [decodeItems, rereadItems]
  | cons item items ih =>
    obtain ⟨out, hout, h⟩ := bind_eq_ok.mp h
    obtain ⟨rest, hrest, h⟩ := bind_eq_ok.mp h
    obtain rfl := Except.ok.inj h
    obtain ⟨hr₁, hr₂⟩ := Reads.append_iff.mp hr
    rw [List.length_append] at hfuel
    have hitem := hread item List.mem_cons_self out hout view offset fuel hr₁ (by omega)
    have hitems := ih (fun i hi => hread i (List.mem_cons_of_mem _ hi)) (acc ++ [reread P item])
      hrest hr₂ (by omega)
    simp only [decodeItems, List.length_cons, hitem, bind, Except.bind, hitems, rereadItems,
      List.append_assoc, List.singleton_append, List.length_append, Nat.add_assoc]

theorem dictSet_of_notMem {key : String} {v : PyValue D} {obj : List (String × PyValue D)}
    (h : key ∉ obj.map Prod.fst) : dictSet key v obj = obj ++ [(key, v)] := by
  induction obj with
  | nil => rfl
  | cons kv obj ih =>
    rw [List.map_cons, List.mem_cons, not_or] at h
    simp only [dictSet, if_neg (Ne.symm h.1), ih h.2, List.cons_append]

theorem decodeUtf8_utf8 (s : String) : decodeUtf8 (utf8 s) = .ok s := by
  have hs : (⟨(utf8 s).toArray⟩ : ByteArray) = s.toByteArray := by simp [utf8]
  simp only [decodeUtf8, hs, String.fromUTF8?, s.isValidUTF8, dif_pos]
  rfl

theorem decodePairs_ok {items : List (String × PyValue D)}
    (hread : ∀ item ∈ items, ReadsBack P item.2) (obj : List (String × PyValue D))
    (hkeys : (obj.map Prod.fst ++ items.map Prod.fst).Nodup)
    (h : encodePairs P items = .ok b) (hr : Reads view offset b) (hfuel : b.length ≤ fuel) :
    decodePairs view (decodeAt P view fuel) items.length offset obj =
      .ok (.dict (obj ++ rereadPairs P items), offset + b.length) := by
  induction items generalizing b offset obj with
  | nil =>
    obtain rfl := Except.ok.inj h
    simp [decodePairs, rereadPairs]
  | cons item items ih =>
    obtain ⟨key, item⟩ := item
    obtain ⟨size, hsize, h⟩ := bind_eq_ok.mp h
    obtain ⟨out, hout, h⟩ := bind_eq_ok.mp h
    obtain ⟨rest, hrest, h⟩ := bind_eq_ok.mp h
    obtain rfl := Except.ok.inj h
    obtain ⟨hn, rfl⟩ := packU32_eq_ok.mp hsize
    simp only [List.length_append, length_le] at hfuel
    obtain ⟨hr₁, hr⟩ := Reads.append_iff.mp hr
    obtain ⟨hr₂, hr⟩ := Reads.append_iff.mp hr
    obtain ⟨hr₃, hr₄⟩ := Reads.append_iff.mp hr
    simp only [length_le] at hr₂ hr₃ hr₄
    have hitem := hread _ List.mem_cons_self out hout view _ fuel hr₃ (by omega)
    have hnew : key ∉ obj.map Prod.fst := fun hm =>
      (List.nodup_append.mp hkeys).2.2 key hm key (by simp) rfl
    have hkeys' : ((obj ++ [(key, reread P item)]).map Prod.fst ++ items.map Prod.fst).Nodup := by
      simpa using hkeys
    have hitems := ih (fun i hi => hread i (List.mem_cons_of_mem _ hi)) _ hkeys' hrest hr₄
      (by omega)
    simp only [decodePairs, List.length_cons, hr₁.u32 hn, bind, Except.bind,
      hr₂.need (Nat.le_refl _), hr₂.bytes, decodeUtf8_utf8, hitem, dictSet_of_notMem hnew, hitems]
    simp only [rereadPairs, List.append_assoc, List.singleton_append, List.length_append,
      length_le, Nat.add_assoc]

/-- Where the parts of a container stand. -/
theorem Reads.boxed {kind : UInt8} (hr : Reads view offset (boxed kind n b)) :
    Reads view (offset + 1) (le 4 (4 + b.length)) ∧ Reads view (offset + 5) (le 4 n) ∧
      Reads view (offset + 9) b := by
  obtain ⟨hsize, hrest⟩ := append_iff.mp hr.tail
  obtain ⟨hcount, hcontent⟩ := append_iff.mp hrest
  simp only [length_le] at hcount hcontent
  exact ⟨hsize, hcount, hcontent⟩

/-- A container whose elements are read to its end. -/
theorem decodeContainer_ok {kind : UInt8} {result : PyValue D}
    {elements : ℕ → ℕ → Except PyError (PyValue D × ℕ)}
    (hr : Reads view offset (boxed kind n b)) (hcount : n < 2 ^ 32) (hsize : 4 + b.length < 2 ^ 32)
    (he : elements n (offset + 9) = .ok (result, offset + 9 + b.length)) :
    decodeContainer view (offset + 1) elements =
      .ok (result, offset + (boxed kind n b).length) := by
  obtain ⟨hr₁, hr₂, hr₃⟩ := hr.boxed
  have hneed : need view (offset + 1 + 4) (4 + b.length) "container content" = .ok () := by
    have := hr₃.inside
    exact need_eq_ok.mpr (by omega)
  have hfinal : offset + (PyBinjson.boxed kind n b).length = offset + 9 + b.length := by
    rw [length_boxed, Nat.add_assoc]
  simp only [decodeContainer, hr₁.u32 hsize, bind, Except.bind, hneed, hr₂.u32 hcount]
  rw [he, hfinal]
  simp only
  rw [if_neg (by omega)]

theorem toInt64_ofDouble {n : ℤ} (h : -2 ^ 63 ≤ n ∧ n < 2 ^ 63) :
    toInt64 (ofDouble n) = n ∧ ofDouble n < 2 ^ 64 := by
  have hlt : ofDouble n < 2 ^ 64 := by
    simp only [ofDouble]
    omega
  refine ⟨?_, hlt⟩
  rw [toInt64, u64_of_lt hlt]
  by_cases hneg : n < 0
  · rw [if_neg (by simp only [ofDouble]; omega)]
    simp only [ofDouble]
    omega
  · rw [if_pos (by simp only [ofDouble]; omega)]
    simp only [ofDouble]
    omega

theorem decodeAt_head {k : UInt8} (hr : Reads view offset (k :: b)) :
    decodeAt P view (fuel + 1) offset =
      decodeKind P view (decodeAt P view fuel) k (offset + 1) := by
  simp only [decodeAt, hr.need (n := 1) (by simp), hr.head]
  rfl

/-- An encoding is not empty, and leaves fuel for what is inside. -/
theorem exists_fuel {k : UInt8} (h : (k :: b).length ≤ fuel) :
    ∃ m, fuel = m + 1 ∧ b.length ≤ m := by
  rw [List.length_cons] at h
  exact ⟨fuel - 1, by omega, by omega⟩

/-- A list's elements, and a tuple's, are read back as a list. -/
theorem readsBack_items {items : List (PyValue D)} (hread : ∀ item ∈ items, ReadsBack P item)
    (hb : encodeContainer TYPE.ARRAY items.length (encodeItems P items) = .ok b)
    (hr : Reads view offset b) (hfuel : b.length ≤ fuel) :
    decodeAt P view fuel offset = .ok (.list (rereadItems P items), offset + b.length) := by
  obtain ⟨content, hitems, hcount, hsize, rfl⟩ := encodeContainer_inv hb
  obtain ⟨fuel, rfl, hf⟩ := exists_fuel hfuel
  simp only [List.length_append, length_le] at hf
  rw [decodeAt_head hr, decodeKind_array]
  have hfit : content.length ≤ fuel := by omega
  exact decodeContainer_ok hr hcount hsize (decodeItems_ok hread [] hitems hr.boxed.2.2 hfit)

/-- Every value of the domain is read back. -/
theorem Built.readsBack {v : PyValue D} (hv : Built P v) : ReadsBack P v := by
  induction hv with
  | none =>
    intro b hb view offset fuel hr hfuel
    obtain rfl := Except.ok.inj hb
    obtain ⟨fuel, rfl, -⟩ := exists_fuel hfuel
    rw [decodeAt_head hr]
    rfl
  | bool t =>
    intro b hb view offset fuel hr hfuel
    obtain rfl := Except.ok.inj hb
    obtain ⟨fuel, rfl, -⟩ := exists_fuel hfuel
    rw [decodeAt_head hr]
    cases t <;> rfl
  | oid id =>
    intro b hb view offset fuel hr hfuel
    obtain rfl := Except.ok.inj hb
    obtain ⟨fuel, rfl, -⟩ := exists_fuel hfuel
    have hbytes := hr.tail.bytes
    rw [id.length] at hbytes
    rw [decodeAt_head hr]
    rw [decodeKind_oid, dif_pos (by rw [hbytes, id.length])]
    simp only [hbytes, reread, List.length_cons, id.length]
  | pointer word =>
    intro b hb view offset fuel hr hfuel
    obtain rfl := Except.ok.inj hb
    obtain ⟨fuel, rfl, -⟩ := exists_fuel hfuel
    rw [decodeAt_head hr]
    rw [decodeKind_pointer, hr.tail.word word.toNat_lt]
    simp [Except.map, reread, length_le, Nat.add_assoc]
  | @datetime when ms htime hms h =>
    intro b hb view offset fuel hr hfuel
    have hb' : TYPE.DATE :: le 8 (ofDouble ms) = b := by
      simp only [encodeInto, packDate, htime, packI64, hms, and_self, if_true] at hb
      exact Except.ok.inj hb
    subst hb'
    obtain ⟨fuel, rfl, -⟩ := exists_fuel hfuel
    obtain ⟨hback, hlt⟩ := toInt64_ofDouble hms
    obtain ⟨when', hwhen⟩ := Option.isSome_iff_exists.mp h
    rw [decodeAt_head hr, decodeKind_date, hr.tail.word hlt, decodeDate, hback, hwhen]
    simp [Except.map, reread, htime, hwhen, length_le, Nat.add_assoc]
  | bytes raw =>
    intro b hb view offset fuel hr hfuel
    obtain ⟨hn, rfl⟩ := encodeRaw_inv hb
    obtain ⟨fuel, rfl, -⟩ := exists_fuel hfuel
    rw [decodeAt_head hr]
    rw [decodeKind_binary, hr.tail.raw hn]
    simp [Except.map, reread, length_le]
    omega
  | @int n h =>
    intro b hb view offset fuel hr hfuel
    have hb' : TYPE.INT :: le 8 (ofDouble n) = b := by
      simp only [encodeInto, h, if_true, packI64_ok h] at hb
      exact Except.ok.inj hb
    subst hb'
    obtain ⟨fuel, rfl, -⟩ := exists_fuel hfuel
    obtain ⟨hback, hlt⟩ := toInt64_ofDouble (int64_of_safe h)
    rw [decodeAt_head hr]
    rw [decodeKind_int, hr.tail.word hlt]
    simp [Except.map, reread, length_le, hback, Nat.add_assoc]
  | float bits =>
    intro b hb view offset fuel hr hfuel
    obtain rfl := Except.ok.inj hb
    obtain ⟨fuel, rfl, -⟩ := exists_fuel hfuel
    rw [decodeAt_head hr]
    rw [decodeKind_float, hr.tail.word bits.toNat_lt]
    simp [Except.map, reread, length_le, Nat.add_assoc]
  | str s =>
    intro b hb view offset fuel hr hfuel
    obtain ⟨hn, rfl⟩ := encodeRaw_inv hb
    obtain ⟨fuel, rfl, -⟩ := exists_fuel hfuel
    rw [decodeAt_head hr]
    rw [decodeKind_string, hr.tail.raw hn, decodeUtf8_utf8]
    simp [Except.map, reread, length_le]
    omega
  | list h ih => exact fun b hb view offset fuel hr hfuel => readsBack_items ih hb hr hfuel
  | tuple h ih => exact fun b hb view offset fuel hr hfuel => readsBack_items ih hb hr hfuel
  | dict hkeys h ih =>
    intro b hb view offset fuel hr hfuel
    obtain ⟨content, hitems, hcount, hsize, rfl⟩ := encodeContainer_inv hb
    obtain ⟨fuel, rfl, hf⟩ := exists_fuel hfuel
    simp only [List.length_append, length_le] at hf
    have hfit : content.length ≤ fuel := by omega
    rw [decodeAt_head hr, decodeKind_object]
    exact decodeContainer_ok hr hcount hsize
      (decodePairs_ok ih [] (by simpa using hkeys) hitems hr.boxed.2.2 hfit)

end SukkalMsg.PyBinjson
