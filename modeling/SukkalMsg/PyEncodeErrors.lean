import SukkalMsg.PyDecodeErrors
import SukkalMsg.NameGrammar

/-!
# What the encoder raises

A value of the interpreter is more than a value with an encoding: a string may hold lone
surrogates, and a key may be no string. The encoder checks one thing after the other, and
the first that fails decides what is raised.
-/

namespace SukkalMsg.PyBinjson

open Binjson

variable {D : Type} {P : PyRuntime D}

/-- A code point, surrogates included. -/
abbrev CodePoint := Fin 0x110000

def CodePoint.Surrogate (c : CodePoint) : Prop := 0xD800 ≤ c.val ∧ c.val < 0xE000

instance : DecidablePred CodePoint.Surrogate := fun c => by
  unfold CodePoint.Surrogate
  infer_instance

/-- A `str`. -/
abbrev PyStr := List CodePoint

inductive PyKey where
  | str (s : PyStr)
  | other

/-- What `encode` may be given: a value of a type it supports, or of another. -/
inductive PyObject (D : Type) where
  | none
  | bool (b : Bool)
  | oid (id : ObjectId)
  | pointer (offset : UInt64)
  | datetime (when : D)
  | bytes (raw : Bytes)
  | int (n : ℤ)
  | float (bits : UInt64)
  | str (s : PyStr)
  | list (items : List (PyObject D))
  | tuple (items : List (PyObject D))
  | dict (items : List (PyKey × PyObject D))
  | other (type : String)

/-- The bytes of a `str` without surrogates. -/
def strBytes (s : PyStr) : Bytes := s.flatMap fun c => String.utf8EncodeChar (Char.ofNat c.val)

/-- `value.encode("utf-8")`. -/
def strEncode (s : PyStr) : Except PyError Bytes :=
  if ∃ c ∈ s, c.Surrogate then .error .unicode else .ok (strBytes s)

/-- A `str` behind its length. -/
def packStr (s : PyStr) : Except PyError Bytes := do
  let raw ← strEncode s
  let size ← packU32 raw.length
  return size ++ raw

def encodeKey : PyKey → Except PyError Bytes
  | .str s => packStr s
  | .other => .error (.binjson "object keys must be strings")

mutual

/-- `_encode_into`. -/
def encodeObject (P : PyRuntime D) : PyObject D → Except PyError Bytes
  | .none => .ok [TYPE.NULL]
  | .bool b => .ok [if b then TYPE.TRUE else TYPE.FALSE]
  | .oid id => .ok (TYPE.OID :: id.bytes)
  | .pointer offset => .ok (TYPE.POINTER :: le 8 offset.toNat)
  | .datetime when => (packDate P when).map (TYPE.DATE :: ·)
  | .bytes raw => encodeRaw TYPE.BINARY raw
  | .int n =>
    if n.natAbs ≤ MAX_SAFE_INT then (packI64 n).map (TYPE.INT :: ·)
    else match P.floatOf n with
      | none => .error .overflow
      | some bits => .ok (TYPE.FLOAT :: le 8 bits.toNat)
  | .float bits => .ok (TYPE.FLOAT :: le 8 bits.toNat)
  | .str s => (packStr s).map (TYPE.STRING :: ·)
  | .list items => encodeContainer TYPE.ARRAY items.length (encodeObjects P items)
  | .tuple items => encodeContainer TYPE.ARRAY items.length (encodeObjects P items)
  | .dict items => encodeContainer TYPE.OBJECT items.length (encodeMembers P items)
  | .other type => .error (.binjson ("cannot encode " ++ type))

def encodeObjects (P : PyRuntime D) : List (PyObject D) → Except PyError Bytes
  | [] => .ok []
  | item :: items => do
    let out ← encodeObject P item
    let rest ← encodeObjects P items
    return out ++ rest

def encodeMembers (P : PyRuntime D) : List (PyKey × PyObject D) → Except PyError Bytes
  | [] => .ok []
  | (key, item) :: items => do
    let head ← encodeKey key
    let out ← encodeObject P item
    let rest ← encodeMembers P items
    return head ++ (out ++ rest)

end

/-! ### The checks, in order -/

/-- A check the encoder comes to: it passes, raises another's exception, or refuses. -/
inductive Check where
  | passes
  | alien
  | refuses
  deriving DecidableEq

def Check.of (p : Prop) [Decidable p] : Check := if p then passes else alien

def strChecks (s : PyStr) : List Check :=
  [.of (∀ c ∈ s, ¬ c.Surrogate), .of ((strBytes s).length < 2 ^ 32)]

/-- An instant tells its milliseconds, and they fit a word. -/
def dateChecks (P : PyRuntime D) (when : D) : List Check :=
  match P.timestampMs when with
  | none => [.alien]
  | some ms => [.of (-2 ^ 63 ≤ ms ∧ ms < 2 ^ 63)]

def keyChecks : PyKey → List Check
  | .str s => strChecks s
  | .other => [.refuses]

def keySize : PyKey → ℕ
  | .str s => 4 + (strBytes s).length
  | .other => 0

mutual

/-- How many bytes a value takes. -/
def objectSize : PyObject D → ℕ
  | .none | .bool _ | .other _ => 1
  | .oid _ => 13
  | .pointer _ | .datetime _ | .int _ | .float _ => 9
  | .bytes raw => 5 + raw.length
  | .str s => 5 + (strBytes s).length
  | .list items | .tuple items => 9 + objectsSize items
  | .dict items => 9 + membersSize items

def objectsSize : List (PyObject D) → ℕ
  | [] => 0
  | item :: items => objectSize item + objectsSize items

def membersSize : List (PyKey × PyObject D) → ℕ
  | [] => 0
  | (key, item) :: items => keySize key + (objectSize item + membersSize items)

end

/-- The checks of a container: its count, its elements, its size. -/
def containerChecks (count size : ℕ) (items : List Check) : List Check :=
  .of (count < 2 ^ 32) :: (items ++ [.of (4 + size < 2 ^ 32)])

mutual

def checks (P : PyRuntime D) : PyObject D → List Check
  | .none | .bool _ | .oid _ | .pointer _ | .float _ => []
  | .datetime when => dateChecks P when
  | .bytes raw => [.of (raw.length < 2 ^ 32)]
  | .int n => [.of (n.natAbs ≤ MAX_SAFE_INT ∨ (P.floatOf n).isSome = true)]
  | .str s => strChecks s
  | .list items | .tuple items =>
    containerChecks items.length (objectsSize items) (objectsChecks P items)
  | .dict items => containerChecks items.length (membersSize items) (membersChecks P items)
  | .other _ => [.refuses]

def objectsChecks (P : PyRuntime D) : List (PyObject D) → List Check
  | [] => []
  | item :: items => checks P item ++ objectsChecks P items

def membersChecks (P : PyRuntime D) : List (PyKey × PyObject D) → List Check
  | [] => []
  | (key, item) :: items => keyChecks key ++ (checks P item ++ membersChecks P items)

end

/-- All checks pass up to one of this kind. -/
def StopsAt (c : Check) (l : List Check) : Prop :=
  ∃ pre post, l = pre ++ c :: post ∧ ∀ d ∈ pre, d = .passes

/-- The first check that does not pass raises another's exception. -/
def Escapes (l : List Check) : Prop := StopsAt .alien l

namespace StopsAt

variable {c d : Check} {l m : List Check}

theorem left (h : StopsAt c l) (m : List Check) : StopsAt c (l ++ m) := by
  obtain ⟨pre, post, rfl, hpre⟩ := h
  exact ⟨pre, post ++ m, by simp, hpre⟩

theorem right (hl : ∀ d ∈ l, d = .passes) (h : StopsAt c m) : StopsAt c (l ++ m) := by
  obtain ⟨pre, post, rfl, hpre⟩ := h
  refine ⟨l ++ pre, post, by simp, fun d hd => ?_⟩
  rcases List.mem_append.mp hd with hd | hd
  · exact hl d hd
  · exact hpre d hd

theorem not_passed (h : StopsAt c l) (hc : c ≠ .passes) : ¬ ∀ d ∈ l, d = .passes := by
  obtain ⟨pre, post, rfl, -⟩ := h
  intro hall
  exact hc (hall c (by simp))

/-- The first check that does not pass is of one kind. -/
theorem unique (h : StopsAt c l) (h' : StopsAt d l) (hc : c ≠ .passes) (hd : d ≠ .passes) :
    c = d := by
  obtain ⟨pre, post, rfl, hpre⟩ := h
  obtain ⟨pre', post', heq, hpre'⟩ := h'
  induction pre generalizing pre' with
  | nil =>
    cases pre' with
    | nil => exact (List.cons.inj heq).1
    | cons x pre' =>
      obtain ⟨rfl, -⟩ := List.cons.inj heq
      exact absurd (hpre' c List.mem_cons_self) hc
  | cons x pre ih =>
    cases pre' with
    | nil =>
      obtain ⟨rfl, -⟩ := List.cons.inj heq
      exact absurd (hpre x List.mem_cons_self) hd
    | cons y pre' =>
      exact ih (fun e he => hpre e (List.mem_cons_of_mem _ he)) pre' (List.cons.inj heq).2
        fun e he => hpre' e (List.mem_cons_of_mem _ he)

end StopsAt

/-- What comes of the checks: the bytes, another's exception, or the codec's own. -/
inductive Outcome (l : List Check) (r : Except PyError Bytes) (size : ℕ) : Prop
  | passes {b : Bytes} (hl : ∀ c ∈ l, c = .passes) (hb : r = .ok b) (hlen : b.length = size)
  | alien {e : PyError} (hl : StopsAt .alien l) (he : r = .error e) (ha : e.Alien)
  | refuses {msg : String} (hl : StopsAt .refuses l) (he : r = .error (.binjson msg))

namespace Outcome

variable {l l' : List Check} {r : Except PyError Bytes} {size size' : ℕ}

theorem contained (h : Outcome l r size) : Contained r ↔ ¬ Escapes l := by
  cases h with
  | passes hl hb hlen =>
    refine iff_of_true (fun e he => ?_) fun hesc => hesc.not_passed (by decide) hl
    rw [hb] at he
    contradiction
  | alien hl he ha =>
    refine iff_of_false (fun hc => ?_) fun hesc => hesc hl
    obtain ⟨msg, rfl⟩ := hc _ he
    exact ha
  | refuses hl he =>
    refine iff_of_true (fun e he' => ?_) fun hesc => ?_
    · exact ⟨_, Except.error.inj (he'.symm.trans he)⟩
    · exact absurd (hl.unique hesc (by decide) (by decide)) (by decide)

theorem ok {b : Bytes} (hlen : b.length = size) : Outcome [] (.ok b) size :=
  .passes (by simp) rfl hlen

theorem check {p : Prop} [Decidable p] (hp : p → ∃ b, r = .ok b ∧ b.length = size)
    (hn : ¬ p → ∃ e, r = .error e ∧ e.Alien) : Outcome [.of p] r size := by
  by_cases h : p
  · obtain ⟨b, hb, hlen⟩ := hp h
    exact .passes (by simp [Check.of, h]) hb hlen
  · obtain ⟨e, he, ha⟩ := hn h
    exact .alien ⟨[], [], by simp [Check.of, h], by simp⟩ he ha

/-- What is done next is done when the checks so far have passed. -/
theorem bind {f : Bytes → Except PyError Bytes} (h : Outcome l r size)
    (hf : ∀ b, b.length = size → Outcome l' (f b) size') : Outcome (l ++ l') (r >>= f) size' := by
  cases h with
  | @passes b hl hb hlen =>
    subst hb
    cases hf b hlen with
    | passes hl' hb' hlen' =>
      refine .passes (fun c hc => ?_) hb' hlen'
      rcases List.mem_append.mp hc with hc | hc
      · exact hl c hc
      · exact hl' c hc
    | alien hl' he ha => exact .alien (hl'.right hl) he ha
    | refuses hl' he => exact .refuses (hl'.right hl) he
  | alien hl he ha => exact .alien (hl.left l') (by rw [he]; rfl) ha
  | refuses hl he => exact .refuses (hl.left l') (by rw [he]; rfl)

theorem map {f : Bytes → Bytes} (h : Outcome l r size)
    (hf : ∀ b : Bytes, b.length = size → (f b).length = size') : Outcome l (r.map f) size' := by
  cases h with
  | passes hl hb hlen => exact .passes hl (by rw [hb]; rfl) (hf _ hlen)
  | alien hl he ha => exact .alien hl (by rw [he]; rfl) ha
  | refuses hl he => exact .refuses hl (by rw [he]; rfl)

theorem map_pure {f : Bytes → Bytes} (h : Outcome l r size)
    (hf : ∀ b : Bytes, b.length = size → (f b).length = size') :
    Outcome l (r >>= fun b => pure (f b)) size' := by
  have hmap : (r >>= fun b => pure (f b)) = r.map f := by cases r <;> rfl
  rw [hmap]
  exact h.map hf

end Outcome

theorem outcome_packU32 (n : ℕ) : Outcome [.of (n < 2 ^ 32)] (packU32 n) 4 := by
  apply Outcome.check
  · exact fun h => ⟨le 4 n, by simp only [packU32, if_pos h], length_le 4 n⟩
  · exact fun h => ⟨.struct, by simp only [packU32, if_neg h], trivial⟩

theorem outcome_packI64 (n : ℤ) :
    Outcome [.of (-2 ^ 63 ≤ n ∧ n < 2 ^ 63)] (packI64 n) 8 := by
  apply Outcome.check
  · exact fun h => ⟨le 8 (ofDouble n), by simp only [packI64, if_pos h], length_le 8 _⟩
  · exact fun h => ⟨.struct, by simp only [packI64, if_neg h], trivial⟩

theorem outcome_packDate (when : D) : Outcome (dateChecks P when) (packDate P when) 8 := by
  unfold dateChecks packDate
  cases P.timestampMs when with
  | none => exact .alien ⟨[], [], rfl, by simp⟩ rfl trivial
  | some ms => exact outcome_packI64 ms

theorem outcome_strEncode (s : PyStr) [Decidable (∀ c ∈ s, ¬ c.Surrogate)] :
    Outcome [.of (∀ c ∈ s, ¬ c.Surrogate)] (strEncode s) (strBytes s).length := by
  apply Outcome.check
  · intro h
    have hnone : ¬ ∃ c ∈ s, c.Surrogate := by
      rintro ⟨c, hc, hs⟩
      exact h c hc hs
    exact ⟨strBytes s, by simp only [strEncode, if_neg hnone], rfl⟩
  · intro h
    have hsome : ∃ c ∈ s, c.Surrogate := by simpa using h
    exact ⟨.unicode, by simp only [strEncode, if_pos hsome], trivial⟩

theorem outcome_framed (raw : Bytes) {size : ℕ} (h : raw.length = size) :
    Outcome [.of (size < 2 ^ 32)] (packU32 raw.length >>= fun n => pure (n ++ raw)) (4 + size) := by
  rw [h]
  refine (outcome_packU32 size).map_pure fun b hb => ?_
  rw [List.length_append, hb, h]

theorem outcome_packStr (s : PyStr) :
    Outcome (strChecks s) (packStr s) (4 + (strBytes s).length) :=
  (outcome_strEncode s).bind fun raw hraw => outcome_framed raw hraw

theorem outcome_encodeKey (key : PyKey) :
    Outcome (keyChecks key) (encodeKey key) (keySize key) := by
  cases key with
  | str s => exact outcome_packStr s
  | other => exact .refuses ⟨[], [], rfl, by simp⟩ rfl

theorem outcome_encodeRaw (kind : UInt8) (raw : Bytes) :
    Outcome [.of (raw.length < 2 ^ 32)] (encodeRaw kind raw) (5 + raw.length) := by
  refine (outcome_packU32 raw.length).map_pure fun b hb => ?_
  rw [List.length_cons, List.length_append, hb]
  omega

theorem outcome_encodeContainer (kind : UInt8) (count : ℕ) {l : List Check}
    {items : Except PyError Bytes} {size : ℕ} (h : Outcome l items size) :
    Outcome (containerChecks count size l) (encodeContainer kind count items) (9 + size) := by
  refine (outcome_packU32 count).bind fun c hc => ?_
  refine h.bind fun b hb => ?_
  have hlen : (c ++ b).length = 4 + size := by rw [List.length_append, hc, hb]
  rw [hlen]
  refine (outcome_packU32 (4 + size)).map_pure fun n hn => ?_
  rw [List.length_cons, List.length_append, hn, hlen]
  omega

/-- An integer is converted when it is beyond the safe range. -/
theorem outcome_int (n : ℤ) : Outcome (checks P (.int n)) (encodeObject P (.int n)) 9 := by
  apply Outcome.check
  · rintro h
    by_cases hsafe : n.natAbs ≤ MAX_SAFE_INT
    · have hword : -2 ^ 63 ≤ n ∧ n < 2 ^ 63 := by
        simp only [MAX_SAFE_INT] at hsafe
        omega
      refine ⟨TYPE.INT :: le 8 (ofDouble n), ?_, by rw [List.length_cons, length_le]⟩
      simp only [encodeObject, if_pos hsafe, packI64, if_pos hword]
      rfl
    · obtain ⟨bits, hbits⟩ := Option.isSome_iff_exists.mp (h.resolve_left hsafe)
      refine ⟨TYPE.FLOAT :: le 8 bits.toNat, ?_, by rw [List.length_cons, length_le]⟩
      simp only [encodeObject, if_neg hsafe, hbits]
  · intro h
    obtain ⟨hbig, hnone⟩ := not_or.mp h
    rw [Bool.not_eq_true, Option.isSome_eq_false_iff, Option.isNone_iff_eq_none] at hnone
    exact ⟨.overflow, by simp only [encodeObject, if_neg hbig, hnone], trivial⟩

mutual

/-- What is raised for a value, or written, is what the checks come to. -/
theorem outcome_encodeObject (v : PyObject D) :
    Outcome (checks P v) (encodeObject P v) (objectSize v) := by
  match v with
  | .none => exact .ok rfl
  | .bool b => exact .ok rfl
  | .oid id => exact .ok (by rw [List.length_cons, id.length, objectSize])
  | .pointer offset => exact .ok (by rw [List.length_cons, length_le, objectSize])
  | .float bits => exact .ok (by rw [List.length_cons, length_le, objectSize])
  | .datetime when =>
    exact (outcome_packDate when).map fun b hb => by rw [List.length_cons, hb, objectSize]
  | .bytes raw => exact outcome_encodeRaw _ raw
  | .int n => exact outcome_int n
  | .str s =>
    rw [checks, encodeObject, objectSize]
    refine (outcome_packStr s).map fun b hb => ?_
    rw [List.length_cons, hb]
    omega
  | .list items => exact outcome_encodeContainer _ _ (outcome_encodeObjects items)
  | .tuple items => exact outcome_encodeContainer _ _ (outcome_encodeObjects items)
  | .dict items => exact outcome_encodeContainer _ _ (outcome_encodeMembers items)
  | .other type => exact .refuses ⟨[], [], rfl, by simp⟩ rfl

theorem outcome_encodeObjects (items : List (PyObject D)) :
    Outcome (objectsChecks P items) (encodeObjects P items) (objectsSize items) := by
  match items with
  | [] => exact .ok rfl
  | item :: items =>
    refine (outcome_encodeObject item).bind fun b hb => ?_
    refine (outcome_encodeObjects items).map_pure fun rest hrest => ?_
    rw [List.length_append, hb, hrest, objectsSize]

theorem outcome_encodeMembers (items : List (PyKey × PyObject D)) :
    Outcome (membersChecks P items) (encodeMembers P items) (membersSize items) := by
  match items with
  | [] => exact .ok rfl
  | (key, item) :: items =>
    refine (outcome_encodeKey key).bind fun k hk => ?_
    refine (outcome_encodeObject item).bind fun b hb => ?_
    refine (outcome_encodeMembers items).map_pure fun rest hrest => ?_
    rw [List.length_append, List.length_append, hk, hb, hrest, membersSize]

end

/-- The codec raises nothing but its own error on a byte string exactly when the decoder meets
no text that is not UTF-8 and no date that is none, and on a value exactly when no check
fails of those the encoder comes to before a key that is no string. -/
theorem codec_contained_iff (P : PyRuntime D) :
    (∀ view, Contained (decode P view) ↔ ¬ Stumbles P view 0) ∧
      ∀ v, Contained (encodeObject P v) ↔ ¬ Escapes (checks P v) :=
  ⟨decode_contained_iff, fun v => (outcome_encodeObject v).contained⟩

/-- A STRING of one byte that is no UTF-8, and a lone surrogate. -/
theorem codec_lets_unicode_through :
    ¬ Contained (decode plainRuntime [0x05, 1, 0, 0, 0, 0xFF]) ∧
      ¬ Contained (encodeObject plainRuntime (.str [0xD800])) := by
  constructor
  · intro h
    obtain ⟨msg, hmsg⟩ := h .unicode rfl
    contradiction
  · intro h
    have hlone : strEncode [0xD800] = .error .unicode :=
      if_pos ⟨0xD800, List.mem_singleton_self _, by decide⟩
    have hraised : encodeObject plainRuntime (.str [0xD800]) = .error .unicode := by
      rw [encodeObject, packStr, hlone]
      rfl
    obtain ⟨msg, hmsg⟩ := h .unicode hraised
    cases hmsg

/-! ### The values that have an encoding -/

theorem Char.toNat_lt (c : Char) : c.toNat < 0x110000 := by
  have := c.valid
  simp only [UInt32.isValidChar, Nat.isValidChar] at this
  rcases this with h | h
  · exact Nat.lt_trans h (by decide)
  · exact h.2

def ofString (s : String) : PyStr := s.toList.map fun c => ⟨c.toNat, Char.toNat_lt c⟩

mutual

/-- A value with an encoding, among all. -/
def ofValue : PyValue D → PyObject D
  | .none => .none
  | .bool b => .bool b
  | .oid id => .oid id
  | .pointer offset => .pointer offset
  | .datetime when => .datetime when
  | .bytes raw => .bytes raw
  | .int n => .int n
  | .float bits => .float bits
  | .str s => .str (ofString s)
  | .list items => .list (ofValues items)
  | .tuple items => .tuple (ofValues items)
  | .dict items => .dict (ofPairs items)

def ofValues : List (PyValue D) → List (PyObject D)
  | [] => []
  | item :: items => ofValue item :: ofValues items

def ofPairs : List (String × PyValue D) → List (PyKey × PyObject D)
  | [] => []
  | (key, item) :: items => (.str (ofString key), ofValue item) :: ofPairs items

end

theorem strEncode_ofString (s : String) : strEncode (ofString s) = .ok (utf8 s) := by
  have hnone : ¬ ∃ c ∈ ofString s, c.Surrogate := by
    rintro ⟨c, hc, hlow, hhigh⟩
    obtain ⟨ch, -, rfl⟩ := List.mem_map.mp hc
    have hvalid := ch.valid
    simp only [UInt32.isValidChar, Nat.isValidChar] at hvalid
    simp only [Char.toNat] at hlow hhigh
    omega
  have hbytes : strBytes (ofString s) = utf8 s := by
    rw [utf8_eq, strBytes, ofString, List.flatMap_map]
    simp only [Char.ofNat_toNat]
  rw [strEncode, if_neg hnone, hbytes]

theorem length_ofValues (items : List (PyValue D)) : (ofValues items).length = items.length := by
  induction items with
  | nil => rfl
  | cons item items ih => rw [ofValues, List.length_cons, ih, List.length_cons]

theorem length_ofPairs (items : List (String × PyValue D)) :
    (ofPairs items).length = items.length := by
  induction items with
  | nil => rfl
  | cons item items ih =>
    obtain ⟨key, item⟩ := item
    rw [ofPairs, List.length_cons, ih, List.length_cons]

theorem packStr_ofString (s : String) :
    packStr (ofString s) = (packU32 (utf8 s).length).map (· ++ utf8 s) := by
  rw [packStr, strEncode_ofString]
  show (packU32 (utf8 s).length >>= fun size => pure (size ++ utf8 s)) = _
  cases packU32 (utf8 s).length <;> rfl

mutual

/-- On the values with an encoding this is the encoder of the round trip. -/
theorem encodeObject_ofValue (v : PyValue D) : encodeObject P (ofValue v) = encodeInto P v := by
  match v with
  | .none | .bool _ | .oid _ | .pointer _ | .datetime _ | .bytes _ | .int _ | .float _ => rfl
  | .str s =>
    rw [ofValue, encodeObject, packStr_ofString, encodeInto, encodeRaw]
    cases packU32 (utf8 s).length <;> rfl
  | .list items =>
    rw [ofValue, encodeObject, length_ofValues, encodeObjects_ofValues, encodeInto]
  | .tuple items =>
    rw [ofValue, encodeObject, length_ofValues, encodeObjects_ofValues, encodeInto]
  | .dict items =>
    rw [ofValue, encodeObject, length_ofPairs, encodeMembers_ofPairs, encodeInto]

theorem encodeObjects_ofValues (items : List (PyValue D)) :
    encodeObjects P (ofValues items) = encodeItems P items := by
  match items with
  | [] => rfl
  | item :: items =>
    rw [ofValues, encodeObjects, encodeObject_ofValue, encodeObjects_ofValues, encodeItems]

theorem encodeMembers_ofPairs (items : List (String × PyValue D)) :
    encodeMembers P (ofPairs items) = encodePairs P items := by
  match items with
  | [] => rfl
  | (key, item) :: items =>
    rw [ofPairs, encodeMembers, encodeObject_ofValue, encodeMembers_ofPairs, encodePairs, encodeKey,
      packStr_ofString]
    cases packU32 (utf8 key).length with
    | error e => rfl
    | ok size =>
      cases encodeInto P item with
      | error e => rfl
      | ok out =>
        cases encodePairs P items <;> simp [bind, Except.bind, pure, Except.pure, Except.map]

end

end SukkalMsg.PyBinjson
