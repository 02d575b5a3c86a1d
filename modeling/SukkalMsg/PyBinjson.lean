import SukkalMsg.Encoding

/-!
# The codec of the Python package

`encode` writes a value type byte first, a container behind its size and its count.
`decode` reads one back: every read is checked against the whole buffer, and a
container against the size it announced when its elements are through. The offset is
passed along, as the source does it; `fuel` bounds the nesting, and a buffer is always
given enough of it. The interpreter's own limit on nested calls is left out.
-/

namespace SukkalMsg.PyBinjson

open Binjson

namespace TYPE

@[match_pattern] abbrev NULL : UInt8 := 0x00
@[match_pattern] abbrev FALSE : UInt8 := 0x01
@[match_pattern] abbrev TRUE : UInt8 := 0x02
@[match_pattern] abbrev INT : UInt8 := 0x03
@[match_pattern] abbrev FLOAT : UInt8 := 0x04
@[match_pattern] abbrev STRING : UInt8 := 0x05
@[match_pattern] abbrev OID : UInt8 := 0x06
@[match_pattern] abbrev DATE : UInt8 := 0x07
@[match_pattern] abbrev POINTER : UInt8 := 0x08
@[match_pattern] abbrev BINARY : UInt8 := 0x09
@[match_pattern] abbrev ARRAY : UInt8 := 0x10
@[match_pattern] abbrev OBJECT : UInt8 := 0x11

end TYPE

/-- What the codec raises; the last is a nesting the fuel does not reach. -/
inductive PyError where
  | binjson (msg : String)
  | unicode
  | overflow
  | date
  | timestamp
  | struct
  | recursion
  deriving DecidableEq

structure ObjectId where
  bytes : Bytes
  length : bytes.length = 12
  deriving DecidableEq

/-- A value with an encoding. A float is its 64 bits, a pointer its offset, a dict its items
in order; `D` is what the interpreter has for an instant. -/
inductive PyValue (D : Type) where
  | none
  | bool (b : Bool)
  | oid (id : ObjectId)
  | pointer (offset : UInt64)
  | datetime (when : D)
  | bytes (raw : Bytes)
  | int (n : ℤ)
  | float (bits : UInt64)
  | str (s : String)
  | list (items : List (PyValue D))
  | tuple (items : List (PyValue D))
  | dict (items : List (String × PyValue D))

/-- The interpreter's own conversions: `float(n)`, `int(d.timestamp() * 1000)`, where an instant
may have a zone that tells no offset, and `datetime.fromtimestamp(ms / 1000, tz=utc)`. -/
structure PyRuntime (D : Type) where
  floatOf : ℤ → Option UInt64
  timestampMs : D → Option ℤ
  fromtimestamp : ℤ → Option D

variable {D : Type}

def utf8 (s : String) : Bytes := s.toByteArray.data.toList

/-- `bytes.decode("utf-8")`. -/
def decodeUtf8 (raw : Bytes) : Except PyError String :=
  match String.fromUTF8? ⟨raw.toArray⟩ with
  | none => .error .unicode
  | some s => .ok s

/-! ### Encoding -/

/-- `_U32.pack`. -/
def packU32 (n : ℕ) : Except PyError Bytes := if n < 2 ^ 32 then .ok (le 4 n) else .error .struct

/-- `_I64.pack`. -/
def packI64 (n : ℤ) : Except PyError Bytes :=
  if -2 ^ 63 ≤ n ∧ n < 2 ^ 63 then .ok (le 8 (ofDouble n)) else .error .struct

/-- `_I64.pack` of an instant. -/
def packDate (P : PyRuntime D) (when : D) : Except PyError Bytes :=
  match P.timestampMs when with
  | none => .error .timestamp
  | some ms => packI64 ms

def encodeRaw (kind : UInt8) (raw : Bytes) : Except PyError Bytes := do
  let size ← packU32 raw.length
  return kind :: (size ++ raw)

/-- The size is filled in once the content is known. -/
def encodeContainer (kind : UInt8) (count : ℕ) (items : Except PyError Bytes) :
    Except PyError Bytes := do
  let count ← packU32 count
  let items ← items
  let size ← packU32 (count ++ items).length
  return kind :: (size ++ (count ++ items))

mutual

def encodeInto (P : PyRuntime D) : PyValue D → Except PyError Bytes
  | .none => .ok [TYPE.NULL]
  | .bool b => .ok [if b then TYPE.TRUE else TYPE.FALSE]
  | .oid id => .ok (TYPE.OID :: id.bytes)
  | .pointer offset => .ok (TYPE.POINTER :: le 8 offset.toNat)
  | .datetime when => (packDate P when).map (TYPE.DATE :: ·)
  | .bytes raw => encodeRaw TYPE.BINARY raw
  | .int n =>
    if n.natAbs ≤ MAX_SAFE_INT then (packI64 n).map (TYPE.INT :: ·)
    else match P.floatOf n with
      | none => .error .overflow
      | some bits => .ok (TYPE.FLOAT :: le 8 bits.toNat)
  | .float bits => .ok (TYPE.FLOAT :: le 8 bits.toNat)
  | .str s => encodeRaw TYPE.STRING (utf8 s)
  | .list items => encodeContainer TYPE.ARRAY items.length (encodeItems P items)
  | .tuple items => encodeContainer TYPE.ARRAY items.length (encodeItems P items)
  | .dict items => encodeContainer TYPE.OBJECT items.length (encodePairs P items)

def encodeItems (P : PyRuntime D) : List (PyValue D) → Except PyError Bytes
  | [] => .ok []
  | item :: items => do
    let out ← encodeInto P item
    let rest ← encodeItems P items
    return out ++ rest

def encodePairs (P : PyRuntime D) : List (String × PyValue D) → Except PyError Bytes
  | [] => .ok []
  | (key, item) :: items => do
    let size ← packU32 (utf8 key).length
    let out ← encodeInto P item
    let rest ← encodePairs P items
    return size ++ (utf8 key ++ (out ++ rest))

end

def encode (P : PyRuntime D) (value : PyValue D) : Except PyError Bytes := encodeInto P value

/-! ### Decoding -/

def slice (view : Bytes) (offset n : ℕ) : Bytes := (view.drop offset).take n

def unexpectedEnd (what : String) : PyError :=
  .binjson ("unexpected end of data reading " ++ what)

/-- `_need`. -/
def need (view : Bytes) (offset n : ℕ) (what : String) : Except PyError Unit :=
  if offset + n > view.length then .error (unexpectedEnd what) else .ok ()

/-- `_u32`. -/
def u32 (view : Bytes) (offset : ℕ) : Except PyError (ℕ × ℕ) := do
  need view offset 4 "a length"
  return (leValue (slice view offset 4), offset + 4)

/-- `obj[key] = value`: a key that is there already keeps its place. -/
def dictSet (key : String) (value : PyValue D) :
    List (String × PyValue D) → List (String × PyValue D)
  | [] => [(key, value)]
  | (k, v) :: rest => if k = key then (k, value) :: rest else (k, v) :: dictSet key value rest

def decodeWord (view : Bytes) (offset : ℕ) (what : String)
    (read : ℕ → Except PyError (PyValue D)) : Except PyError (PyValue D × ℕ) := do
  need view offset 8 what
  let value ← read (leValue (slice view offset 8))
  return (value, offset + 8)

def decodeDate (P : PyRuntime D) (n : ℕ) : Except PyError (PyValue D) :=
  match P.fromtimestamp (toInt64 n) with
  | none => .error .date
  | some when => .ok (.datetime when)

/-- Raw bytes behind their length, and what they are read as. -/
def decodeRaw (view : Bytes) (offset : ℕ) (what : String)
    (read : Bytes → Except PyError (PyValue D)) : Except PyError (PyValue D × ℕ) := do
  let (length, offset) ← u32 view offset
  need view offset length what
  let value ← read (slice view offset length)
  return (value, offset + length)

def decodeItems (decodeAt : ℕ → Except PyError (PyValue D × ℕ)) :
    ℕ → ℕ → List (PyValue D) → Except PyError (PyValue D × ℕ)
  | 0, offset, items => .ok (.list items, offset)
  | count + 1, offset, items => do
    let (item, offset) ← decodeAt offset
    decodeItems decodeAt count offset (items ++ [item])

def decodePairs (view : Bytes) (decodeAt : ℕ → Except PyError (PyValue D × ℕ)) :
    ℕ → ℕ → List (String × PyValue D) → Except PyError (PyValue D × ℕ)
  | 0, offset, obj => .ok (.dict obj, offset)
  | count + 1, offset, obj => do
    let (klen, offset) ← u32 view offset
    need view offset klen "an object key"
    let key ← decodeUtf8 (slice view offset klen)
    let (value, offset) ← decodeAt (offset + klen)
    decodePairs view decodeAt count offset (dictSet key value obj)

/-- The elements of a container, which have to end where its size says. -/
def decodeContainer (view : Bytes) (offset : ℕ)
    (elements : ℕ → ℕ → Except PyError (PyValue D × ℕ)) : Except PyError (PyValue D × ℕ) := do
  let (size, offset) ← u32 view offset
  need view offset size "container content"
  let stop := offset + size
  let (count, offset) ← u32 view offset
  let (result, offset) ← elements count offset
  if offset ≠ stop then
    .error (.binjson "container content size does not match its elements")
  else .ok (result, offset)

def hexDigit (n : ℕ) : Char := "0123456789abcdef".toList.getD n '0'

def unknownType (kind : UInt8) : PyError :=
  .binjson ("unknown type byte: 0x" ++
    String.ofList [hexDigit (kind.toNat / 16), hexDigit (kind.toNat % 16)])

/-- What is behind a type byte; `decodeAt` reads the elements of a container. -/
def decodeKind (P : PyRuntime D) (view : Bytes) (decodeAt : ℕ → Except PyError (PyValue D × ℕ))
    (kind : UInt8) (offset : ℕ) : Except PyError (PyValue D × ℕ) :=
  match kind with
  | TYPE.NULL => .ok (.none, offset)
  | TYPE.TRUE => .ok (.bool true, offset)
  | TYPE.FALSE => .ok (.bool false, offset)
  | TYPE.INT => decodeWord view offset "an int" (fun n => .ok (.int (toInt64 n)))
  | TYPE.FLOAT => decodeWord view offset "a float" (fun n => .ok (.float (.ofNat n)))
  | TYPE.DATE => decodeWord view offset "a date" (decodeDate P)
  | TYPE.POINTER => decodeWord view offset "a pointer" (fun n => .ok (.pointer (.ofNat n)))
  | TYPE.OID =>
    if h : (slice view offset 12).length = 12 then .ok (.oid ⟨_, h⟩, offset + 12)
    else .error (unexpectedEnd "an ObjectId")
  | TYPE.STRING => decodeRaw view offset "a string" (fun raw => (decodeUtf8 raw).map .str)
  | TYPE.BINARY => decodeRaw view offset "a binary blob" (fun raw => .ok (.bytes raw))
  | TYPE.ARRAY => decodeContainer view offset (fun count offset =>
      decodeItems decodeAt count offset [])
  | TYPE.OBJECT => decodeContainer view offset (fun count offset =>
      decodePairs view decodeAt count offset [])
  | kind => .error (unknownType kind)

section

variable (P : PyRuntime D) (view : Bytes) (decodeAt : ℕ → Except PyError (PyValue D × ℕ)) (offset : ℕ)

@[simp] theorem decodeKind_int : decodeKind P view decodeAt TYPE.INT offset =
    decodeWord view offset "an int" fun n => .ok (.int (toInt64 n)) := rfl

@[simp] theorem decodeKind_float : decodeKind P view decodeAt TYPE.FLOAT offset =
    decodeWord view offset "a float" fun n => .ok (.float (.ofNat n)) := rfl

@[simp] theorem decodeKind_date : decodeKind P view decodeAt TYPE.DATE offset =
    decodeWord view offset "a date" (decodeDate P) := rfl

@[simp] theorem decodeKind_pointer : decodeKind P view decodeAt TYPE.POINTER offset =
    decodeWord view offset "a pointer" fun n => .ok (.pointer (.ofNat n)) := rfl

@[simp] theorem decodeKind_oid : decodeKind P view decodeAt TYPE.OID offset =
    if h : (slice view offset 12).length = 12 then .ok (.oid ⟨_, h⟩, offset + 12)
    else .error (unexpectedEnd "an ObjectId") := rfl

@[simp] theorem decodeKind_string : decodeKind P view decodeAt TYPE.STRING offset =
    decodeRaw view offset "a string" fun raw => (decodeUtf8 raw).map .str := rfl

@[simp] theorem decodeKind_binary : decodeKind P view decodeAt TYPE.BINARY offset =
    decodeRaw view offset "a binary blob" fun raw => .ok (.bytes raw) := rfl

@[simp] theorem decodeKind_array : decodeKind P view decodeAt TYPE.ARRAY offset =
    decodeContainer view offset fun count offset => decodeItems decodeAt count offset [] := rfl

@[simp] theorem decodeKind_object : decodeKind P view decodeAt TYPE.OBJECT offset =
    decodeContainer view offset fun count offset =>
      decodePairs view decodeAt count offset [] := rfl

end

def decodeAt (P : PyRuntime D) (view : Bytes) : ℕ → ℕ → Except PyError (PyValue D × ℕ)
  | 0, _ => .error .recursion
  | fuel + 1, offset => do
    need view offset 1 "a type byte"
    decodeKind P view (decodeAt P view fuel) ((view.drop offset).headD 0) (offset + 1)

/-- One value; trailing bytes are an error. -/
def decode (P : PyRuntime D) (view : Bytes) : Except PyError (PyValue D) := do
  let (value, offset) ← decodeAt P view (view.length + 1) 0
  if offset ≠ view.length then
    .error (.binjson (toString (view.length - offset) ++ " trailing byte(s) after the value"))
  else .ok value

/-- The values of a stream, in the order they are yielded. -/
def decodeStreamFrom (P : PyRuntime D) (view : Bytes) : ℕ → ℕ → Except PyError (List (PyValue D))
  | 0, offset => if offset < view.length then .error .recursion else .ok []
  | fuel + 1, offset =>
    if offset < view.length then do
      let (value, offset) ← decodeAt P view (view.length + 1) offset
      let values ← decodeStreamFrom P view fuel offset
      return value :: values
    else .ok []

def decodeStream (P : PyRuntime D) (view : Bytes) : Except PyError (List (PyValue D)) :=
  decodeStreamFrom P view view.length 0

/-- The size of a value whose type byte stands at the offset. -/
def kindSize (view : Bytes) (kind : UInt8) (offset : ℕ) : Except PyError ℕ :=
  match kind with
  | TYPE.NULL | TYPE.TRUE | TYPE.FALSE => .ok 1
  | TYPE.INT | TYPE.FLOAT | TYPE.DATE | TYPE.POINTER => .ok 9
  | TYPE.OID => .ok 13
  | TYPE.STRING | TYPE.BINARY | TYPE.ARRAY | TYPE.OBJECT => do
    let (length, _) ← u32 view (offset + 1)
    return 1 + 4 + length
  | kind => .error (unknownType kind)

/-- The whole size of the value at an offset, without its contents. -/
def valueSize (view : Bytes) (offset : ℕ) : Except PyError ℕ := do
  need view offset 1 "a type byte"
  kindSize view ((view.drop offset).headD 0) offset

end SukkalMsg.PyBinjson
