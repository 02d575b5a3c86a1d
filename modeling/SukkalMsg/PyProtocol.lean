import SukkalMsg.PyBinjson

/-!
# The shapes on the wire, as the Python package reads them

A message with headers is published as a list of the two, and only the type of its
entry says so. A delivery body is a list of entries, and the message stands in each as
the bytes it was published in.
-/

namespace SukkalMsg.PyProtocol

open PyBinjson

def ENTRY_PLAIN : ℤ := 0x01
def ENTRY_ENVELOPE : ℤ := 0x10

structure Message (D : Type) where
  index : ℤ
  value : PyValue D
  headers : PyValue D
  raw : Bytes
  subject : String
  lag : ℤ
  type : ℤ

structure Job (D : Type) extends Message D where
  attempts : ℤ
  expiresAt : Option D
  group : String

inductive Delivery (D : Type) where
  | message (m : Message D)
  | job (j : Job D)

structure DeliveryInfo where
  subject : String
  consumer : String
  group : String
  count : ℤ
  firstIndex : ℤ
  lastIndex : ℤ
  lag : ℤ

/-- What a parse raises: the codec's own, `ValueError`, `KeyError`, `TypeError`,
`OverflowError`. -/
inductive ParseError where
  | raised (e : PyError)
  | value (msg : String)
  | key (name : String)
  | type
  | overflow
  deriving DecidableEq

/-- More of the interpreter's conversions: `int(text)`, and
`datetime.fromtimestamp(ms / 1000, tz=utc)` of a float. -/
structure PyConversions (D : Type) where
  intOfText : Bytes → Option ℤ
  floatTimestamp : UInt64 → Option D

variable {D : Type}

def encodeMessage (P : PyRuntime D) (value : PyValue D) :
    Option (List (String × PyValue D)) → Except PyError (Bytes × Bool)
  | none => (encode P value).map (·, false)
  | some headers => (encode P (.list [.dict headers, value])).map (·, true)

/-- `entry.get("type") == ENTRY_ENVELOPE`; the float is 16.0. -/
def isEnvelope : Option (PyValue D) → Bool
  | some (.int n) => n = ENTRY_ENVELOPE
  | some (.float bits) => bits = 0x4030000000000000
  | _ => false

/-- The headers of an entry, `None` when it has none, and its message. -/
def unwrap (P : PyRuntime D) (entry : List (String × PyValue D)) :
    Except ParseError (PyValue D × PyValue D) :=
  match entry.lookup "payload" with
  | none => .error (.key "payload")
  | some (.bytes raw) => match decode P raw with
    | .error e => .error (.raised e)
    | .ok value => .ok (match isEnvelope (entry.lookup "type"), value with
      | true, .list [headers, value] => (headers, value)
      | _, value => (.none, value))
  | some _ => .error .type

/-- `int(x)` of a float: towards zero. -/
def truncate (bits : UInt64) : Except ParseError ℤ :=
  let exponent := bits.toNat / 2 ^ 52 % 2 ^ 11
  let fraction := bits.toNat % 2 ^ 52
  if exponent = 2047 then
    .error (if fraction = 0 then .overflow else .value "cannot convert float NaN to integer")
  else
    let significand := if exponent = 0 then fraction else 2 ^ 52 + fraction
    let scale := max exponent 1
    let magnitude : ℕ := if 1075 ≤ scale then significand * 2 ^ (scale - 1075)
      else significand / 2 ^ (1075 - scale)
    .ok (if bits.toNat < 2 ^ 63 then magnitude else -magnitude)

def intOf (C : PyConversions D) : PyValue D → Except ParseError ℤ
  | .int n => .ok n
  | .bool b => .ok (if b then 1 else 0)
  | .float bits => truncate bits
  | .str s => (C.intOfText (utf8 s)).elim (.error (.value "invalid literal for int()")) .ok
  | .bytes raw => (C.intOfText raw).elim (.error (.value "invalid literal for int()")) .ok
  | _ => .error .type

def falsy : PyValue D → Bool
  | .none => true
  | .bool b => !b
  | .int n => n = 0
  | .float bits => bits = 0 ∨ bits = 0x8000000000000000
  | .str s => s = ""
  | .bytes raw => raw = []
  | .list items | .tuple items => items.isEmpty
  | .dict items => items.isEmpty
  | _ => false

/-- `datetime.fromtimestamp(expires / 1000, tz=utc) if expires else None`, where `expires`
is `entry.get("expires_ms") or 0`. -/
def expiry (P : PyRuntime D) (C : PyConversions D) :
    Option (PyValue D) → Except ParseError (Option D)
  | none => .ok none
  | some expires =>
    let stamp (when : Option D) : Except ParseError (Option D) :=
      when.elim (.error (.raised .date)) (.ok ∘ some)
    if falsy expires then .ok none
    else match expires with
      | .int n => stamp (P.fromtimestamp n)
      | .bool _ => stamp (P.fromtimestamp 1)
      | .float bits => stamp (C.floatTimestamp bits)
      | _ => .error .type

def field (C : PyConversions D) (entry : List (String × PyValue D)) (key : String) :
    Except ParseError ℤ :=
  match entry.lookup key with
  | none => .error (.key key)
  | some v => intOf C v

def fieldOr (C : PyConversions D) (entry : List (String × PyValue D)) (key : String) (dflt : ℤ) :
    Except ParseError ℤ :=
  match entry.lookup key with
  | none => .ok dflt
  | some v => intOf C v

/-- The bytes `entry["payload"]` holds; `unwrap` has checked that it does. -/
def payloadOf (entry : List (String × PyValue D)) : Bytes :=
  match entry.lookup "payload" with
  | some (.bytes raw) => raw
  | _ => []

def parseEntry (P : PyRuntime D) (C : PyConversions D) (info : DeliveryInfo) (asJob : Bool) :
    PyValue D → Except ParseError (Delivery D)
  | .dict entry => do
    let (headers, value) ← unwrap P entry
    let index ← field C entry "index"
    let type ← fieldOr C entry "type" ENTRY_PLAIN
    if asJob then
      let attempts ← fieldOr C entry "attempts" 1
      let expiresAt ← expiry P C (entry.lookup "expires_ms")
      return .job ⟨⟨index, value, headers, payloadOf entry, info.subject, 0, type⟩,
        attempts, expiresAt, info.group⟩
    else
      return .message ⟨index, value, headers, payloadOf entry, info.subject, info.lag, type⟩
  | _ => .error .type

def parseDelivery (P : PyRuntime D) (C : PyConversions D) (body : Bytes) (info : DeliveryInfo)
    (asJob : Bool) : Except ParseError (List (Delivery D)) :=
  match decode P body with
  | .error e => .error (.raised e)
  | .ok (.list entries) => entries.mapM (parseEntry P C info asJob)
  | .ok _ => .error (.value "delivery body is not a batch")

end SukkalMsg.PyProtocol
