import SukkalMsg.Dedup
import SukkalMsg.QueueSettlement
import SukkalMsg.Text

/-!
# `POST /pub`

A request is a path, a content type, a body and a query that is read into buffers
of fixed size. The handler checks the request, looks its id up, appends the
message unless the id is known, remembers the id, and moves a receipt last.
-/

namespace SukkalMsg

open Std Names Binjson OrderedScan TwoGenerations

def SUKKAL_MEDIA_TYPE : Bytes := ascii "application/binjson"

structure Request where
  path : Bytes
  contentType : Option Bytes
  body : Option Bytes
  /-- The decoded value of a query parameter, whatever its length. -/
  query : Bytes → Option Bytes

/-- What `query_get` answers: 0, -1 or 1. -/
inductive QueryValue where
  | absent
  | refused
  | value (buf : Bytes)

def Request.queryGet (req : Request) (key : Bytes) (size : ℕ) : QueryValue :=
  match req.query key with
  | none => .absent
  | some v => if v.length + 1 > size then .refused else .value (cString v)

def Request.queryU64 (req : Request) (key : Bytes) (dflt : ℕ) : ℕ :=
  match req.queryGet key 32 with
  | .value buf =>
    let (v, rest) := strtoull buf
    if rest = buf ∨ rest ≠ [] then dflt else v
  | _ => dflt

structure Shape where
  seen : ℤ
  ok : ℕ

/-- `seen++` on an `int`: past the largest, which C leaves open, it comes round. -/
def Shape.next (s : Shape) : ℤ :=
  if s.seen + 1 < 2 ^ 31 then s.seen + 1 else s.seen + 1 - 2 ^ 32

/-- `shape_array`, `shape_object` and `shape_other`. -/
def shapeVisit (s : Shape) : Callback → Shape
  | .arrayBegin count => ⟨s.next, if s.seen = 0 ∧ count = 2 then 1 else s.ok⟩
  | .objectBegin _ => ⟨s.next, if s.seen = 1 ∧ s.ok ≠ 0 then 2 else s.ok⟩
  | .arrayEnd | .objectEnd | .key => s
  | _ => ⟨s.next, if s.seen < 2 then 0 else s.ok⟩

def bjmEnvelopeShapeOk (V : Vendor) (data : Bytes) : Bool :=
  match V.callbacks data with
  | none => false
  | some cbs => (cbs.foldl shapeVisit ⟨0, 0⟩).ok == 2

def statusFor : BjErr → ℕ
  | .range => 416
  | .state => 404
  | .oom => 503
  | _ => 500

/-- What a publish is answered: an error text, or the object of its success. -/
inductive Answer where
  | err (status : ℕ) (msg : Bytes)
  | published (subject : Bytes) (index : ℕ) (acked : Option ℕ) (duplicate : Option Bool)
  deriving DecidableEq

/-- The object a successful publish is answered with. -/
def publishedRecord (subject : Bytes) (index : ℕ) (acked : Option ℕ) (duplicate : Option Bool) :
    Record :=
  [.beginObject, .key (ascii "subject"), .string subject, .key (ascii "index"), putInt index] ++
    (match acked with
      | none => []
      | some n => [.key (ascii "acked"), putInt n]) ++
    (match duplicate with
      | none => []
      | some b => [.key (ascii "duplicate"), .bool b]) ++
    [.endObject]

def Answer.status : Answer → ℕ
  | .err status _ => status
  | .published .. => 200

def subjectOf (req : Request) (pre : Bytes) : Except Answer Bytes :=
  let subject := req.path.drop pre.length
  if bjmSubjectValid subject then .ok subject
  else .error (.err 400 (ascii ("invalid subject: expected 1-128 chars of " ++
    "[A-Za-z0-9_.-], no leading/trailing dot\n")))

structure Publication where
  subject : Bytes
  entry : Entry
  id : Option Bytes

/-- The entry type the `headers` flag asks for, when the body has its shape. -/
def entryType (V : Vendor) (req : Request) (body : Bytes) : Except Answer ℤ :=
  if req.queryU64 (ascii "headers") 0 = 0 then .ok BJM_ENTRY_PLAIN
  else if bjmEnvelopeShapeOk V body then .ok BJM_ENTRY_ENVELOPE
  else .error (.err 400 (ascii ("with ?headers=1 the body must be a 2-element " ++
    "array: [ headers-object, message ]\n")))

/-- The idempotency id; one too long for its buffer counts as none. -/
def requestId (req : Request) : Except Answer (Option Bytes) :=
  match req.queryGet (ascii "id") (BJM_DEDUP_ID_MAX + 1) with
  | .value id =>
    if bjmDedupIdValid id then .ok (some id)
    else .error (.err 400 (ascii "invalid id: 1-128 printable bytes, no '/'\n"))
  | _ => .ok none

/-- Everything `h_publish` checks before it touches the store. -/
def publication (V : Vendor) (req : Request) : Except Answer Publication :=
  match subjectOf req (ascii "/pub/") with
  | .error a => .error a
  | .ok subject =>
    if req.contentType ≠ some SUKKAL_MEDIA_TYPE then
      .error (.err 415 (ascii "expected Content-Type: application/binjson\n"))
    else match req.body with
      | none | some [] => .error (.err 400 (ascii "empty body\n"))
      | some body =>
        if V.valueSize body ≠ some body.length then
          .error (.err 400 (ascii "body is not exactly one binjson value\n"))
        else match entryType V req body with
          | .error a => .error a
          | .ok type => match requestId req with
            | .error a => .error a
            | .ok id => .ok ⟨subject, ⟨type, body⟩, id⟩

namespace Store

def publishFresh (st : Store) (now : ℕ) (p : Publication) :
    Except Answer (ℕ × Bool) × Store :=
  match st.bjmPublish now p.subject p.entry with
  | .error e => (.error (.err (statusFor e) (ascii "publish failed\n")), st)
  | .ok (index, st) => match p.id with
    | none => (.ok (index, false), st)
    | some id => (.ok (index, false), (st.bjmDedupRecord now p.subject id index).2)

/-- The index the message has, and whether it already had it. -/
def publishOnce (st : Store) (now : ℕ) (p : Publication) :
    Except Answer (ℕ × Bool) × Store :=
  match p.id with
  | none => st.publishFresh now p
  | some id => match st.bjmDedupLookup now p.subject id with
    | (.error e, st) => (.error (.err (statusFor e) (ascii "dedup lookup failed\n")), st)
    | (.ok (some index), st) => (.ok (index, true), st)
    | (.ok none, st) => st.publishFresh now p

def ackRefusal : Answer := .err 400 (ascii "invalid ack_subject or ack_consumer\n")

/-- Move the receipt the request asks for, if it names one completely. -/
def publishAck (st : Store) (req : Request) : Except Answer (Option ℕ) × Store :=
  let ackIndex := req.queryU64 (ascii "ack_index") 0
  if ackIndex = 0 then (.ok none, st)
  else match req.queryGet (ascii "ack_subject") (BJM_SUBJECT_MAX + 1),
      req.queryGet (ascii "ack_consumer") (BJM_CONSUMER_MAX + 1) with
    | .value subject, .value consumer =>
      if !bjmSubjectValid subject || !bjmConsumerValid consumer then (.error ackRefusal, st)
      else match st.bjmCursorSet subject consumer ackIndex with
        | .error e => (.error (.err (statusFor e) (ascii "ack failed\n")), st)
        | .ok st => (.ok (some ackIndex), st)
    | _, _ => (.ok none, st)

def hPublish (V : Vendor) (st : Store) (now : ℕ) (req : Request) : Answer × Store :=
  match publication V req with
  | .error a => (a, st)
  | .ok p => match st.publishOnce now p with
    | (.error a, st) => (a, st)
    | (.ok (index, duplicate), st) => match st.publishAck req with
      | (.error a, st) => (a, st)
      | (.ok acked, st) => (.published p.subject index acked (p.id.map fun _ => duplicate), st)

/-- A broker that stopped and started again: the files stay, the rest is gone. -/
def restart (st : Store) : Store :=
  { st with
    subs := ∅
    policyOpen := false
    ddOpen := false
    ddGen := false
    ddRotatedMs := 0 }

theorem publication_valid {V : Vendor} {req : Request} {p : Publication}
    (h : publication V req = .ok p) :
    bjmSubjectValid p.subject = true ∧ ∀ id, p.id = some id → bjmDedupIdValid id = true := by
  simp only [publication] at h
  cases hs : subjectOf req (ascii "/pub/") with
  | error a => simp [hs] at h
  | ok subject =>
    have hvalid : bjmSubjectValid subject = true := by
      simp only [subjectOf] at hs
      split at hs
      · rename_i hv
        rwa [Except.ok.inj hs] at hv
      · contradiction
    simp only [hs] at h
    split at h
    · contradiction
    split at h
    · contradiction
    · contradiction
    split at h
    · contradiction
    split at h
    · contradiction
    split at h
    · contradiction
    rename_i id hid
    obtain rfl := Except.ok.inj h
    refine ⟨hvalid, fun i hi => ?_⟩
    simp only at hi
    subst hi
    simp only [requestId] at hid
    split at hid
    · split at hid
      · rename_i hv
        obtain rfl := Option.some.inj (Except.ok.inj hid)
        exact hv
      · contradiction
    · simp at hid

theorem subjectOf_error {req : Request} {pre : Bytes} {a : Answer}
    (h : subjectOf req pre = .error a) : ∃ status msg, a = .err status msg := by
  simp only [subjectOf] at h
  split at h
  · contradiction
  · exact ⟨_, _, (Except.error.inj h).symm⟩

theorem entryType_error {V : Vendor} {req : Request} {body : Bytes} {a : Answer}
    (h : entryType V req body = .error a) : ∃ status msg, a = .err status msg := by
  simp only [entryType] at h
  split at h
  · contradiction
  split at h
  · contradiction
  · exact ⟨_, _, (Except.error.inj h).symm⟩

theorem requestId_error {req : Request} {a : Answer} (h : requestId req = .error a) :
    ∃ status msg, a = .err status msg := by
  simp only [requestId] at h
  split at h
  · split at h
    · contradiction
    · exact ⟨_, _, (Except.error.inj h).symm⟩
  · contradiction

theorem publication_error {V : Vendor} {req : Request} {a : Answer}
    (h : publication V req = .error a) : ∃ status msg, a = .err status msg := by
  simp only [publication] at h
  split at h
  · rename_i hs
    exact subjectOf_error ((Except.error.inj h) ▸ hs)
  split at h
  · exact ⟨_, _, (Except.error.inj h).symm⟩
  split at h
  · exact ⟨_, _, (Except.error.inj h).symm⟩
  · exact ⟨_, _, (Except.error.inj h).symm⟩
  split at h
  · exact ⟨_, _, (Except.error.inj h).symm⟩
  split at h
  · rename_i ht
    exact entryType_error ((Except.error.inj h) ▸ ht)
  split at h
  · rename_i hid
    exact requestId_error ((Except.error.inj h) ▸ hid)
  · contradiction

theorem publishAck_same (st : Store) (req : Request) :
    (st.publishAck req).2 = { st with cursors := (st.publishAck req).2.cursors } := by
  simp only [publishAck]
  split
  · rfl
  split
  · split
    · rfl
    · split
      · rfl
      · rename_i hset
        rcases bjmCursorSet_eq hset with ⟨rfl, -⟩ | ⟨rfl, -⟩ <;> rfl
  · rfl

theorem publishAck_error {st : Store} {req : Request} {a : Answer}
    (h : (st.publishAck req).1 = .error a) : ∃ status msg, a = .err status msg := by
  simp only [publishAck] at h
  split at h
  · contradiction
  split at h
  · split at h
    · exact ⟨_, _, (Except.error.inj h).symm⟩
    · split at h
      · exact ⟨_, _, (Except.error.inj h).symm⟩
      · contradiction
  · contradiction

theorem publishAck_congr {st st' : Store} (h : st'.cursors = st.cursors) (req : Request) :
    (st'.publishAck req).1 = (st.publishAck req).1 := by
  have hget : ∀ s c, st'.bjmCursorGet s c = st.bjmCursorGet s c := fun s c => by
    simp only [bjmCursorGet, h]
  have hset : ∀ s c n, (st'.bjmCursorSet s c n).map (fun _ => ()) =
      (st.bjmCursorSet s c n).map fun _ => () := fun s c n => by
    simp only [bjmCursorSet, hget]
    cases st.bjmCursorGet s c with
    | error e => rfl
    | ok current =>
      dsimp only
      split
      · rfl
      · cases cursorKey s c <;> rfl
  simp only [publishAck]
  split
  · rfl
  split
  · rename_i subject consumer _ _
    split
    · rfl
    · have hsc := hset subject consumer (req.queryU64 (ascii "ack_index") 0)
      cases h₁ : st'.bjmCursorSet subject consumer (req.queryU64 (ascii "ack_index") 0) <;>
        cases h₂ : st.bjmCursorSet subject consumer (req.queryU64 (ascii "ack_index") 0) <;>
        simp_all [Except.map]
  · rfl

theorem publishFresh_eq (st : Store) (now : ℕ) {p : Publication}
    (hs : bjmSubjectValid p.subject = true) :
    ∃ st₁, st.bjmPublish now p.subject p.entry = .ok ((st.logOf p.subject).last + 1, st₁) ∧
      (st.publishFresh now p).1 = .ok ((st.logOf p.subject).last + 1, false) ∧
      (st.publishFresh now p).2 = match p.id with
        | none => st₁
        | some id => (st₁.bjmDedupRecord now p.subject id ((st.logOf p.subject).last + 1)).2 := by
  obtain ⟨index, st₁, hpub⟩ := bjmPublish_ok st now p.entry
    (fileFits_of_valid hs)
  obtain ⟨rfl, -, -⟩ := bjmPublish_eq hpub
  refine ⟨st₁, hpub, ?_, ?_⟩ <;> simp only [publishFresh, hpub] <;> cases p.id <;> rfl

end Store

end SukkalMsg
