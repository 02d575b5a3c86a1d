import SukkalMsg.Pusher

/-!
# `PUT /push` and `DELETE /push`

A registration settles once where it starts, by writing the receipts it would
otherwise have; one that exists keeps its place. Then it goes into the registry,
and into the engine. Unregistering keeps the receipts, unless it is asked to purge
them.
-/

namespace SukkalMsg

open Std Names Binjson OrderedScan

/-- The body of an answer: a text, a record, or the batch of a read. -/
inductive Payload where
  | text (msg : Bytes)
  | record (r : Record)
  | batch (entries : List Entry)

structure Response where
  status : ℕ
  headers : List (Bytes × Bytes)
  payload : Payload

def resErr (status : ℕ) (msg : String) : Response := ⟨status, [], .text (ascii msg)⟩
def resBj (r : Record) : Response := ⟨200, [], .record r⟩

namespace Request

/-- What a zeroed buffer holds after `query_get`, also where the value did not fit. -/
def queryBuf (req : Request) (key : Bytes) (size : ℕ) : Bytes :=
  match req.query key with
  | none => []
  | some v => cString (v.take (size - 1))

/-- A name the query may carry: absent, refused with an answer, or valid. -/
def queryName (req : Request) (key : Bytes) (size : ℕ) (valid : Bytes → Bool) (msg : String) :
    Except Response (Option Bytes) :=
  match req.queryGet key size with
  | .absent => .ok none
  | .refused => .error (resErr 400 msg)
  | .value buf => if valid buf then .ok (some buf) else .error (resErr 400 msg)

def queryConsumer (req : Request) : Except Response (Option Bytes) :=
  req.queryName (ascii "consumer") (BJM_CONSUMER_MAX + 1) bjmConsumerValid
    ("invalid consumer: expected 1-128 chars of " ++ "[A-Za-z0-9_.-], no leading/trailing dot\n")

def queryGroup (req : Request) : Except Response (Option Bytes) :=
  req.queryName (ascii "group") (BJM_GROUP_MAX + 1) bjmGroupValid
    ("invalid group: expected 1-128 chars of " ++ "[A-Za-z0-9_.-], no leading/trailing dot\n")

def startsLast (req : Request) : Bool :=
  match req.queryGet (ascii "start") 8 with
  | .value buf => buf = ascii "last"
  | _ => false

end Request

def patternOf (req : Request) (pre : Bytes) : Except Response Bytes :=
  let p := req.path.drop pre.length
  if (if bjmPatternIs p then bjmPatternValid p else bjmSubjectValid p) then .ok p
  else .error (resErr 400 ("invalid subject or pattern: '.'-separated tokens " ++
    "of [A-Za-z0-9_-], '*' for one token, '>' for the rest (last only)\n"))

/-- A registration that has passed its checks; `group` apart, these are the fields
of the request. -/
structure Registration where
  consumer : Bytes
  cfg : PushSub

def tokenOf (req : Request) : Except Response Bytes :=
  match req.queryGet (ascii "token") (BJM_TOKEN_MAX + 1) with
  | .value buf =>
    if bjmTokenValid buf then .ok buf
    else .error (resErr 400 ("invalid token: up to 128 printable, space-free " ++ "bytes\n"))
  | _ => .ok (req.queryBuf (ascii "token") (BJM_TOKEN_MAX + 1))

def callbackOf (req : Request) : Except Response Bytes :=
  let refusal := resErr 400 ("?callback=<url> is required: an http:// or " ++
    "https:// URL this broker can reach, which is " ++ "where messages are POSTed\n")
  match req.queryGet (ascii "callback") (BJM_CALLBACK_MAX + 1) with
  | .value buf => if bjmCallbackValid buf then .ok buf else .error refusal
  | _ => .error refusal

/-- Everything `h_push_put` reads of the request and checks. -/
def registration (req : Request) : Except Response Registration :=
  match patternOf req (ascii "/push/") with
  | .error a => .error a
  | .ok pattern => match req.queryConsumer with
    | .error a => .error a
    | .ok none => .error (resErr 400 ("?consumer=<name> is required: it is the " ++
        "subscription's identity and where its receipt " ++ "is kept\n"))
    | .ok (some consumer) => match callbackOf req with
      | .error a => .error a
      | .ok callback => match tokenOf req with
        | .error a => .error a
        | .ok token => match req.queryGroup with
          | .error a => .error a
          | .ok group => .ok ⟨consumer,
              { pattern := cut (BJM_SUBJECT_MAX + 1) pattern
                callback := callback
                token := token
                group := group.getD []
                batchBytes := req.queryU64 (ascii "batch") 0
                maxJobs := min (req.queryU64 (ascii "max") 0) BJM_PUSH_JOBS_MAX }⟩

namespace Store

/-- One turn of the seeding loop: a subject without a receipt gets one. -/
def seedOne (st : Store) (consumer : Bytes) (atEnd : Bool) (start : ℕ) (name : Bytes) : Store :=
  match st.bjmCursorGet name consumer with
  | .ok none =>
    let at_ := if atEnd then st.bjmLastIndex name else if start > 1 then start - 1 else 0
    match st.bjmCursorSet name consumer at_ with
    | .error _ => st
    | .ok st => st
  | _ => st

end Store

namespace App

/-- `bjm_pusher_seed`. -/
def seed (b : App) (consumer pattern : Bytes) (atEnd : Bool) (start : ℕ) : App :=
  let probe := b.push.psubNew consumer { PushSub.zero with
    pattern := cut (BJM_SUBJECT_MAX + 1) pattern }
  { store := (b.push.names.filter probe.isMatch).foldl
      (fun st name => st.seedOne consumer atEnd start name) b.store
    push := { b.push with work := true } }

def seedFor (b : App) (req : Request) (r : Registration) : App :=
  if r.cfg.group = [] then
    b.seed r.consumer r.cfg.pattern req.startsLast (req.queryU64 (ascii "from") 0)
  else b

def registeredRecord (r : Registration) (created : Bool) : Record :=
  [.beginObject,
    .key (ascii "consumer"), .string r.consumer,
    .key (ascii "pattern"), .string r.cfg.pattern,
    .key (ascii "callback"), .string r.cfg.callback,
    .key (ascii "group"), .string r.cfg.group,
    .key (ascii "created"), .bool created,
    .endObject]

def register (b : App) (r : Registration) : App :=
  ⟨b.store.bjmPushSet r.consumer r.cfg, b.push.add r.consumer r.cfg⟩

def hPushPut (b : App) (req : Request) : Response × App :=
  match registration req with
  | .error a => (a, b)
  | .ok r => match b.store.bjmPushGet r.consumer with
    | .error e => (resErr (statusFor e) "lookup failed\n", b)
    | .ok found =>
      let b := if found.isNone then b.seedFor req r else b
      (resBj (registeredRecord r found.isNone), b.register r)

def unregisteredRecord (consumer : Bytes) (deleted : Bool) (purged : ℕ) : Record :=
  [.beginObject,
    .key (ascii "consumer"), .string consumer,
    .key (ascii "deleted"), .bool deleted,
    .key (ascii "purged"), putInt purged,
    .endObject]

/-- The consumer a `DELETE /push` names. -/
def unregistration (req : Request) : Except Response Bytes :=
  match req.queryConsumer with
  | .error a => .error a
  | .ok none => .error (resErr 400 "?consumer=<name> is required\n")
  | .ok (some consumer) => .ok consumer

def unregister (b : App) (consumer : Bytes) : App :=
  ⟨(b.store.bjmPushDelete consumer).2, b.push.remove consumer⟩

def purges (req : Request) : Bool := req.queryU64 (ascii "purge") 0 ≠ 0

def hPushDelete (b : App) (req : Request) : Response × App :=
  match unregistration req with
  | .error a => (a, b)
  | .ok consumer =>
    let deleted := (b.store.bjmPushDelete consumer).1
    let b := b.unregister consumer
    if purges req then
      let (purged, st) := b.store.bjmCursorDeleteConsumer consumer
      (resBj (unregisteredRecord consumer deleted purged), { b with store := st })
    else (resBj (unregisteredRecord consumer deleted 0), b)

end App

end SukkalMsg
