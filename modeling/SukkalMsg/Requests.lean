import SukkalMsg.Listings

/-!
# The handlers behind the routes

A handler reads its request, calls the store, and answers. Errors are plain text;
everything else is a record, or the batch of a read. What the host supplies beside
the store (a directory listing, the decoder of a message's bytes, what is carrying
the requests) is a parameter.
-/

namespace SukkalMsg

open Std Names Binjson OrderedScan

def SUKKAL_DEFAULT_BATCH : ℕ := 65536
def SUKKAL_MAX_BODY_BYTES : ℕ := 4 * 1024 * 1024

structure Host where
  vendor : Vendor
  /-- The record `bj_decode` finds in some bytes. -/
  decode : Bytes → Except BjErr Record
  /-- The listing hook's answer. -/
  listing : Option (List Bytes)
  backend : Bytes
  connections : ℕ
  startedS : ℕ

def Answer.response : Answer → Response
  | .err status msg => ⟨status, [], .text msg⟩
  | .published subject index acked duplicate =>
    resBj (publishedRecord subject index acked duplicate)

/-- `(int)n`: the low 32 bits, as a signed number. -/
def toInt32 (n : ℕ) : ℤ := if n % 2 ^ 32 < 2 ^ 31 then (n % 2 ^ 32 : ℕ) else (n % 2 ^ 32 : ℕ) - 2 ^ 32

/-- `subject_of`, answering the request itself when there is none. -/
def subjectAt (req : Request) (pre : Bytes) : Except Response Bytes :=
  match subjectOf req pre with
  | .error a => .error a.response
  | .ok subject => .ok subject

/-- A subject and a consumer, both required. -/
def consumerTarget (req : Request) (pre : Bytes) : Except Response (Bytes × Bytes) :=
  match subjectAt req pre with
  | .error a => .error a
  | .ok subject => match req.queryConsumer with
    | .error a => .error a
    | .ok none => .error (resErr 400 "?consumer=<name> is required\n")
    | .ok (some consumer) => .ok (subject, consumer)

def queueTarget (req : Request) (pre : Bytes) : Except Response (Bytes × Bytes) :=
  match subjectAt req pre with
  | .error a => .error a
  | .ok subject => match req.queryGroup with
    | .error a => .error a
    | .ok none => .error (resErr 400 "?group=<name> is required\n")
    | .ok (some group) => .ok (subject, group)

/-- How much a read may return; out of bounds is the default. -/
def readMax (req : Request) : ℕ :=
  let max := req.queryU64 (ascii "max") SUKKAL_DEFAULT_BATCH
  if max = 0 ∨ max > SUKKAL_MAX_BODY_BYTES then SUKKAL_DEFAULT_BATCH else max

namespace Store

/-- The entries `bjm_read` answers with. -/
def readEntries (st : Store) (name : Bytes) (start count : ℕ) : List Entry :=
  ((st.logOf name).entries.drop (start - (st.logOf name).base - 1)).take count

/-- The receipt a read goes on from: acknowledged first if asked, and made for a
consumer seen for the first time. -/
def readReceipt (st : Store) (subject consumer : Bytes) (req : Request) :
    Except Response ℕ × Store :=
  let ack := req.queryU64 (ascii "ack") 0
  match if ack ≠ 0 then st.bjmCursorSet subject consumer ack else .ok st with
  | .error e => (.error (resErr (statusFor e) "ack failed\n"), st)
  | .ok st => match st.bjmCursorGet subject consumer with
    | .error e => (.error (resErr (statusFor e) "cursor lookup failed\n"), st)
    | .ok (some acked) => (.ok acked, st)
    | .ok none =>
      let acked := if req.startsLast then st.bjmLastIndex subject else 0
      match st.bjmCursorSet subject consumer acked with
      | .error e => (.error (resErr (statusFor e) "cursor create failed\n"), st)
      | .ok st => (.ok acked, st)

end Store

/-- The answer of a read, with the cursor to send next time in its headers. -/
def readAnswer (V : Vendor) (st : Store) (subject : Bytes) (start max skipped : ℕ)
    (acked : Option ℕ) : Response :=
  match st.bjmRead V subject start max with
  | .error .range => resErr 416 ("those messages have been trimmed. Move on with " ++
      "POST /ack/<subject>?consumer=&index= " ++ "(sukkal seek), or start over by deleting the " ++
      "subscription\n")
  | .error e => resErr (statusFor e) "no such subject\n"
  | .ok (count, last) =>
    ⟨200, [(ascii "X-Sukkal-Count", decimalText count),
        (ascii "X-Sukkal-Last-Index", decimalText last)] ++
      (if skipped ≠ 0 then [(ascii "X-Sukkal-Skipped", decimalText skipped)] else []) ++
      (match acked with
        | none => []
        | some n => [(ascii "X-Sukkal-Acked", decimalText n)]),
      .batch (st.readEntries subject start count)⟩

def ackedRecord (subject consumer : Bytes) (acked : ℕ) : Record :=
  [.beginObject,
    .key (ascii "subject"), .string subject,
    .key (ascii "consumer"), .string consumer,
    .key (ascii "acked"), putInt acked,
    .endObject]

def deletedRecord (subject key name : Bytes) (deleted : Bool) : Record :=
  [.beginObject,
    .key (ascii "subject"), .string subject,
    .key key, .string name,
    .key (ascii "deleted"), .bool deleted,
    .endObject]

def infoRecord (subject : Bytes) (base last bytes consumers : ℕ) : Record :=
  [.beginObject,
    .key (ascii "subject"), .string subject,
    .key (ascii "base"), putInt base,
    .key (ascii "first"), putInt (if last > base then base + 1 else 0),
    .key (ascii "last"), putInt last,
    .key (ascii "messages"), putInt (last - base),
    .key (ascii "bytes"), putInt bytes,
    .key (ascii "consumers"), putInt consumers,
    .endObject]

def trimmedRecord (subject : Bytes) (removed base last : ℕ) : Record :=
  [.beginObject,
    .key (ascii "subject"), .string subject,
    .key (ascii "removed"), putInt removed,
    .key (ascii "base"), putInt base,
    .key (ascii "last"), putInt last,
    .endObject]

def jobEndRecord (done : Bool) (subject group : Bytes) (index : ℕ) (r : Store.Released) : Record :=
  [.beginObject,
    .key (ascii "subject"), .string subject,
    .key (ascii "group"), .string group,
    .key (ascii "index"), putInt index,
    .key (ascii "held"), .bool r.found] ++
    (if done then [] else [.key (ascii "retry_in_ms"), putInt r.retryInMs]) ++ [.endObject]

def requeuedRecord (subject : Bytes) (dead index : ℕ) : Record :=
  [.beginObject,
    .key (ascii "subject"), .string subject,
    .key (ascii "from_dead_index"), putInt dead,
    .key (ascii "index"), putInt index,
    .endObject]

def policyAnswer (subject : Bytes) (found : Bool) (p : Policy) : Record :=
  [.beginObject,
    .key (ascii "subject"), .string subject,
    .key (ascii "policy"), .bool found,
    .key (ascii "max_age_s"), putInt p.maxAgeS,
    .key (ascii "max_messages"), putInt p.maxMessages,
    .key (ascii "max_bytes"), putInt p.maxBytes,
    .key (ascii "ignore_consumers"), .bool p.ignoreConsumers,
    .endObject]

/-- A dead-letter envelope half read. -/
structure EnvGrab where
  key : Bytes
  subject : Bytes
  payload : Option Bytes
  type : ℤ

/-- `env_key`, `env_string`, `env_int` and `env_binary`. -/
def envVisit (g : EnvGrab) : Item → EnvGrab
  | .key k => { g with key := Store.keyBuf 16 k }
  | .string s => if g.key = ascii "subject" then
      { g with subject := Store.keyBuf (BJM_SUBJECT_MAX + 1) s } else g
  | .int v => if g.key = ascii "type" then { g with type := v } else g
  | .binary b => if g.key = ascii "payload" ∧ g.payload = none then { g with payload := some b }
      else g
  | _ => g

namespace Store

/-- What a dead-letter envelope restores: the subject it names, and its message. -/
def deadEnvelope (H : Host) (st : Store) (subject : Bytes) (index : ℕ) :
    Except BjErr (Bytes × Entry) :=
  match deadSubjectOf subject with
  | none => .error .range
  | some dead => match st.subjectGet dead false with
    | .error e => .error e
    | .ok log => match log.get index with
      | none => .error .range
      | some e => match H.decode e.payload with
        | .error e => .error e
        | .ok r => match bjDecode envVisit r ⟨[], [], none, BJM_ENTRY_PLAIN⟩ with
          | .error e => .error e
          | .ok g => match g.payload with
            | none => .error .verify
            | some payload =>
              if bjmSubjectValid g.subject then .ok (g.subject, ⟨g.type, payload⟩)
              else .error .verify

end Store

namespace App

/-- Publish a dead message again, to the subject its envelope names. -/
def requeue (H : Host) (b : App) (now : ℕ) (subject : Bytes) (index : ℕ) :
    Except BjErr (ℕ × App) :=
  match b.store.deadEnvelope H subject index with
  | .error e => .error e
  | .ok (origin, entry) => match b.store.bjmPublish now origin entry with
    | .error e => .error e
    | .ok (at_, st) => .ok (at_, ⟨st, b.push.notify origin⟩)

/-- `h_publish`; the engine learns of the subject if anything was appended. -/
def hPublish (H : Host) (b : App) (now : ℕ) (req : Request) : Response × App :=
  let (a, st) := b.store.hPublish H.vendor now req
  (a.response, ⟨st, match publication H.vendor req with
    | .error _ => b.push
    | .ok p => match (b.store.publishOnce now p).1 with
      | .ok (_, false) => b.push.notify p.subject
      | _ => b.push⟩)

def hSubscribe (H : Host) (b : App) (req : Request) : Response × App :=
  match subjectAt req (ascii "/sub/") with
  | .error a => (a, b)
  | .ok subject =>
    let start := max 1 (req.queryU64 (ascii "from") 0)
    match b.store.bjmSubjectInfo H.vendor subject with
    | .error _ => (resErr 404 "no such subject\n", b)
    | .ok (base, _, _) => match req.queryConsumer with
      | .error a => (a, b)
      | .ok (some consumer) => match b.store.readReceipt subject consumer req with
        | (.error a, st) => (a, { b with store := st })
        | (.ok acked, st) =>
          (readAnswer H.vendor st subject (u64 (acked + 1)) (readMax req) 0 (some acked),
            { b with store := st })
      | .ok none =>
        if start ≤ base then
          (readAnswer H.vendor b.store subject (base + 1) (readMax req) (base + 1 - start) none, b)
        else (readAnswer H.vendor b.store subject start (readMax req) 0 none, b)

def hAck (b : App) (req : Request) : Response × App :=
  match consumerTarget req (ascii "/ack/") with
  | .error a => (a, b)
  | .ok (subject, consumer) =>
    let index := req.queryU64 (ascii "index") 0
    if index = 0 then (resErr 400 "?index=<n> is required and must be >= 1\n", b)
    else match b.store.bjmCursorSet subject consumer index with
      | .error e => (resErr (statusFor e) "ack failed\n", b)
      | .ok st =>
        -- what the second look finds is not checked
        let acked := match st.bjmCursorGet subject consumer with
          | .ok (some n) => n
          | _ => 0
        (resBj (ackedRecord subject consumer acked), { b with store := st })

def hPushList (b : App) : Response × App := (resBj b.push.list, b)

def hConsumers (b : App) (req : Request) : Response × App :=
  match subjectAt req (ascii "/consumers/") with
  | .error a => (a, b)
  | .ok subject => (resBj (b.store.bjmConsumers subject), b)

def hUnsubscribe (b : App) (req : Request) : Response × App :=
  match consumerTarget req (ascii "/consumers/") with
  | .error a => (a, b)
  | .ok (subject, consumer) => match b.store.bjmCursorDelete subject consumer with
    | .error e => (resErr (statusFor e) "delete failed\n", b)
    | .ok (deleted, st) =>
      (resBj (deletedRecord subject (ascii "consumer") consumer deleted), { b with store := st })

def hInfo (H : Host) (b : App) (req : Request) : Response × App :=
  match subjectAt req (ascii "/info/") with
  | .error a => (a, b)
  | .ok subject => match b.store.bjmSubjectInfo H.vendor subject with
    | .error e => (resErr (statusFor e) "no such subject\n", b)
    | .ok (base, last, bytes) =>
      (resBj (infoRecord subject base last bytes (b.store.bjmConsumerStats subject).1), b)

/-- The bound a trim asks for, 0 when it asks for none. -/
def trimBefore (req : Request) (last : ℕ) : ℕ :=
  let keep := req.queryU64 (ascii "keep") 0
  if keep > 0 then if last > keep then last - keep + 1 else 1
  else req.queryU64 (ascii "before") 0

def hTrim (b : App) (req : Request) : Response × App :=
  match subjectAt req (ascii "/trim/") with
  | .error a => (a, b)
  | .ok subject =>
    let before := trimBefore req (b.store.bjmLastIndex subject)
    if before = 0 then (resErr 400 "?before=<n> or ?keep=<n> is required\n", b)
    else match b.store.bjmTrim subject before (req.queryU64 (ascii "force") 0 ≠ 0) with
      | .error e => (resErr (statusFor e) "trim failed\n", b)
      | .ok (base, removed, st) =>
        (resBj (trimmedRecord subject removed base (st.bjmLastIndex subject)), { b with store := st })

def hTake (H : Host) (b : App) (now : ℕ) (req : Request) : Response × App :=
  match queueTarget req (ascii "/take/") with
  | .error a => (a, b)
  | .ok (subject, group) =>
    let max := toInt32 (req.queryU64 (ascii "max") 1)
    let lease := req.queryU64 (ascii "lease") UINT64_MAX
    match b.store.bjmTake H.vendor now subject group max lease with
    | .error e => (resErr (statusFor e) "no such subject\n", b)
    | .ok t =>
      (⟨200, [(ascii "X-Sukkal-Count", decimalText t.jobs.length)], .record (takeRecord t.jobs)⟩,
        ⟨t.store, b.push.notifyDead b.store subject t.dead⟩)

/-- `h_done` and `h_fail`. -/
def hJobEnd (b : App) (now : ℕ) (req : Request) (done : Bool) : Response × App :=
  match queueTarget req (if done then ascii "/done/" else ascii "/fail/") with
  | .error a => (a, b)
  | .ok (subject, group) =>
    let index := req.queryU64 (ascii "index") 0
    if index = 0 then (resErr 400 "?index=<n> is required\n", b)
    else
      let delay := req.queryU64 (ascii "delay") UINT64_MAX
      match if done then b.store.bjmDone now subject group index
        else b.store.bjmFail now subject group index delay with
      | .error e => (resErr (statusFor e) "queue update failed\n", b)
      | .ok r => (resBj (jobEndRecord done subject group index r), { b with store := r.store })

def hDone (b : App) (now : ℕ) (req : Request) : Response × App := b.hJobEnd now req true
def hFail (b : App) (now : ℕ) (req : Request) : Response × App := b.hJobEnd now req false

def hDead (H : Host) (b : App) (req : Request) : Response × App :=
  match subjectAt req (ascii "/dead/") with
  | .error a => (a, b)
  | .ok subject =>
    if BJM_DEAD_SUFFIX.isSuffixOf subject then
      (resErr 400 ("that is already a dead-letter channel; it does " ++ "not have one of its own\n"), b)
    else
      let dead := subject ++ BJM_DEAD_SUFFIX
      if dead.length ≥ BJM_SUBJECT_MAX + 1 then
        (resErr 400 ("subject name too long to have a dead-letter " ++ "channel\n"), b)
      else
        let start := max 1 (req.queryU64 (ascii "from") 1)
        match b.store.bjmRead H.vendor dead start (readMax req) with
        | .error .state => (⟨200, [(ascii "X-Sukkal-Count", ascii "0")], .record (arrayRecord [])⟩, b)
        | .error e => (resErr (statusFor e) "dead-letter read failed\n", b)
        | .ok (count, last) =>
          (⟨200, [(ascii "X-Sukkal-Count", decimalText count),
              (ascii "X-Sukkal-Last-Index", decimalText last)],
            .batch (b.store.readEntries dead start count)⟩, b)

def hRequeue (H : Host) (b : App) (now : ℕ) (req : Request) : Response × App :=
  match subjectAt req (ascii "/requeue/") with
  | .error a => (a, b)
  | .ok subject =>
    let index := req.queryU64 (ascii "index") 0
    if index = 0 then
      (resErr 400 ("?index=<n> is required (the index in " ++
        "<subject>.dead, as shown by sukkal dead)\n"), b)
    else if BJM_DEAD_SUFFIX.isSuffixOf subject then
      (resErr 400 ("that is already a dead-letter channel; requeue " ++
        "names the original subject\n"), b)
    else match b.requeue H now subject index with
      | .error .verify => (resErr 422 "that message is not a dead-letter envelope\n", b)
      | .error .range => (resErr 416 ("no such index in the dead-letter channel; " ++
          "sukkal dead lists them\n"), b)
      | .error e => (resErr (statusFor e) "requeue failed\n", b)
      | .ok (at_, b) => (resBj (requeuedRecord subject index at_), b)

def hQueues (b : App) (now : ℕ) (req : Request) : Response × App :=
  match subjectAt req (ascii "/queue/") with
  | .error a => (a, b)
  | .ok subject => (resBj (b.store.bjmQueues now subject), b)

def hQueueConfig (b : App) (now : ℕ) (req : Request) : Response × App :=
  match queueTarget req (ascii "/queue/") with
  | .error a => (a, b)
  | .ok (subject, group) =>
    match b.store.bjmQueueConfig subject group
        (req.queryU64 (ascii "lease_ms") BJM_LEASE_DEFAULT_MS)
        (req.queryU64 (ascii "max_attempts") BJM_MAX_ATTEMPTS_DEFAULT)
        (req.queryU64 (ascii "backoff_ms") BJM_BACKOFF_DEFAULT_MS)
        (req.queryU64 (ascii "max_backoff_ms") BJM_MAX_BACKOFF_DEFAULT_MS) with
    | .error e => (resErr (statusFor e) "queue config failed\n", b)
    | .ok st => ({ b with store := st } : App).hQueues now req

def hQueueDelete (b : App) (req : Request) : Response × App :=
  match queueTarget req (ascii "/queue/") with
  | .error a => (a, b)
  | .ok (subject, group) => match b.store.bjmQueueDelete subject group with
    | .error e => (resErr (statusFor e) "queue delete failed\n", b)
    | .ok (deleted, st) =>
      (resBj (deletedRecord subject (ascii "group") group deleted), { b with store := st })

def hPolicyGet (b : App) (req : Request) : Response × App :=
  match subjectAt req (ascii "/policy/") with
  | .error a => (a, b)
  | .ok subject =>
    let b := { b with store.policyOpen := true }
    match b.store.bjmPolicyGet subject with
    | .error e => (resErr (statusFor e) "policy lookup failed\n", b)
    | .ok (found, p) => (resBj (policyAnswer subject found p), b)

/-- The policy a request asks for: what it leaves out is unlimited. -/
def requestedPolicy (req : Request) : Policy where
  maxAgeS := req.queryU64 (ascii "max_age_s") 0
  maxMessages := req.queryU64 (ascii "max_messages") 0
  maxBytes := req.queryU64 (ascii "max_bytes") 0
  ignoreConsumers := req.queryU64 (ascii "ignore_consumers") 0 ≠ 0

def hPolicyPut (b : App) (req : Request) : Response × App :=
  match subjectAt req (ascii "/policy/") with
  | .error a => (a, b)
  | .ok subject =>
    let p := requestedPolicy req
    if p.maxAgeS = 0 ∧ p.maxMessages = 0 ∧ p.maxBytes = 0 then
      (resErr 400 ("a policy needs at least one of max_age_s, " ++ "max_messages, max_bytes\n"), b)
    else match b.store.bjmPolicySet subject p with
      | .error e => (resErr (statusFor e) "policy write failed\n", b)
      | .ok st => ({ b with store := st } : App).hPolicyGet req

def hPolicyDelete (b : App) (req : Request) : Response × App :=
  match subjectAt req (ascii "/policy/") with
  | .error a => (a, b)
  | .ok subject => match b.store.bjmPolicyClear subject with
    | .error e => (resErr (statusFor e) "policy delete failed\n", b)
    | .ok (cleared, st) =>
      (resBj [.beginObject,
        .key (ascii "subject"), .string subject,
        .key (ascii "cleared"), .bool cleared,
        .endObject], { b with store := st })

def hPolicies (b : App) : Response × App :=
  (resBj b.store.bjmPolicyList, { b with store.policyOpen := true })

def hSubjects (H : Host) (b : App) (req : Request) : Response × App :=
  let answer := fun pattern => match H.listing with
    | none => resErr 500 "listing failed\n"
    | some names => resBj (Store.bjmSubjects names pattern)
  match req.queryGet (ascii "pattern") (BJM_SUBJECT_MAX + 1) with
  | .value pattern =>
    if bjmPatternValid pattern then (answer (some pattern), b)
    else (resErr 400 ("invalid pattern: '.'-separated tokens, '*' for one " ++
      "token, '>' for the rest (last only)\n"), b)
  | _ => (answer none, b)

def hHealth (H : Host) (b : App) (now : ℕ) : Response × App :=
  (resBj [.beginObject,
    .key (ascii "ok"), .bool true,
    .key (ascii "backend"), .string H.backend,
    .key (ascii "subjects"), putInt ((H.listing.map Store.bjmSubjectCount).getD 0),
    .key (ascii "connections"), putInt H.connections,
    .key (ascii "uptime_s"), putInt (u64Sub (now / 1000) H.startedS),
    .key (ascii "dedup_window_ms"), putInt b.store.bjmDedupWindow,
    .endObject], b)

end App

end SukkalMsg
