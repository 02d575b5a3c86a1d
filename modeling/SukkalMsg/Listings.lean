import SukkalMsg.Policies
import SukkalMsg.PushHandlers

/-!
# What the broker reports

Listings walk a range of a tree and build one object for each record that decodes.
The subjects come from a directory listing the host supplies.
-/

namespace SukkalMsg

open Std Names Binjson OrderedScan

def arrayRecord (objects : List Record) : Record :=
  .beginArray :: objects.flatten ++ [.endArray]

namespace Store

/-- The objects of the receipts of a subject, each with the rest of its key. -/
def consumerObjects (st : Store) (subject : Bytes) : List Record :=
  let last := st.bjmLastIndex subject
  (subjectRange st.cursors subject).filterMap fun x =>
    match decodeIndex x.2 with
    | .error _ => none
    | .ok acked =>
      if x.1.length ≤ subject.length + 1 then none
      else some [.beginObject,
        .key (ascii "consumer"), .string (x.1.drop (subject.length + 1)),
        .key (ascii "acked"), putInt acked,
        .key (ascii "lag"), putInt (if last > acked then last - acked else 0),
        .endObject]

def bjmConsumers (st : Store) (subject : Bytes) : Record := arrayRecord (st.consumerObjects subject)

/-- The object of one group. -/
def groupObject (now last : ℕ) (subject name : Bytes) (q : Qrec) : Record :=
  [.beginObject,
    .key (ascii "group"), .string name,
    .key (ascii "next"), putInt q.next,
    .key (ascii "pending"), putInt (if last ≥ q.next then last - q.next + 1 else 0),
    .key (ascii "inflight"), putInt q.fl.count,
    .key (ascii "expired"), putInt (q.fl.rows.filter fun e => e.expires ≤ now).length,
    .key (ascii "lease_ms"), putInt q.leaseMs,
    .key (ascii "max_attempts"), putInt q.maxAttempts,
    .key (ascii "backoff_ms"), putInt q.backoffMs,
    .key (ascii "max_backoff_ms"), putInt q.maxBackoffMs,
    .key (ascii "dead"), putInt q.deadTotal,
    .key (ascii "dead_subject"),
    match deadSubjectOf subject with
      | none => .null
      | some dead => .string dead,
    .key (ascii "dead_indexes"), .beginArray] ++ q.dead.rows.map putInt ++
    [.endArray, .endObject]

def bjmQueues (st : Store) (now : ℕ) (subject : Bytes) : Record :=
  let last := st.bjmLastIndex subject
  arrayRecord ((subjectRange st.queues subject).filterMap fun x =>
    if x.1.length ≤ subject.length + 1 then none
    else (queueDecode x.2).toOption.map
      (groupObject now last subject (x.1.drop (subject.length + 1))))

def bjmPolicyList (st : Store) : Record :=
  arrayRecord ((scan st.policy (ascii "p/") (ascii "p0")).filterMap fun x =>
    if x.1.length ≤ 2 then none
    else (policyDecode x.2).toOption.map fun p =>
      [.beginObject,
        .key (ascii "subject"), .string (x.1.drop 2),
        .key (ascii "max_age_s"), putInt p.maxAgeS,
        .key (ascii "max_messages"), putInt p.maxMessages,
        .key (ascii "max_bytes"), putInt p.maxBytes,
        .key (ascii "ignore_consumers"), .bool p.ignoreConsumers,
        .endObject])

def listedSubjects (listing : List Bytes) : List Bytes :=
  listing.filterMap fun entry =>
    if entry.length ≤ SUBJECT_SUFFIX.length then none
    else if SUBJECT_SUFFIX.isSuffixOf entry then
      some (entry.take (entry.length - SUBJECT_SUFFIX.length))
    else none

def bjmSubjectCount (listing : List Bytes) : ℕ := (listedSubjects listing).length

/-- The subjects of a listing, those that match the pattern if there is one. -/
def bjmSubjects (listing : List Bytes) (pattern : Option Bytes) : Record :=
  arrayRecord (((listedSubjects listing).filter fun name =>
    match pattern with
    | none => true
    | some p => name.length ≤ BJM_SUBJECT_MAX && bjmPatternMatch p (cString name)).map
      fun name => [.string name])

end Store

/-- `bjm_pusher_list`: every subscription in the table, also one that is gone. -/
def Pusher.list (p : Pusher) : Record :=
  arrayRecord (p.subs.map fun s =>
    [.beginObject,
      .key (ascii "consumer"), .string s.consumer,
      .key (ascii "pattern"), .string s.cfg.pattern,
      .key (ascii "callback"), .string s.cfg.callback,
      .key (ascii "group"), .string s.cfg.group,
      .key (ascii "delivered"), putInt s.delivered,
      .key (ascii "inflight"), .bool s.inflight,
      .key (ascii "failures"), putInt s.failures,
      .key (ascii "error"), .string s.lastError,
      .endObject])

end SukkalMsg
