import SukkalMsg.LogWindows
import SukkalMsg.RequestCalls
import SukkalMsg.TrimFaults

/-!
# What a request opens

A log is opened when it is first asked for, and stays open. A publish may create it; a
compaction writes a file beside it and opens it again. What a request asks for follows
the store through its handler: the logs it looks for, in order.
-/

namespace SukkalMsg

open Std Names Binjson OrderedScan BoundedTable Store

/-- A name that is passed to the namespace's `open`, and whether that may create the file. -/
structure Opening where
  file : Bytes
  create : Bool
  deriving DecidableEq

/-- A log that is asked for, or one that is compacted. -/
inductive Access where
  | get (subject : Bytes) (create : Bool)
  | compact (subject : Bytes)
  deriving DecidableEq

def Access.subject : Access → Bytes
  | get s _ => s
  | compact s => s

/-- The logs that are open, and what was opened so far. -/
structure OpenLogs where
  held : List Bytes
  opened : List Opening

/-- `subject_get`, and the two opens of a compaction: of the file it writes and of the log
again. What does not fit the file name's buffer is not opened. -/
def Store.access (st : Store) (x : OpenLogs) : Access → OpenLogs
  | .get s create =>
    if x.held.contains s || !fileFits s then x
    else ⟨if create || st.logs.contains s then x.held ++ [s] else x.held,
      x.opened ++ [⟨liveName s, create⟩]⟩
  | .compact s => ⟨x.held, x.opened ++ [⟨tmpName s, true⟩, ⟨liveName s, false⟩]⟩

def Store.opens (st : Store) (held : List Bytes) (l : List Access) : OpenLogs :=
  l.foldl st.access ⟨held, []⟩

namespace Store

variable (st : Store)

def queueLoadGets (subject group : Bytes) : List Access :=
  match queueKey subject group with
  | none => []
  | some key => if st.queues.contains key then [] else [.get subject false]

/-- A job that is buried is read from its log, and published if it is there. -/
def deadLetterGets (subject dead : Bytes) (d : ℕ × ℕ) : List Access :=
  .get subject false :: match st.subjectGet subject false with
    | .error _ => []
    | .ok log => match log.get d.1 with
      | none => []
      | some _ => [.get dead true]

def deadLettersGets (subject : Bytes) (ds : List (ℕ × ℕ)) : List Access :=
  match deadSubjectOf subject with
  | none => []
  | some dead => ds.flatMap (st.deadLetterGets subject dead)

def bjmTakeGets (V : Vendor) (now : ℕ) (subject group : Bytes) (max : ℤ) (lease : ℕ) :
    List Access :=
  .get subject false :: match st.subjectGet subject false with
    | .error _ => []
    | .ok _ => st.queueLoadGets subject group ++
      match st.bjmTake V now subject group max lease with
      | .error _ => []
      | .ok t => st.deadLettersGets subject t.dead

def bjmTrimGets (subject : Bytes) (before : ℕ) (force : Bool) : List Access :=
  if !st.adopt then []
  else .get subject false :: match st.subjectGet subject false with
    | .error _ => []
    | .ok log =>
      if st.trimTarget subject log.last before force ≤ log.base then [] else [.compact subject]

def publishOnceGets (now : ℕ) (p : Publication) : List Access :=
  match p.id with
  | none => [.get p.subject true]
  | some id => match (st.bjmDedupLookup now p.subject id).1 with
    | .ok none => [.get p.subject true]
    | _ => []

/-- One turn of the seeding loop asks for the log only to begin at its end. -/
def seedOneGets (consumer : Bytes) (atEnd : Bool) (name : Bytes) : List Access :=
  match st.bjmCursorGet name consumer with
  | .ok none => if atEnd then [.get name false] else []
  | _ => []

def seedGets (consumer : Bytes) (atEnd : Bool) (start : ℕ) : List Bytes → Store → List Access
  | [], _ => []
  | name :: names, st => st.seedOneGets consumer atEnd name ++
    seedGets consumer atEnd start names (st.seedOne consumer atEnd start name)

end Store

namespace App

variable (b : App)

def seeded (r : Registration) : List Bytes :=
  b.push.names.filter (b.push.psubNew r.consumer { PushSub.zero with
    pattern := cut (BJM_SUBJECT_MAX + 1) r.cfg.pattern }).isMatch

def hPushPutGets (req : Request) : List Access :=
  match registration req with
  | .error _ => []
  | .ok r => match b.store.bjmPushGet r.consumer with
    | .ok none =>
      if r.cfg.group = [] then
        seedGets r.consumer req.startsLast (req.queryU64 (ascii "from") 0) (b.seeded r) b.store
      else []
    | _ => []

def hTrimGets (req : Request) : List Access :=
  match subjectAt req (ascii "/trim/") with
  | .error _ => []
  | .ok s =>
    let before := trimBefore req (b.store.bjmLastIndex s)
    .get s false :: if before = 0 then []
      else
        let force := req.queryU64 (ascii "force") 0 ≠ 0
        b.store.bjmTrimGets s before force ++
          match b.store.bjmTrim s before force with
          | .error _ => []
          | .ok _ => [.get s false]

def hTakeGets (H : Host) (now : ℕ) (req : Request) : List Access :=
  match queueTarget req (ascii "/take/") with
  | .error _ => []
  | .ok (s, g) => b.store.bjmTakeGets H.vendor now s g (toInt32 (req.queryU64 (ascii "max") 1))
      (req.queryU64 (ascii "lease") UINT64_MAX)

def hJobEndGets (req : Request) (done : Bool) : List Access :=
  match queueTarget req (if done then ascii "/done/" else ascii "/fail/") with
  | .error _ => []
  | .ok (s, g) =>
    if req.queryU64 (ascii "index") 0 = 0 then [] else b.store.queueLoadGets s g

/-- A dead-letter channel of its own is refused before it is read. -/
def hDeadGets (req : Request) : List Access :=
  match subjectAt req (ascii "/dead/") with
  | .error _ => []
  | .ok s =>
    if BJM_DEAD_SUFFIX.isSuffixOf s ∨ (s ++ BJM_DEAD_SUFFIX).length ≥ BJM_SUBJECT_MAX + 1 then []
    else [.get (s ++ BJM_DEAD_SUFFIX) false]

def hRequeueGets (H : Host) (req : Request) : List Access :=
  match subjectAt req (ascii "/requeue/") with
  | .error _ => []
  | .ok s =>
    let index := req.queryU64 (ascii "index") 0
    if index = 0 ∨ BJM_DEAD_SUFFIX.isSuffixOf s then []
    else match deadSubjectOf s with
      | none => []
      | some dead => .get dead false :: match b.store.deadEnvelope H s index with
        | .error _ => []
        | .ok (origin, _) => [.get origin true]

def hQueuesGets (req : Request) : List Access :=
  match subjectAt req (ascii "/queue/") with
  | .error _ => []
  | .ok s => [.get s false]

def hQueueConfigGets (req : Request) : List Access :=
  match queueTarget req (ascii "/queue/") with
  | .error _ => []
  | .ok (s, g) => b.store.queueLoadGets s g ++
    match b.store.bjmQueueConfig s g (req.queryU64 (ascii "lease_ms") BJM_LEASE_DEFAULT_MS)
        (req.queryU64 (ascii "max_attempts") BJM_MAX_ATTEMPTS_DEFAULT)
        (req.queryU64 (ascii "backoff_ms") BJM_BACKOFF_DEFAULT_MS)
        (req.queryU64 (ascii "max_backoff_ms") BJM_MAX_BACKOFF_DEFAULT_MS) with
    | .error _ => []
    | .ok _ => hQueuesGets req

end App

def subjectGets (req : Request) (pre : Bytes) : List Access :=
  match subjectAt req pre with
  | .error _ => []
  | .ok s => [.get s false]

/-- The logs a handler asks the store for. -/
def Handler.gets (H : Host) (b : App) (now : ℕ) (req : Request) : Handler → List Access
  | .hPublish => match publication H.vendor req with
    | .error _ => []
    | .ok p => b.store.publishOnceGets now p
  | .hPushPut => b.hPushPutGets req
  | .hSubscribe => subjectGets req (ascii "/sub/")
  | .hTrim => b.hTrimGets req
  | .hTake => b.hTakeGets H now req
  | .hDone => b.hJobEndGets req true
  | .hFail => b.hJobEndGets req false
  | .hDead => App.hDeadGets req
  | .hRequeue => b.hRequeueGets H req
  | .hQueues => App.hQueuesGets req
  | .hQueueConfig => b.hQueueConfigGets req
  | .hConsumers => subjectGets req (ascii "/consumers/")
  | .hInfo => subjectGets req (ascii "/info/")
  | .hPushDelete | .hPushList | .hAck | .hQueueDelete | .hUnsubscribe | .hPolicyGet | .hPolicyPut
  | .hPolicyDelete | .hPolicies | .hSubjects | .hHealth => []

/-- The names the request passes to `open`, when these logs are open already. -/
def Handler.opened (H : Host) (b : App) (now : ℕ) (held : List Bytes) (req : Request)
    (h : Handler) : List Opening :=
  (b.store.opens held (h.gets H b now req)).opened

end SukkalMsg
