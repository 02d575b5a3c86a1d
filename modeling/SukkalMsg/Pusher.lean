import SukkalMsg.PushRegistry

/-!
# The delivery engine

A subscription has at most one delivery outstanding. A pump asks every idle one
in turn for its next batch, subject by subject; the reply settles the delivery.
What was sent is remembered in the subscription, so that is where a reply finds
it. A deleted subscription whose delivery is outstanding stays until the reply.

The transport is a parameter of a pump: whether it takes a delivery is a function
of the subscription it is handed. The header lines and the body of a reply, which
it reports piecemeal, arrive with the reply here: nothing else reads or writes
those fields while a delivery is outstanding.
-/

namespace SukkalMsg

open Std Names Binjson OrderedScan BoundedTable

def PUSH_DEFAULT_BATCH_BYTES : ℕ := 65536
def PUSH_MAX_BATCH_BYTES : ℕ := 4 * 1024 * 1024
def PUSH_BACKOFF_MS : ℕ := 500
def PUSH_MAX_BACKOFF_MS : ℕ := 30000
def PUSH_TICK_MS : ℕ := 2
def PUSH_IDLE_MS : ℕ := 1000

/-- What a delivery carries: consecutive entries, or leased jobs. -/
inductive Body where
  | batch (entries : List Entry)
  | lease (jobs : List Job)
  deriving DecidableEq

/-- One subscription; `id` stands for the address the transport knows it by. -/
structure Psub where
  id : ℕ
  consumer : Bytes
  cfg : PushSub
  conn : Bool
  hdrs : List Bytes
  inflight : Bool
  gone : Bool
  url : Bytes
  subject : Bytes
  first : ℕ
  last : ℕ
  lag : ℕ
  body : Body
  ackHint : Option ℕ
  resp : Bytes
  jobs : List ℕ
  doneList : Option (List ℕ)
  dueMs : ℕ
  wakeMs : ℕ
  failures : ℕ
  lastError : Bytes
  delivered : ℕ
  rr : ℕ
  deriving DecidableEq

structure Pusher where
  subs : List Psub
  names : List Bytes
  /-- Something may be deliverable. -/
  work : Bool
  inflight : ℕ
  defaultBatch : ℕ
  /-- A transport has been installed. -/
  xfer : Bool
  nextId : ℕ

structure Reply where
  reached : Bool
  status : ℕ
  error : Option Bytes
  headers : List Bytes
  body : List Bytes

def Reply.ok (r : Reply) : Bool := r.reached && (200 ≤ r.status && r.status < 300)

namespace Psub

def isMatch (s : Psub) (name : Bytes) : Bool :=
  if bjmPatternIs s.cfg.pattern then bjmPatternMatch s.cfg.pattern name else s.cfg.pattern = name

def onBody (s : Psub) (data : Bytes) : Psub :=
  { s with resp := s.resp ++ data.take (191 - s.resp.length) }

/-- The bytes as `hdr_is` folds them to lower case. -/
def lower (c : UInt8) : UInt8 := if 0x41 ≤ c ∧ c ≤ 0x5A then c + 0x20 else c

def hdrIs (line name : Bytes) : Option Bytes :=
  if line.length ≤ name.length then none
  else if (line.take name.length).map lower = name then some (line.drop name.length) else none

/-- The numbers in a text, read digit by digit; `cur` is the one being read. -/
def numbers : Option ℕ → Bytes → List ℕ
  | cur, [] => cur.toList
  | cur, c :: cs =>
    if isDigit c then numbers (some (u64 (cur.getD 0 * 10 + (c.toNat - 0x30)))) cs
    else cur.toList ++ numbers none cs

def onHdr (s : Psub) (line : Bytes) : Psub :=
  match hdrIs line (ascii "x-sukkal-ack:") with
  | some value => { s with ackHint := some (strtoull value).1 }
  | none => match hdrIs line (ascii "x-sukkal-done:") with
    | some value => { s with doneList := some ((numbers none value).take BJM_PUSH_JOBS_MAX) }
    | none => s

def hear (s : Psub) (r : Reply) : Psub := r.body.foldl onBody (r.headers.foldl onHdr s)

def hdrAdd (hdrs : List Bytes) (line : Bytes) : List Bytes :=
  let line := cut (BJM_CALLBACK_MAX + 128) line
  if (hdrs.map fun h => h.length + 1).sum + line.length + 1 > 8 * (BJM_CALLBACK_MAX + 128) then hdrs
  else hdrs ++ [line]

/-- The header lines of a delivery, in the order they are added. -/
def hdrLines (s : Psub) (count : ℕ) : List Bytes :=
  [ascii "Content-Type: " ++ SUKKAL_MEDIA_TYPE,
    ascii "X-Sukkal-Subject: " ++ s.subject,
    ascii "X-Sukkal-Consumer: " ++ s.consumer,
    ascii "X-Sukkal-Count: " ++ decimalText count,
    ascii "X-Sukkal-First-Index: " ++ decimalText s.first,
    ascii "X-Sukkal-Last-Index: " ++ decimalText s.last,
    if s.cfg.group ≠ [] then ascii "X-Sukkal-Group: " ++ s.cfg.group
    else ascii "X-Sukkal-Lag: " ++ decimalText s.lag] ++
  (if s.cfg.token ≠ [] then [ascii "Authorization: Bearer " ++ s.cfg.token] else []) ++
  [ascii "Expect:"]

/-- The subscription as `send_batch` prepares it. -/
def prepared (s : Psub) (count : ℕ) : Psub :=
  { s with
    url := s.cfg.callback
    hdrs := (s.hdrLines count).foldl hdrAdd []
    resp := []
    ackHint := none
    doneList := none }

/-- The doubling loop of `backoff`, one turn for each failure after the first. -/
def doubled : ℕ → ℕ → ℕ
  | 0, wait => wait
  | n + 1, wait => if wait < PUSH_MAX_BACKOFF_MS then doubled n (wait * 2) else wait

def backoff (s : Psub) (now : ℕ) : Psub :=
  { s with
    failures := s.failures + 1
    dueMs := u64 (now + min (doubled s.failures PUSH_BACKOFF_MS) PUSH_MAX_BACKOFF_MS) }

def httpError (s : Psub) (status : ℕ) : Bytes :=
  cut 128 (ascii "HTTP " ++ decimalText status ++
    if s.resp = [] then [] else ascii ": " ++ s.resp)

def unreachable (error : Option Bytes) : Bytes := cut 128 (error.getD (ascii "unreachable"))

def recovered (s : Psub) : Psub :=
  if s.failures ≠ 0 then { s with failures := 0, lastError := [] } else s

end Psub

namespace Pusher

/-- `names_add`: a name that is known already is not added again. -/
def namesAdd (p : Pusher) (name : Bytes) : Pusher :=
  let name := cut (BJM_SUBJECT_MAX + 1) name
  if name ∈ p.names then p else { p with names := p.names ++ [name] }

/-- The table has no room left: it has 16 places, then twice as many each time. -/
def full (p : Pusher) : Bool := p.names.length == 16 * 2 ^ (p.names.length / 16).log2

def notify (p : Pusher) (subject : Bytes) : Pusher := { p.namesAdd subject with work := true }

def notifyDead (p : Pusher) (st : Store) (name : Bytes) (dead : List (ℕ × ℕ)) : Pusher :=
  match deadSubjectOf name with
  | none => p
  | some channel =>
    if dead.any fun d => ((st.logOf name).get d.1).isSome then p.notify channel else p

def psubNew (p : Pusher) (consumer : Bytes) (cfg : PushSub) : Psub where
  id := p.nextId
  consumer := consumer
  cfg := cfg
  conn := p.xfer
  hdrs := []
  inflight := false
  gone := false
  url := []
  subject := []
  first := 0
  last := 0
  lag := 0
  body := .batch []
  ackHint := none
  resp := []
  jobs := []
  doneList := none
  dueMs := 0
  wakeMs := 0
  failures := 0
  lastError := []
  delivered := 0
  rr := 0

def loadOne (p : Pusher) (consumer : Bytes) (cfg : PushSub) : Pusher :=
  { p with subs := p.subs ++ [p.psubNew consumer cfg], nextId := p.nextId + 1 }

/-- `find`: the subscription of that name that has not been deleted. -/
def find (p : Pusher) (consumer : Bytes) : Option Psub :=
  p.subs.find? fun s => !s.gone && s.consumer == consumer

/-- Change the one subscription `find` finds. -/
def setCfg (consumer : Bytes) (cfg : PushSub) : List Psub → List Psub
  | [] => []
  | s :: ss =>
    if !s.gone && s.consumer == consumer then { s with cfg := cfg } :: ss
    else s :: setCfg consumer cfg ss

def add (p : Pusher) (consumer : Bytes) (cfg : PushSub) : Pusher :=
  match p.find consumer with
  | some _ => { p with subs := setCfg consumer cfg p.subs, work := true }
  | none => { p.loadOne consumer cfg with work := true }

/-- Take the first subscription of that name out of the table, or mark it gone
when its delivery is outstanding. -/
def remove (p : Pusher) (consumer : Bytes) : Pusher :=
  match p.subs.findIdx? (·.consumer == consumer) with
  | none => p
  | some i => match p.subs[i]? with
    | none => p
    | some s =>
      if s.inflight then { p with subs := p.subs.set i { s with gone := true } }
      else { p with subs := removeRow p.subs i }

def namesLoad (p : Pusher) (listing : List Bytes) : Pusher :=
  listing.foldl (fun p entry =>
    if entry.length ≤ Store.SUBJECT_SUFFIX.length then p
    else if !Store.SUBJECT_SUFFIX.isSuffixOf entry then p
    else
      let name := entry.take (entry.length - Store.SUBJECT_SUFFIX.length)
      if name.length > BJM_SUBJECT_MAX then p else p.namesAdd name) p

def blank (defaultBatch : ℕ) : Pusher where
  subs := []
  names := []
  work := false
  inflight := 0
  defaultBatch := if defaultBatch ≠ 0 then defaultBatch else PUSH_DEFAULT_BATCH_BYTES
  xfer := false
  nextId := 0

/-- The engine of a starting broker: the listing's subjects, the registry's
subscriptions, and no transport yet. -/
def new (st : Store) (listing : List Bytes) (defaultBatch : ℕ) : Pusher :=
  { st.bjmPushEach.foldl (fun p x => p.loadOne x.1 x.2) ((blank defaultBatch).namesLoad listing)
    with work := true }

def setTransport (p : Pusher) : Pusher := { p with xfer := true }

end Pusher

structure App where
  store : Store
  push : Pusher

/-- A delivery the transport has taken, and the store it was taken from. -/
structure Sent where
  store : Store
  sub : Psub

structure Scan where
  store : Store
  push : Pusher
  sub : Psub

/-- `jg_key` and `jg_int`: the `index` of every job of a take's answer. -/
def jobVisit (g : Bytes × List ℕ) : Item → Bytes × List ℕ
  | .key k => (Store.keyBuf 16 k, g.2)
  | .int v =>
    if g.1 = ascii "index" ∧ g.2.length < BJM_PUSH_JOBS_MAX then (g.1, g.2 ++ [ofDouble v]) else g
  | _ => g

def grabJobs (r : Record) : List ℕ :=
  ((r.takeWhile fun it => decide it.Safe).foldl jobVisit ([], [])).2

namespace Scan

variable (V : Vendor) (clock : ℕ)

def movedTo (p p' : Pusher) : Bool := p.full && p'.names.length != p.names.length

/-- What the name reads as when the first letter is out, and the engine told of its channel. -/
def again (a : Scan) (name : Bytes) (st : Store) : Bytes :=
  match deadSubjectOf name with
  | none => name
  | some channel =>
    if movedTo a.push (a.push.notify channel) then V.stale st name else name

/-- Lease jobs; an answer that does not decode leaves the lease, and no delivery. -/
def takeBatch (a : Scan) (name : Bytes) : Scan × Option ℕ :=
  let want := min (if a.sub.cfg.maxJobs ≠ 0 then a.sub.cfg.maxJobs else 1) BJM_PUSH_JOBS_MAX
  match a.store.bjmTakeVia V (a.again V name) clock name a.sub.cfg.group want UINT64_MAX with
  | .error _ => (a, none)
  | .ok t =>
    let push := a.push.notifyDead a.store name t.dead
    if t.jobs = [] then ({ a with store := t.store, push := push }, none)
    else
      let jobs := grabJobs (takeRecord t.jobs)
      if Readable (takeRecord t.jobs) ∧ jobs ≠ [] then
        (⟨t.store, push, { a.sub with jobs := jobs, body := .lease t.jobs }⟩, some t.jobs.length)
      else (⟨t.store, push, { a.sub with jobs := jobs }⟩, none)

def noteWake (a : Scan) (name : Bytes) : Scan :=
  match a.store.bjmQueueNextDue name a.sub.cfg.group with
  | .ok (some due) =>
    if a.sub.wakeMs = 0 ∨ due < a.sub.wakeMs then { a with sub.wakeMs := due } else a
  | _ => a

/-- What the name reads as after the take, which may have moved the names: it points into their
table. -/
def reread (a b : Scan) (name : Bytes) : Bytes :=
  if movedTo a.push b.push then V.stale b.store name else name

def offerJobs (a : Scan) (i : ℕ) (name : Bytes) : Scan × Option ℕ :=
  match a.takeBatch V clock name with
  | (b, none) => (b.noteWake (a.reread V b name), none)
  | (b, some count) =>
    ({ b with sub := { b.sub with
        -- a name of the table fits the field as it is
        subject := if movedTo a.push b.push then cut (BJM_SUBJECT_MAX + 1) (a.reread V b name)
          else name
        first := b.sub.jobs.headD 0
        last := b.sub.jobs.getLastD 0
        lag := 0
        rr := (i + 1) % b.push.names.length } }, some count)

/-- Move a receipt the log has been trimmed past, to where the log begins. -/
def skipTrimmed (a : Scan) (name : Bytes) (acked base : ℕ) : Scan :=
  if acked < base then match a.store.bjmCursorSet name a.sub.consumer base with
    | .error _ => a
    | .ok st => { a with store := st }
  else a

def batchBytes (a : Scan) : ℕ :=
  min (if a.sub.cfg.batchBytes ≠ 0 then a.sub.cfg.batchBytes else a.push.defaultBatch)
    PUSH_MAX_BATCH_BYTES

/-- The messages behind a receipt, as many as `bjm_read` packs. -/
def readBatch (a : Scan) (i : ℕ) (name : Bytes) (acked : ℕ) : Scan × Option ℕ :=
  match a.store.bjmRead V name (acked + 1) a.batchBytes with
  | .error _ => (a, none)
  | .ok (count, logLast) =>
    if count = 0 then (a, none)
    else
      ({ a with sub := { a.sub with
          subject := name
          first := acked + 1
          last := acked + count
          lag := logLast - (acked + count)
          body := .batch (((a.store.logOf name).entries.drop
            (acked - (a.store.logOf name).base)).take count)
          rr := (i + 1) % a.push.names.length } }, some count)

def offerBatch (a : Scan) (i : ℕ) (name : Bytes) : Scan × Option ℕ :=
  match a.store.bjmSubjectInfo V name with
  | .error _ => (a, none)
  | .ok (base, last, _) => match a.store.bjmCursorGet name a.sub.consumer with
    | .error _ => (a, none)
    | .ok found =>
      let acked := found.getD 0
      if last ≤ acked then (a, none)
      else if acked < base ∧ last ≤ base then (a.skipTrimmed name acked base, none)
      else (a.skipTrimmed name acked base).readBatch V i name (max acked base)

def offer (a : Scan) (i : ℕ) (name : Bytes) : Scan × Option ℕ :=
  if a.sub.cfg.group ≠ [] then a.offerJobs V clock i name else a.offerBatch V i name

/-- The loop over the names, from the round-robin cursor on. A take may add its
dead-letter channel to them, at most once for each name. -/
def loop : ℕ → ℕ → Scan → Scan × Option ℕ
  | 0, _, a => (a, none)
  | fuel + 1, n, a =>
    if n < a.push.names.length then
      let i := (a.sub.rr + n) % a.push.names.length
      let name := a.push.names.getD i []
      if a.sub.isMatch name then match a.offer V clock i name with
        | (a, none) => loop fuel (n + 1) a
        | (a, some count) => (a, some count)
      else loop fuel (n + 1) a
    else (a, none)

/-- What the subscription would send next, as far as `send_batch`. -/
def search (a : Scan) : Scan × Option ℕ :=
  loop V clock (2 * a.push.names.length + 1) 0 { a with sub.wakeMs := 0 }

/-- `send_batch`: whether the transport has taken the delivery. -/
def sendBatch (send : Psub → Bool) (a : Scan) (count : ℕ) : Bool × Scan :=
  let s := a.sub.prepared count
  if a.push.xfer && send s then
    (true, { a with
      sub := { s with inflight := true }
      push.inflight := a.push.inflight + 1 })
  else (false, { a with sub := s })

def startDelivery (send : Psub → Bool) (a : Scan) : Bool × Scan :=
  match a.search V clock with
  | (a, none) => (false, a)
  | (a, some count) => a.sendBatch send count

end Scan

structure Pass where
  store : Store
  push : Pusher
  started : ℕ
  busy : Bool
  nextDue : ℕ
  sent : List Sent

def sooner (due next : ℕ) : ℕ := if next = 0 ∨ due < next then due else next

namespace Pass

variable (V : Vendor) (send : Psub → Bool) (now clock : ℕ)

def waitFor (t : Pass) (due : ℕ) : Pass :=
  { t with busy := true, nextDue := sooner due t.nextDue }

/-- One turn of the loop over the subscriptions. -/
def ask (t : Pass) (s : Psub) : Pass × Psub :=
  if s.gone then (t, s)
  else if s.inflight then ({ t with busy := true }, s)
  else if s.dueMs > now then (t.waitFor s.dueMs, s)
  else
    let (started, a) := Scan.startDelivery V clock send ⟨t.store, t.push, s⟩
    let t := { t with
      store := a.store
      push := a.push
      started := if started then t.started + 1 else t.started
      sent := if started then t.sent ++ [⟨a.store, a.sub⟩] else t.sent }
    (if a.sub.wakeMs ≠ 0 then t.waitFor a.sub.wakeMs else t, a.sub)

def askAll : Pass → List Psub → Pass × List Psub
  | t, [] => (t, [])
  | t, s :: ss =>
    ((askAll (t.ask V send now clock s).1 ss).1,
      (t.ask V send now clock s).2 :: (askAll (t.ask V send now clock s).1 ss).2)

end Pass

structure Pumped where
  wait : ℕ
  sent : List Sent
  app : App

namespace App

variable (V : Vendor)

def pumpPass (send : Psub → Bool) (now clock : ℕ) (b : App) : Pass × List Psub :=
  Pass.askAll V send now clock ⟨b.store, b.push, 0, false, 0, []⟩ b.push.subs

def pumpWait (p : Pusher) (nextDue now : ℕ) : ℕ :=
  if p.inflight ≠ 0 then PUSH_TICK_MS
  else if p.work then 0
  else if nextDue ≠ 0 then
    (if u64Sub nextDue now < PUSH_IDLE_MS then u64Sub nextDue now else PUSH_IDLE_MS)
  else PUSH_IDLE_MS

def pump (send : Psub → Bool) (now clock : ℕ) (b : App) : Pumped :=
  if b.push.work then
    let (t, subs) := b.pumpPass V send now clock
    let push := { t.push with
      subs := subs
      work := if t.started = 0 ∧ t.busy = false then false else t.push.work }
    ⟨pumpWait push t.nextDue now, t.sent, ⟨t.store, push⟩⟩
  else ⟨pumpWait b.push 0 now, [], b⟩

end App

/-- What a settlement leaves; `work` says there may be more to deliver. -/
structure Settled where
  store : Store
  sub : Psub
  work : Bool

namespace Psub

def finished (s : Psub) (ok : Bool) (index : ℕ) : Bool :=
  ok && match s.doneList with
    | none => true
    | some l => l.contains index

def settleJob (clock : ℕ) (s : Psub) (ok : Bool) (st : Store) (index : ℕ) : Store :=
  let r := if s.finished ok index then st.bjmDone clock s.subject s.cfg.group index
    else st.bjmFail clock s.subject s.cfg.group index UINT64_MAX
  match r with
  | .error _ => st
  | .ok r => r.store

def finishJobs (clock : ℕ) (st : Store) (s : Psub) (r : Reply) (now : ℕ) : Settled :=
  if !r.reached then ⟨st, { s with lastError := unreachable r.error }.backoff now, false⟩
  else
    let ok := r.ok
    let st := s.jobs.foldl (s.settleJob clock ok) st
    let s := { s with
      delivered := s.delivered + (s.jobs.filter (s.finished ok)).length
      jobs := [] }
    if !ok then ⟨st, { s with lastError := s.httpError r.status }.backoff now, false⟩
    else ⟨st, { s.recovered with dueMs := 0 }, true⟩

def ackOf (s : Psub) : ℕ :=
  match s.ackHint with
  | none => s.last
  | some hint => min hint s.last

def finishBatch (st : Store) (s : Psub) (r : Reply) (now : ℕ) : Settled :=
  if !r.ok then
    ⟨st, { s with lastError := if r.reached then s.httpError r.status
      else unreachable r.error }.backoff now, false⟩
  else if s.first ≤ s.ackOf then
    let st := match st.bjmCursorSet s.subject s.consumer s.ackOf with
      | .error _ => st
      | .ok st => st
    ⟨st, { s with delivered := s.delivered + (s.ackOf - s.first + 1), dueMs := 0 }.recovered, true⟩
  else
    ⟨st, { s with lastError := cut 128 (ascii "accepted 0 of " ++
      decimalText (u64 (s.last - s.first + 1)) ++ ascii " message(s)") }.backoff now, false⟩

def settle (clock : ℕ) (st : Store) (s : Psub) (r : Reply) (now : ℕ) : Settled :=
  if s.cfg.group ≠ [] then s.finishJobs clock st r now else s.finishBatch st r now

end Psub

namespace App

/-- `bjm_pusher_delivered`: the delivery of a subscription is over. -/
def delivered (clock : ℕ) (b : App) (id : ℕ) (r : Reply) (now : ℕ) : App :=
  match b.push.subs.findIdx? (·.id == id) with
  | none => b
  | some i => match b.push.subs[i]? with
    | none => b
    | some s =>
      let push := { b.push with inflight := b.push.inflight - 1 }
      if s.gone then ⟨b.store, { push with subs := removeRow push.subs i }⟩
      else
        let x := ({ s.hear r with inflight := false }).settle clock b.store r now
        ⟨x.store, { push with
          subs := push.subs.set i x.sub
          work := if x.work then true else push.work }⟩

end App

end SukkalMsg
