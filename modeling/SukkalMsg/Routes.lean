import SukkalMsg.Requests

/-!
# The route table

A request is answered by the first row of the table whose path and method are its
own. A path is matched exactly, or as far as the `*` it ends in. A path that some
row has, though not with that method, is another answer than one no row has.

A broker takes requests, sweeps, pumps its engine and hears replies, one at a time.
-/

namespace SukkalMsg

open Names

/-- The functions the table names. -/
inductive Handler where
  | hPublish | hPushPut | hPushDelete | hPushList | hSubscribe | hAck | hTrim | hTake | hDone
  | hFail | hDead | hRequeue | hQueues | hQueueConfig | hQueueDelete | hConsumers | hUnsubscribe
  | hInfo | hPolicyGet | hPolicyPut | hPolicyDelete | hPolicies | hSubjects | hHealth
  deriving DecidableEq

def Handler.run (H : Host) (b : App) (now : ℕ) (req : Request) : Handler → Response × App
  | .hPublish => b.hPublish H now req
  | .hPushPut => b.hPushPut req
  | .hPushDelete => b.hPushDelete req
  | .hPushList => b.hPushList
  | .hSubscribe => b.hSubscribe H req
  | .hAck => b.hAck req
  | .hTrim => b.hTrim req
  | .hTake => b.hTake H now req
  | .hDone => b.hDone now req
  | .hFail => b.hFail now req
  | .hDead => b.hDead H req
  | .hRequeue => b.hRequeue H now req
  | .hQueues => b.hQueues now req
  | .hQueueConfig => b.hQueueConfig now req
  | .hQueueDelete => b.hQueueDelete req
  | .hConsumers => b.hConsumers req
  | .hUnsubscribe => b.hUnsubscribe req
  | .hInfo => b.hInfo H req
  | .hPolicyGet => b.hPolicyGet req
  | .hPolicyPut => b.hPolicyPut req
  | .hPolicyDelete => b.hPolicyDelete req
  | .hPolicies => b.hPolicies
  | .hSubjects => b.hSubjects H req
  | .hHealth => b.hHealth H now

structure Route where
  method : Bytes
  path : Bytes
  handler : Handler

def GET : Bytes := ascii "GET"
def PUT : Bytes := ascii "PUT"
def POST : Bytes := ascii "POST"
def DELETE : Bytes := ascii "DELETE"

def ROUTES : List Route :=
  [⟨POST, ascii "/pub/*", .hPublish⟩,
    ⟨PUT, ascii "/push/*", .hPushPut⟩,
    ⟨DELETE, ascii "/push", .hPushDelete⟩,
    ⟨GET, ascii "/push", .hPushList⟩,
    ⟨GET, ascii "/sub/*", .hSubscribe⟩,
    ⟨POST, ascii "/ack/*", .hAck⟩,
    ⟨POST, ascii "/trim/*", .hTrim⟩,
    ⟨POST, ascii "/take/*", .hTake⟩,
    ⟨POST, ascii "/done/*", .hDone⟩,
    ⟨POST, ascii "/fail/*", .hFail⟩,
    ⟨GET, ascii "/dead/*", .hDead⟩,
    ⟨POST, ascii "/requeue/*", .hRequeue⟩,
    ⟨GET, ascii "/queue/*", .hQueues⟩,
    ⟨PUT, ascii "/queue/*", .hQueueConfig⟩,
    ⟨DELETE, ascii "/queue/*", .hQueueDelete⟩,
    ⟨GET, ascii "/consumers/*", .hConsumers⟩,
    ⟨DELETE, ascii "/consumers/*", .hUnsubscribe⟩,
    ⟨GET, ascii "/info/*", .hInfo⟩,
    ⟨GET, ascii "/policy/*", .hPolicyGet⟩,
    ⟨PUT, ascii "/policy/*", .hPolicyPut⟩,
    ⟨DELETE, ascii "/policy/*", .hPolicyDelete⟩,
    ⟨GET, ascii "/policies", .hPolicies⟩,
    ⟨GET, ascii "/subjects", .hSubjects⟩,
    ⟨GET, ascii "/health", .hHealth⟩]

def star : UInt8 := 0x2A

def pathMatches (pat path : Bytes) : Bool :=
  if pat.getLast? = some star then pat.dropLast.isPrefixOf path else path = pat

/-- Whether a row has the path, and what answers the request. -/
def routeLookup (method path : Bytes) : List Route → Bool × Option Handler
  | [] => (false, none)
  | r :: rs =>
    if !pathMatches r.path path then routeLookup method path rs
    else if method = r.method then (true, some r.handler)
    else (true, (routeLookup method path rs).2)

def sukkalRoute (method path : Bytes) : Option Handler := (routeLookup method path ROUTES).2

def hNotFound : Response :=
  resErr 404 ("no such route. available:\n" ++
    "  POST   /pub/<subject>[?id=][&headers=1][&ack_subject=&ack_consumer=&ack_index=]\n" ++
    "  PUT    /push/<subject|pattern>?consumer=&callback=[&group=&max=&token=&batch=&start=last|&from=]\n" ++
    "  DELETE /push?consumer=\n" ++
    "  GET    /push\n" ++
    "  GET    /sub/<subject>?from=|consumer=\n" ++
    "  POST   /ack/<subject>?consumer=&index=\n" ++
    "  POST   /trim/<subject>?before=|keep=[&force=1]\n" ++
    "  POST   /take/<subject>?group=&max=&lease=\n" ++
    "  POST   /done/<subject>?group=&index=\n" ++
    "  POST   /fail/<subject>?group=&index=[&delay=]\n" ++
    "  GET    /dead/<subject>[?from=&max=]\n" ++
    "  POST   /requeue/<subject>?index=   (from <subject>.dead)\n" ++
    "  GET    /queue/<subject>\n" ++
    "  PUT    /queue/<subject>?group=&lease_ms=&max_attempts=&backoff_ms=\n" ++
    "  DELETE /queue/<subject>?group=\n" ++
    "  GET    /consumers/<subject>\n" ++
    "  DELETE /consumers/<subject>?consumer=\n" ++
    "  GET    /info/<subject>\n" ++
    "  GET    /subjects[?pattern=]\n" ++
    "  GET    /health\n")

namespace App

/-- `sukkal_dispatch`. -/
def dispatch (H : Host) (b : App) (now : ℕ) (method : Bytes) (req : Request) : Response × App :=
  match routeLookup method req.path ROUTES with
  | (_, some h) => h.run H b now req
  | (true, none) => (resErr 405 "405 Method Not Allowed\n", b)
  | (false, none) => (hNotFound, b)

end App

/-- What reaches a broker. -/
inductive ServeOp where
  | request (now : ℕ) (method : Bytes) (req : Request)
  | sweep (nowS : ℕ)
  | pump (send : Psub → Bool) (now clock : ℕ)
  | delivered (clock id : ℕ) (reply : Reply) (now : ℕ)

/-- One step: the response to a request, and what the broker becomes. -/
def App.serve (H : Host) (b : App) : ServeOp → List Response × App
  | .request now method req =>
    ([(b.dispatch H now method req).1], (b.dispatch H now method req).2)
  | .sweep nowS => ([], { b with store := (b.store.bjmRetentionRun H.vendor nowS).2.2 })
  | .pump send now clock => ([], (b.pump H.vendor send now clock).app)
  | .delivered clock id reply now => ([], b.delivered clock id reply now)

/-- A row of the table that answers a request has its method, and a path it matches. -/
theorem route_of_lookup {method path : Bytes} {h : Handler} {rs : List Route}
    (hr : (routeLookup method path rs).2 = some h) :
    ∃ r ∈ rs, r.method = method ∧ pathMatches r.path path = true ∧ r.handler = h := by
  induction rs with
  | nil => contradiction
  | cons r rs ih =>
    rw [routeLookup] at hr
    split at hr
    · obtain ⟨r', hr', hrest⟩ := ih hr
      exact ⟨r', List.mem_cons_of_mem _ hr', hrest⟩
    · rename_i hpath
      split at hr
      · rename_i hm
        exact ⟨r, List.mem_cons_self, hm.symm, by simpa using hpath, Option.some.inj hr⟩
      · obtain ⟨r', hr', hrest⟩ := ih hr
        exact ⟨r', List.mem_cons_of_mem _ hr', hrest⟩

namespace App

theorem dispatch_cases (H : Host) (b : App) (now : ℕ) (method : Bytes) (req : Request) :
    (∃ h, sukkalRoute method req.path = some h ∧
      b.dispatch H now method req = h.run H b now req) ∨
      (sukkalRoute method req.path = none ∧ (b.dispatch H now method req).2 = b) := by
  rw [dispatch, sukkalRoute]
  cases hl : routeLookup method req.path ROUTES with
  | mk matched fn =>
    cases fn with
    | some h => exact .inl ⟨h, rfl, rfl⟩
    | none => cases matched <;> exact .inr ⟨rfl, rfl⟩

end App

end SukkalMsg
