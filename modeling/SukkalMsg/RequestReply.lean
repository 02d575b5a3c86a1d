import SukkalMsg.Correlations
import SukkalMsg.DistinctIds
import SukkalMsg.QueueTake

/-!
# Requests and the replies to them

A request is an envelope whose headers say where its reply goes and what it must carry. A
replier takes it as a job, runs its command on the message, and publishes what the command
prints to that subject, under an id made of the correlation. The text that was asked and the
text that is answered pass through both envelopes unchanged.
-/

namespace SukkalMsg

open Names Binjson Store Renderer

/-! ### Envelopes as the client builds them -/

def headerItems (headers : List (Bytes × Bytes)) : Record :=
  .beginArray :: .beginObject ::
    (headers.flatMap fun h => [.key h.1, .string h.2]) ++ [.endObject]

/-- The message is there already: `bj_put_raw`. -/
def enveloped (headers : List (Bytes × Bytes)) (msg : Bytes) : Bytes :=
  ((((headerItems headers).foldl Builder.put ⟨[], []⟩).value msg).put .endArray).out

/-! ### The request -/

def REPLY_SUBJECT_DEFAULT : Bytes := ascii "_reply"

/-- What `sukkal request` is given, and the correlation it has made up. -/
structure CliRequest where
  base : UrlBase
  subject : Bytes
  replyTo : Bytes
  correlation : Bytes
  text : Bytes

namespace CliRequest

def url (q : CliRequest) : Bytes :=
  (q.base.text ++ ascii "/pub/" ++ q.subject ++ ascii "?headers=1&id=req." ++ q.correlation).take
    (urlSize - 1)

def body (q : CliRequest) : Bytes :=
  enveloped [(ascii "reply_to", q.replyTo), (ascii "correlation", q.correlation)]
    (encode [.string q.text])

end CliRequest

def urlPath (b : UrlBase) (url : Bytes) : Bytes :=
  ((url.takeWhile (· != 0x23)).takeWhile (· != 0x3F)).drop b.text.length

def postTo (b : UrlBase) (url body : Bytes) : Request where
  path := urlPath b url
  contentType := some SUKKAL_MEDIA_TYPE
  body := some body
  query := queryParameter (urlQuery url)

def CliRequest.request (q : CliRequest) : Request := postTo q.base q.url q.body

/-! ### The replier -/

/-- `replier`: its command fails, or leaves a text on its standard output. -/
structure Replier where
  token : Bytes
  base : UrlBase
  exec : Bytes → Option Bytes
  retryMs : ℕ

/-- `rr_msg`. -/
structure RrMsg where
  key : Bytes
  index : ℤ
  type : ℤ
  payload : Option Bytes

def RrMsg.blank : RrMsg := ⟨[], 0, 0, none⟩

/-- `rr_key`, `rr_int` and `rr_binary`: the first payload counts, with the numbers before it. -/
def rrVisit (m : RrMsg) : Item → RrMsg
  | .key k => { m with key := keyBuf 16 k }
  | .int v =>
    if m.payload.isSome then m
    else if m.key = ascii "index" then { m with index := v }
    else if m.key = ascii "type" then { m with type := v }
    else m
  | .binary b =>
    if m.payload.isSome = true ∨ m.key ≠ ascii "payload" then m else { m with payload := some b }
  | _ => m

/-- Where a reply goes and what it carries, both empty where the request does not say, and what
was asked. -/
structure Asked where
  replyTo : Bytes
  correlation : Bytes
  msg : Bytes

def askedIn (V : Vendor) (decode : Decoder) (type : ℤ) (payload : Bytes) : Asked :=
  match if type = BJM_ENTRY_ENVELOPE then bjmEnvelopeSplit V payload else none with
  | none => ⟨[], [], payload⟩
  | some halves =>
    ⟨(headerValue decode halves.headers (ascii "reply_to") (BJM_SUBJECT_MAX + 1)).getD [],
      (headerValue decode halves.headers (ascii "correlation") 64).getD [], halves.message⟩

namespace Replier

/-- The publish of `publish_reply`. -/
def request (R : Replier) (replyTo correlation out : Bytes) : Request :=
  postTo R.base (replyUrl R.base.text replyTo correlation)
    (enveloped [(ascii "correlation", correlation)] (encode [.string (stripped out)]))

def publishReply (V : Vendor) (R : Replier) (attempts : List Attempt)
    (replyTo correlation out : Bytes) (st : Store) : Option ℕ × Store :=
  clientPerform R.retryMs (fun now st =>
    ((st.hPublish V now (R.request replyTo correlation out)).1.status,
      (st.hPublish V now (R.request replyTo correlation out)).2)) attempts st

end Replier

structure Handling where
  reply : HttpReply
  line : Bytes
  store : Store

def replyLine (index : ℤ) (what : String) : Bytes := lldText index ++ 0x09 :: ascii what

def hReply (V : Vendor) (G : UInt64 → Bytes) (decode : Decoder) (R : Replier)
    (attempts : List Attempt) (st : Store) (auth : Option Bytes) (body : Option Record) :
    Handling :=
  if !authorised R.token auth then ⟨textReply 401 "bad or missing bearer token\n", [], st⟩
  else match body with
    | none => ⟨textReply 400 "empty delivery\n", [], st⟩
    | some r => match bjDecode rrVisit r .blank with
      | .error _ => ⟨textReply 400 "malformed delivery\n", [], st⟩
      | .ok m => match m.payload with
        | none => ⟨textReply 400 "malformed delivery\n", [], st⟩
        | some payload =>
          let asked := askedIn V decode m.type payload
          match R.exec (feedFor G decode asked.msg false) with
          | none => ⟨textReply 500 "handler failed\n", replyLine m.index "failed\n", st⟩
          | some out =>
            if asked.replyTo = [] ∨ asked.correlation = [] then
              ⟨textReply 200 "", replyLine m.index "done (no reply_to)\n", st⟩
            else
              let told := R.publishReply V attempts asked.replyTo asked.correlation out st
              if told.1 = some 200 then ⟨textReply 200 "", replyLine m.index "replied\n", told.2⟩
              else ⟨textReply 500 "handler failed\n", replyLine m.index "failed\n", told.2⟩

end SukkalMsg
