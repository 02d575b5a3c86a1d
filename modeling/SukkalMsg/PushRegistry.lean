import Mathlib.Data.List.TakeWhile
import SukkalMsg.PublishHandler

/-!
# Patterns and the registry of push subscriptions

A registration is a flat record in the push tree, under the consumer's name: the
pattern it matches, where to send, and how much at a time. Nothing else is kept
about a subscription; how far it has read is its receipts.
-/

namespace SukkalMsg

open Std Names Binjson OrderedScan

/-- The `.`-separated tokens `next_token` yields: none follows a final dot. -/
def tokens : Bytes → List Bytes
  | [] => []
  | c :: cs =>
    if c = dot then [] :: tokens cs
    else match tokens cs with
      | [] => [[c]]
      | t :: ts => (c :: t) :: ts

def anyToken : Bytes := ascii "*"
def anyTail : Bytes := ascii ">"

def bjmPatternIs (s : Bytes) : Bool := s.any fun c => c == 0x2A || c == 0x3E

/-- The loop of `bjm_pattern_valid`; `>` may only be the last token. -/
def tokensValid : List Bytes → Bool
  | [] => true
  | t :: ts =>
    if t.isEmpty then false
    else if t = anyTail then ts.isEmpty
    else (t = anyToken || t.all nameChar) && tokensValid ts

def bjmPatternValid (s : Bytes) : Bool :=
  !s.isEmpty && s.length ≤ BJM_SUBJECT_MAX && tokensValid (tokens s)

/-- The loop of `bjm_pattern_match`; `>` takes at least one token. -/
def tokensMatch : List Bytes → List Bytes → Bool
  | [], ss => ss.isEmpty
  | p :: ps, ss =>
    if p = anyTail then !ss.isEmpty
    else match ss with
      | [] => false
      | s :: ss => (p = anyToken || p = s) && tokensMatch ps ss

def bjmPatternMatch (pattern subject : Bytes) : Bool :=
  tokensMatch (tokens pattern) (tokens subject)

def printable (s : Bytes) : Bool := s.all fun c => 0x20 < c && c < 0x7F

def bjmCallbackValid (url : Bytes) : Bool :=
  !url.isEmpty && url.length ≤ BJM_CALLBACK_MAX &&
    ((ascii "http://").isPrefixOf url || (ascii "https://").isPrefixOf url) && printable url

def bjmTokenValid (s : Bytes) : Bool := s.length ≤ BJM_TOKEN_MAX && printable s

def BJM_PUSH_JOBS_MAX : ℕ := 64

/-- A registration. Without a group it is a subscriber, with one a worker. -/
structure PushSub where
  pattern : Bytes
  callback : Bytes
  token : Bytes
  group : Bytes
  batchBytes : ℕ
  maxJobs : ℕ
  deriving DecidableEq

def PushSub.zero : PushSub := ⟨[], [], [], [], 0, 0⟩

def pushRecord (s : PushSub) : Record :=
  [.beginObject,
    .key (ascii "pattern"), .string s.pattern,
    .key (ascii "callback"), .string s.callback,
    .key (ascii "token"), .string s.token,
    .key (ascii "batch_bytes"), putInt s.batchBytes,
    .key (ascii "group"), .string s.group,
    .key (ascii "max_jobs"), putInt s.maxJobs,
    .endObject]

structure PushGrab where
  key : Bytes
  s : PushSub

/-- `pu_key`, `pu_string` and `pu_int`: a string is cut to its field. -/
def puVisit (g : PushGrab) : Item → PushGrab
  | .key k => { g with key := Store.keyBuf 32 k }
  | .string v =>
    if g.key = ascii "pattern" then { g with s.pattern := Store.keyBuf (BJM_SUBJECT_MAX + 1) v }
    else if g.key = ascii "callback" then
      { g with s.callback := Store.keyBuf (BJM_CALLBACK_MAX + 1) v }
    else if g.key = ascii "token" then { g with s.token := Store.keyBuf (BJM_TOKEN_MAX + 1) v }
    else if g.key = ascii "group" then { g with s.group := Store.keyBuf (BJM_GROUP_MAX + 1) v }
    else g
  | .int v =>
    if g.key = ascii "batch_bytes" then { g with s.batchBytes := ofDouble v }
    else if g.key = ascii "max_jobs" then { g with s.maxJobs := ofDouble v }
    else g
  | _ => g

def pushDecode (r : Record) : Except BjErr PushSub :=
  (bjDecode puVisit r ⟨[], .zero⟩).map PushGrab.s

namespace Store

/-- The registration of a consumer, if it has one. -/
def bjmPushGet (st : Store) (consumer : Bytes) : Except BjErr (Option PushSub) :=
  match st.push[consumer]? with
  | none => .ok none
  | some r => (pushDecode r).map some

def bjmPushSet (st : Store) (consumer : Bytes) (s : PushSub) : Store :=
  { st with push := st.push.insert consumer (pushRecord s) }

def bjmPushDelete (st : Store) (consumer : Bytes) : Bool × Store :=
  (st.push.contains consumer, { st with push := st.push.erase consumer })

/-- The registrations in key order; one that does not decode is passed over. -/
def bjmPushEach (st : Store) : List (Bytes × PushSub) :=
  st.push.toList.filterMap fun p =>
    if p.1.length > BJM_CONSUMER_MAX then none
    else (pushDecode p.2).toOption.map (cString p.1, ·)

end Store

/-- The strings of a registration fit their fields, and hold no zero byte. -/
structure PushSub.Fits (s : PushSub) : Prop where
  pattern : Store.keyBuf (BJM_SUBJECT_MAX + 1) s.pattern = s.pattern
  callback : Store.keyBuf (BJM_CALLBACK_MAX + 1) s.callback = s.callback
  token : Store.keyBuf (BJM_TOKEN_MAX + 1) s.token = s.token
  group : Store.keyBuf (BJM_GROUP_MAX + 1) s.group = s.group

theorem keyBuf_cString_take (cap : ℕ) (v : Bytes) :
    Store.keyBuf cap (cString (v.take (cap - 1))) = cString (v.take (cap - 1)) := by
  have hlen : (cString (v.take (cap - 1))).length ≤ cap - 1 :=
    Nat.le_trans (List.takeWhile_prefix _).length_le (List.length_take_le _ _)
  rw [Store.keyBuf, List.take_of_length_le hlen, cString, List.takeWhile_idem]

theorem pushDecode_of_carried {s : PushSub} (hf : s.Fits) (hb : Carried s.batchBytes)
    (hm : Carried s.maxJobs) : pushDecode (pushRecord s) = .ok s := by
  have hr : Readable (pushRecord s) := by
    intro it hit
    simp only [pushRecord, List.mem_cons, List.not_mem_nil, or_false] at hit
    rcases hit with rfl | rfl | rfl | rfl | rfl | rfl | rfl | rfl | rfl | rfl | rfl | rfl | rfl |
      rfl <;> first | trivial | exact hb.safe | exact hm.safe
  have hfold : (pushRecord s).foldl puVisit ⟨[], .zero⟩ =
      ⟨ascii "max_jobs", ⟨Store.keyBuf (BJM_SUBJECT_MAX + 1) s.pattern,
        Store.keyBuf (BJM_CALLBACK_MAX + 1) s.callback, Store.keyBuf (BJM_TOKEN_MAX + 1) s.token,
        Store.keyBuf (BJM_GROUP_MAX + 1) s.group, ofDouble (toInt64 s.batchBytes),
        ofDouble (toInt64 s.maxJobs)⟩⟩ := rfl
  rw [pushDecode, bjDecode_of_readable _ hr, hfold, hf.pattern, hf.callback, hf.token, hf.group,
    hb.back, hm.back]
  rfl

end SukkalMsg
