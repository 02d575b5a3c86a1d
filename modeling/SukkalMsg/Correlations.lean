import SukkalMsg.Envelopes
import SukkalMsg.Renderer
import SukkalMsg.SubscriberReplies

/-!
# Replies and whose they are

A requester waits on a reply subject that it shares with others. It reads the headers of
every message of every batch it is sent, prints the first message that carries its own
correlation, and accepts the whole batch whether there was one or not.
-/

namespace SukkalMsg

open Names Binjson Store Renderer

/-! ### One header out of many -/

/-- `hdr_get`, without the name that is wanted. -/
structure HdrGet where
  key : Bytes
  value : Bytes
  got : Bool

/-- `hg_key` and `hg_string`: the first string that comes while the last key is the one wanted,
however deep. -/
def hgVisit (want : Bytes) (h : HdrGet) : Visit → HdrGet
  | .key k => { h with key := keyBuf 64 k }
  | .string v =>
    if h.got = true ∨ h.key ≠ want then h
    else { h with value := keyBuf (BJM_SUBJECT_MAX + 1) v, got := true }
  | _ => h

/-- `none` is 0; the text is cut to the caller's buffer. -/
def headerValue (decode : Decoder) (headers name : Bytes) (outSize : ℕ) : Option Bytes :=
  let h := (decode headers).1.foldl (hgVisit name) ⟨[], [], false⟩
  if (decode headers).2 = true ∧ h.got = true then some (cut outSize h.value) else none

/-! ### The requester -/

/-- The message of an envelope that carries this correlation. -/
def answerIn (V : Vendor) (decode : Decoder) (want : Bytes) (type : ℤ) (payload : Bytes) :
    Option Bytes :=
  if type ≠ BJM_ENTRY_ENVELOPE then none
  else match bjmEnvelopeSplit V payload with
    | none => none
    | some halves =>
      if headerValue decode halves.headers (ascii "correlation") 96 = some want then
        some halves.message
      else none

/-- `corr_scan`, and what has been printed. -/
structure CorrScan where
  key : Bytes
  index : ℤ
  type : ℤ
  payload : Option Bytes
  highest : ℕ
  matched : Bool
  out : Bytes

def CorrScan.blank : CorrScan := ⟨[], 0, 0, none, 0, false, []⟩

def shown (G : UInt64 → Bytes) (decode : Decoder) (msg : Bytes) : Bytes :=
  bjmRender G (decode msg).1 ++ [0x0A]

/-- `cs_key`, `cs_int`, `cs_binary` and `cs_object_end`. -/
def csVisit (V : Vendor) (G : UInt64 → Bytes) (decode : Decoder) (want : Bytes) (s : CorrScan) :
    Item → CorrScan
  | .key k => { s with key := keyBuf 16 k }
  | .int v =>
    if s.key = ascii "index" then { s with index := v }
    else if s.key = ascii "type" then { s with type := v }
    else s
  | .binary b => if s.key = ascii "payload" then { s with payload := some b } else s
  | .endObject =>
    let answer := if s.matched then none else s.payload.bind (answerIn V decode want s.type)
    { s with
      highest := max s.highest (ofDouble s.index)
      matched := s.matched || answer.isSome
      out := s.out ++ (answer.map (shown G decode)).getD []
      payload := none
      type := 0 }
  | _ => s

/-- `requester`, and what it has printed. -/
structure Requester where
  token : Bytes
  want : Bytes
  matched : Bool
  out : Bytes
  deriving DecidableEq

/-- What is visited is printed, and counts once the body has been decoded to its end. -/
def hAwaited (V : Vendor) (G : UInt64 → Bytes) (decode : Decoder) (rq : Requester)
    (auth : Option Bytes) (body : Option Record) : HttpReply × Requester :=
  if !authorised rq.token auth then (textReply 401 "bad or missing bearer token\n", rq)
  else match body with
    | none => (textReply 200 "", rq)
    | some r =>
      let sc := (r.takeWhile fun it => decide it.Safe).foldl (csVisit V G decode rq.want) .blank
      (textReply 200 "", { rq with
        matched := rq.matched || decide (Readable r) && sc.matched
        out := rq.out ++ sc.out })

/-! ### A batch -/

section

variable {V : Vendor} {G : UInt64 → Bytes} {decode : Decoder} {want : Bytes}

def Entry.answer (V : Vendor) (decode : Decoder) (want : Bytes) (e : Entry) : Option Bytes :=
  answerIn V decode want e.type e.payload

theorem foldl_csVisit (V : Vendor) (G : UInt64 → Bytes) (decode : Decoder) (want : Bytes)
    (i : ℕ) (term : ℤ) (e : Entry) (s : CorrScan) :
    ∃ highest, (messageRecord i term e).foldl (csVisit V G decode want) s =
      ⟨ascii "payload", toInt64 i, 0, none, highest,
        s.matched || (e.answer V decode want).isSome,
        s.out ++ if s.matched then [] else
          ((e.answer V decode want).map (shown G decode)).getD []⟩ := by
  obtain ⟨hindex, hterm, htype, hpayload, hterm', htype'⟩ := messageKeys
  have hterm'' : ascii "term" ≠ ascii "type" := by decide
  simp only [messageRecord, List.foldl_cons, List.foldl_nil, putInt]
  simp only [csVisit, hindex, hterm, htype, hpayload, hterm', htype', hterm'', if_true, if_false]
  refine ⟨max s.highest (ofDouble (toInt64 i)), ?_⟩
  cases s.matched with
  | true => simp
  | false => simp [Entry.answer]

theorem foldl_messagesFrom (V : Vendor) (G : UInt64 → Bytes) (decode : Decoder) (want : Bytes)
    (term : ℤ) (i : ℕ) (es : List Entry) (s : CorrScan) :
    ((messagesFrom term i es).foldl (csVisit V G decode want) s).matched =
        (s.matched || (es.findSome? (Entry.answer V decode want)).isSome) ∧
      ((messagesFrom term i es).foldl (csVisit V G decode want) s).out =
        s.out ++ if s.matched then [] else
          ((es.findSome? (Entry.answer V decode want)).map (shown G decode)).getD [] := by
  induction es generalizing i s with
  | nil => cases h : s.matched <;> simp [messagesFrom, h]
  | cons e es ih =>
    obtain ⟨highest, hone⟩ := foldl_csVisit V G decode want i term e s
    rw [messagesFrom, List.foldl_append, hone]
    obtain ⟨hmatched, hout⟩ := ih (i + 1) ⟨ascii "payload", toInt64 i, 0, none, highest,
      s.matched || (e.answer V decode want).isSome,
      s.out ++ if s.matched then [] else ((e.answer V decode want).map (shown G decode)).getD []⟩
    rw [hmatched, hout, List.findSome?_cons]
    dsimp only
    cases s.matched with
    | true => simp
    | false => cases e.answer V decode want <;> simp

theorem hAwaited_batch {rq : Requester} {auth : Option Bytes} {term : ℤ} {first : ℕ}
    {es : List Entry} (hauth : authorised rq.token auth = true)
    (hread : Readable (batchRecord term first es)) :
    hAwaited V G decode rq auth (some (batchRecord term first es)) =
      (textReply 200 "", { rq with
        matched := rq.matched || (es.findSome? (Entry.answer V decode rq.want)).isSome
        out := rq.out ++
          ((es.findSome? (Entry.answer V decode rq.want)).map (shown G decode)).getD [] }) := by
  have hall : (batchRecord term first es).takeWhile (fun it => decide it.Safe) =
      batchRecord term first es :=
    List.takeWhile_eq_self_iff.mpr fun it hit => decide_eq_true (hread it hit)
  have hbatch : (batchRecord term first es).foldl (csVisit V G decode rq.want) CorrScan.blank =
      (messagesFrom term first es).foldl (csVisit V G decode rq.want) CorrScan.blank :=
    foldl_batchRecord (fun _ => rfl) (fun _ => rfl) term first es CorrScan.blank
  have hscan := foldl_messagesFrom V G decode rq.want term first es CorrScan.blank
  have hmatched := hscan.1
  have hout := hscan.2
  simp only [show CorrScan.blank.matched = false from rfl, show CorrScan.blank.out = [] from rfl,
    Bool.false_or, Bool.false_eq_true, if_false, List.nil_append] at hmatched hout
  simp only [hAwaited, hauth, Bool.not_true, Bool.false_eq_true, if_false, hall, hbatch, hread,
    decide_true, Bool.true_and, hmatched, hout]

end

/-! ### Waiting -/

/-- A delivery at the requester's door: a batch, and whose word comes with it. -/
structure Handed where
  auth : Option Bytes
  term : ℤ
  first : ℕ
  entries : List Entry

def Handed.record (d : Handed) : Record := batchRecord d.term d.first d.entries

/-- The wait of `bjm_cmd_request`, poll by poll, each with what it serves; the flag is looked at
between two polls. -/
def awaitReply (V : Vendor) (G : UInt64 → Bytes) (decode : Decoder) :
    List (List Handed) → Requester → Requester
  | [], rq => rq
  | ds :: polls, rq =>
    if rq.matched then rq
    else awaitReply V G decode polls
      (ds.foldl (fun rq d => (hAwaited V G decode rq d.auth (some d.record)).2) rq)

def heard (token : Bytes) (ds : List Handed) : List Entry :=
  (ds.filter fun d => authorised token d.auth).flatMap Handed.entries

def Handed.answer (V : Vendor) (decode : Decoder) (token want : Bytes) (d : Handed) :
    Option Bytes :=
  (heard token [d]).findSome? (Entry.answer V decode want)

/-- The answers of the first poll that serves any, one for each delivery that has one. -/
def firstAnswers (V : Vendor) (decode : Decoder) (token want : Bytes) :
    List (List Handed) → List Bytes
  | [] => []
  | ds :: polls =>
    if (ds.filterMap (Handed.answer V decode token want)).isEmpty then
      firstAnswers V decode token want polls
    else ds.filterMap (Handed.answer V decode token want)

section

variable {V : Vendor} {G : UInt64 → Bytes} {decode : Decoder}

theorem hAwaited_handed (V : Vendor) (G : UInt64 → Bytes) (decode : Decoder) (rq : Requester)
    {d : Handed} (hread : Readable d.record) :
    (hAwaited V G decode rq d.auth (some d.record)).2 = { rq with
      matched := rq.matched || (d.answer V decode rq.token rq.want).isSome
      out := rq.out ++ ((d.answer V decode rq.token rq.want).map (shown G decode)).getD [] } := by
  cases hauth : authorised rq.token d.auth with
  | false => simp [hAwaited, Handed.answer, heard, hauth]
  | true =>
    rw [Handed.record, hAwaited_batch hauth hread]
    simp [Handed.answer, heard, hauth]

theorem heard_append (token : Bytes) (ds ds' : List Handed) :
    heard token (ds ++ ds') = heard token ds ++ heard token ds' := by
  simp only [heard, List.filter_append, List.flatMap_append]

theorem foldl_hAwaited {ds : List Handed} {rq : Requester} (hread : ∀ d ∈ ds, Readable d.record) :
    ds.foldl (fun rq d => (hAwaited V G decode rq d.auth (some d.record)).2) rq = { rq with
      matched := rq.matched || !(ds.filterMap (Handed.answer V decode rq.token rq.want)).isEmpty
      out := rq.out ++
        (ds.filterMap (Handed.answer V decode rq.token rq.want)).flatMap (shown G decode) } := by
  induction ds generalizing rq with
  | nil => simp
  | cons d ds ih =>
    rw [List.foldl_cons, hAwaited_handed V G decode rq (hread d List.mem_cons_self),
      ih fun d hd => hread d (List.mem_cons_of_mem _ hd), List.filterMap_cons]
    cases d.answer V decode rq.token rq.want <;> simp

theorem awaitReply_eq {polls : List (List Handed)} {rq : Requester}
    (hread : ∀ ds ∈ polls, ∀ d ∈ ds, Readable d.record) (hm : rq.matched = false) :
    awaitReply V G decode polls rq = { rq with
      matched := !(firstAnswers V decode rq.token rq.want polls).isEmpty
      out := rq.out ++ (firstAnswers V decode rq.token rq.want polls).flatMap (shown G decode) } := by
  induction polls generalizing rq with
  | nil =>
    obtain ⟨token, want, matched, out⟩ := rq
    obtain rfl : matched = false := hm
    simp [awaitReply, firstAnswers]
  | cons ds polls ih =>
    have hrest := fun ds hds => hread ds (List.mem_cons_of_mem _ hds)
    rw [awaitReply, hm, if_neg Bool.false_ne_true, foldl_hAwaited (hread ds List.mem_cons_self), hm,
      Bool.false_or, firstAnswers]
    cases hans : ds.filterMap (Handed.answer V decode rq.token rq.want) with
    | nil =>
      rw [ih hrest rfl]
      simp
    | cons msg msgs =>
      -- the loop looks at the flag before it goes on
      cases polls <;> simp [awaitReply]

theorem head?_firstAnswers (token want : Bytes) (polls : List (List Handed)) :
    (firstAnswers V decode token want polls).head? =
      (heard token polls.flatten).findSome? (Entry.answer V decode want) := by
  have hpoll : ∀ ds : List Handed, (ds.filterMap (Handed.answer V decode token want)).head? =
      (heard token ds).findSome? (Entry.answer V decode want) := by
    intro ds
    induction ds with
    | nil => rfl
    | cons d ds ih =>
      have hcons := heard_append token [d] ds
      rw [List.singleton_append] at hcons
      rw [List.filterMap_cons, hcons, List.findSome?_append, ← ih]
      rw [Handed.answer]
      cases (heard token [d]).findSome? (Entry.answer V decode want) <;> simp
  induction polls with
  | nil => rfl
  | cons ds polls ih =>
    rw [firstAnswers, List.flatten_cons, heard_append, List.findSome?_append, ← hpoll, ← ih]
    cases hans : ds.filterMap (Handed.answer V decode token want) <;> simp

theorem mem_firstAnswers {token want msg : Bytes} {polls : List (List Handed)}
    (h : msg ∈ firstAnswers V decode token want polls) :
    ∃ ds ∈ polls, ∃ d ∈ ds, d.answer V decode token want = some msg := by
  induction polls with
  | nil => simp [firstAnswers] at h
  | cons ds polls ih =>
    rw [firstAnswers] at h
    split at h
    · obtain ⟨ds', hds, hd⟩ := ih h
      exact ⟨ds', List.mem_cons_of_mem _ hds, hd⟩
    · obtain ⟨d, hd, hans⟩ := List.mem_filterMap.mp h
      exact ⟨ds, List.mem_cons_self, d, hd, hans⟩

theorem heard_subset {token : Bytes} {polls : List (List Handed)} {ds : List Handed} {d : Handed}
    (hds : ds ∈ polls) (hd : d ∈ ds) : heard token [d] ⊆ heard token polls.flatten := by
  intro e he
  obtain ⟨d', hmem, hin⟩ := List.mem_flatMap.mp he
  obtain ⟨hone, hauth⟩ := List.mem_filter.mp hmem
  obtain rfl := List.mem_singleton.mp hone
  exact List.mem_flatMap.mpr
    ⟨d', List.mem_filter.mpr ⟨List.mem_flatten.mpr ⟨ds, hds, hd⟩, hauth⟩, hin⟩

theorem firstAnswers_length_le {token want : Bytes} {polls : List (List Handed)}
    (h : ∀ ds ∈ polls, (ds.filterMap (Handed.answer V decode token want)).length ≤ 1) :
    (firstAnswers V decode token want polls).length ≤ 1 := by
  induction polls with
  | nil => exact Nat.zero_le 1
  | cons ds polls ih =>
    rw [firstAnswers]
    split
    · exact ih fun ds hds => h ds (List.mem_cons_of_mem _ hds)
    · exact h ds List.mem_cons_self

end

/-! ### What the engine makes of it -/

structure Psub.OnItsWay (s : Psub) (b : App) : Prop where
  ids : (b.push.subs.map (·.id)).Nodup
  mem : s ∈ b.push.subs
  live : s.gone = false
  plain : s.cfg.group = []
  batch : s.first ≤ s.last
  last : s.last < 2 ^ 64
  unheard : s.ackHint = none
  known : ∃ found, b.store.bjmCursorGet s.subject s.consumer = .ok found

theorem settles_onItsWay {b : App} {s : Psub} {h : HttpReply} {r : Reply}
    (hs : s.OnItsWay b) (h200 : h.status = 200)
    (hbare : ∀ line ∈ h.headers.map headerLine, Unmarked line) (hr : Conveys h r)
    (clock now : ℕ) :
    (b.delivered clock s.id r now).store.receiptOf s.subject s.consumer =
        max (b.store.receiptOf s.subject s.consumer) s.last ∧
      (b.delivered clock s.id r now).store.logs = b.store.logs := by
  obtain ⟨pre, suf, t, x, -, ht, hx, heq⟩ := delivered_settles hs.ids hs.mem hs.live clock r now
  have hok : r.ok = true := by
    simp [Reply.ok, hr.reached, hr.status, h200]
  have hsame : t.cfg = s.cfg ∧ t.subject = s.subject ∧ t.consumer = s.consumer ∧
      t.first = s.first ∧ t.last = s.last := by
    rw [ht, Psub.hear_same s r]
    exact ⟨rfl, rfl, rfl, rfl, rfl⟩
  obtain ⟨hcfg, hsubject, hconsumer, hfirst, hend⟩ := hsame
  have hhint : t.ackHint = none := by
    rw [ht]
    exact (Psub.hear_conveyed hr s).1.trans
      (by rw [Psub.foldl_onHdr_unmarked s hbare, hs.unheard])
  have hack : t.ackOf = s.last := by
    simp only [Psub.ackOf, hhint, hend]
  have hsettle : x = t.finishBatch b.store r now := by
    rw [hx, Psub.settle, if_neg (fun hne => hne (hcfg ▸ hs.plain))]
  obtain ⟨found, hget⟩ := hs.known
  obtain ⟨st', hset⟩ := cursorSet_of_get s.last hget
  have hle : t.first ≤ t.ackOf := by
    rw [hack, hfirst]
    exact hs.batch
  have hstore : (b.delivered clock s.id r now).store = st' := by
    rw [heq, hsettle]
    dsimp only
    rw [Psub.finishBatch_store, if_pos ⟨hok, hle⟩, hsubject, hconsumer, hack, hset]
  rw [hstore]
  exact receiptOf_cursorSet hs.last hset

theorem eq_toList_of_head? {α : Type} {l : List α} {x : Option α} (h : l.head? = x)
    (hlen : l.length ≤ 1) : l = x.toList := by
  match l with
  | [] => rw [← h]; rfl
  | [a] => rw [← h]; rfl

/-- Whatever is delivered, the requester stops after the first poll that serves it a message with
its correlation, and prints the first such message of each delivery of that poll: the first of
all that is read, and only this one unless the poll serves two. Every batch is accepted whole,
whosever replies it holds. -/
theorem requester_takes_own {V : Vendor} {G : UInt64 → Bytes} {decode : Decoder}
    {polls : List (List Handed)} (hread : ∀ ds ∈ polls, ∀ d ∈ ds, Readable d.record)
    (token want : Bytes) :
    awaitReply V G decode polls ⟨token, want, false, []⟩ =
        ⟨token, want, !(firstAnswers V decode token want polls).isEmpty,
          (firstAnswers V decode token want polls).flatMap (shown G decode)⟩ ∧
      (firstAnswers V decode token want polls).head? =
        (heard token polls.flatten).findSome? (Entry.answer V decode want) ∧
      ((∀ ds ∈ polls, (ds.filterMap (Handed.answer V decode token want)).length ≤ 1) →
        firstAnswers V decode token want polls =
          ((heard token polls.flatten).findSome? (Entry.answer V decode want)).toList) ∧
      ∀ ds ∈ polls, ∀ d ∈ ds, authorised token d.auth = true →
        ∀ (matched : Bool) (out : Bytes) (r : Reply),
        Conveys (hAwaited V G decode ⟨token, want, matched, out⟩ d.auth (some d.record)).1 r →
        ∀ (b : App) (s : Psub), s.OnItsWay b → ∀ clock now,
          (b.delivered clock s.id r now).store.receiptOf s.subject s.consumer =
              max (b.store.receiptOf s.subject s.consumer) s.last ∧
            (b.delivered clock s.id r now).store.logs = b.store.logs := by
  refine ⟨?_, head?_firstAnswers token want polls, fun hone => ?_, ?_⟩
  · rw [awaitReply_eq hread rfl, List.nil_append]
  · exact eq_toList_of_head? (head?_firstAnswers token want polls) (firstAnswers_length_le hone)
  · intro ds hds d hd hauth matched out r hr b s hs clock now
    have hreply : (hAwaited V G decode ⟨token, want, matched, out⟩ d.auth (some d.record)).1 =
        textReply 200 "" := by
      rw [Handed.record, hAwaited_batch hauth (hread ds hds d hd)]
    rw [hreply] at hr
    refine settles_onItsWay hs rfl ?_ hr clock now
    intro line hline
    obtain rfl : line = headerLine contentText := by simpa [textReply] using hline
    exact unmarked_contentText

def correlated (c : Bytes) : Record :=
  [.beginObject, .key (ascii "correlation"), .string c, .endObject]

def replyCarrying (c : Bytes) : Entry :=
  ⟨BJM_ENTRY_ENVELOPE,
    encode (.beginArray :: correlated c ++ [.string (ascii "hi"), .endArray])⟩

def knowsReplies : Decoder := fun data =>
  if data = encode [.string (ascii "hi")] then ([.string (ascii "hi")], true)
  else match [ascii "a", ascii "b"].find? fun c => encode (correlated c) = data with
    | none => ([], false)
    | some c => ([.objectBegin 1, .key (ascii "correlation"), .string c, .objectEnd], true)

def bareMessages : Handed := ⟨none, 1, 1, twoMessages⟩

def twoReplies : Handed := ⟨none, 1, 3, [replyCarrying (ascii "b"), replyCarrying (ascii "a")]⟩

/-- The replies are printed once where one poll serves them once, and twice where it serves them
again. -/
theorem twoDeliveries_taken :
    awaitReply sizedVendor (fun _ => []) knowsReplies [[bareMessages], [twoReplies], [twoReplies]]
        ⟨[], ascii "a", false, []⟩ = ⟨[], ascii "a", true, ascii "\"hi\"\n"⟩ ∧
      awaitReply sizedVendor (fun _ => []) knowsReplies [[bareMessages, twoReplies, twoReplies]]
        ⟨[], ascii "a", false, []⟩ = ⟨[], ascii "a", true, ascii "\"hi\"\n\"hi\"\n"⟩ ∧
      ((awaitingTwo twoSent.store).delivered 3 twoSent.sub.id
          (hAwaited sizedVendor (fun _ => []) knowsReplies ⟨[], ascii "a", false, []⟩ none
            (some bareMessages.record)).1.told 3).store.receiptOf
        (ascii "orders") (ascii "billing") = 2 := by
  have hread : ∀ d ∈ [bareMessages, twoReplies], Readable d.record := by decide +kernel
  have hreads : ∀ polls : List (List Handed),
      (∀ ds ∈ polls, ∀ d ∈ ds, d = bareMessages ∨ d = twoReplies) →
      ∀ ds ∈ polls, ∀ d ∈ ds, Readable d.record := fun polls h ds hds d hd =>
    hread d (by simpa using h ds hds d hd)
  obtain ⟨hwait, -, -, hsettles⟩ := @requester_takes_own sizedVendor (fun _ => []) knowsReplies
    [[bareMessages], [twoReplies], [twoReplies]] (hreads _ (by simp)) [] (ascii "a")
  obtain ⟨htwice, -⟩ := @requester_takes_own sizedVendor (fun _ => []) knowsReplies
    [[bareMessages, twoReplies, twoReplies]] (hreads _ (by simp)) [] (ascii "a")
  refine ⟨?_, ?_, ?_⟩
  · rw [hwait]
    decide +kernel
  · rw [htwice]
    decide +kernel
  · have hplace : twoSent.sub.subject = ascii "orders" ∧ twoSent.sub.consumer = ascii "billing" ∧
        twoSent.sub.first = 1 ∧ twoSent.sub.last = 2 ∧ twoSent.sub.gone = false ∧
        twoSent.sub.cfg.group = [] := by decide +kernel
    obtain ⟨hsubject, hconsumer, hfirst, hlast, hlive, hplain⟩ := hplace
    have hway : twoSent.sub.OnItsWay (awaitingTwo twoSent.store) :=
      ⟨List.nodup_singleton _, List.mem_singleton_self _, hlive, hplain,
        by rw [hfirst, hlast]; decide, by rw [hlast]; decide, twoSent_carries.hint, none, rfl⟩
    have hone := (hsettles [bareMessages] List.mem_cons_self bareMessages List.mem_cons_self rfl
      false [] _ (HttpReply.conveys_told _) (awaitingTwo twoSent.store) twoSent.sub hway 3 3).1
    have hbegin : (awaitingTwo twoSent.store).store.receiptOf (ascii "orders") (ascii "billing") =
        0 := by decide +kernel
    rw [hsubject, hconsumer, hlast, hbegin] at hone
    exact hone

end SukkalMsg
