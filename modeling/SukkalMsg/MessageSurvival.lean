import SukkalMsg.AcceptedBodies
import SukkalMsg.PyProtocol
import SukkalMsg.ShapeCounts

/-!
# A message on its way to a handler

What the Python client publishes is stored under the type its headers ask for, and is
parsed out of a batch as the value and the headers it was made of. An envelope is told
from a message that looks like one by that type alone.
-/

namespace SukkalMsg.PyProtocol

open Names PyBinjson

variable {D : Type} {P : PyRuntime D} {C : PyConversions D} {V : Vendor} {info : DeliveryInfo}

mutual

/-- The callbacks a decoder makes on the way through a value. -/
def walk : PyValue D → List Binjson.Callback
  | .none => [.null]
  | .bool _ => [.bool]
  | .oid _ => [.oid]
  | .pointer _ => [.pointer]
  | .datetime _ => [.date]
  | .bytes _ => [.binary]
  | .int _ => [.int]
  | .float _ => [.float]
  | .str _ => [.string]
  | .list items => .arrayBegin items.length :: walkItems items ++ [.arrayEnd]
  | .tuple items => .arrayBegin items.length :: walkItems items ++ [.arrayEnd]
  | .dict items => .objectBegin items.length :: walkPairs items ++ [.objectEnd]

def walkItems : List (PyValue D) → List Binjson.Callback
  | [] => []
  | item :: items => walk item ++ walkItems items

def walkPairs : List (String × PyValue D) → List Binjson.Callback
  | [] => []
  | (_, item) :: items => .key :: walk item ++ walkPairs items

end

/-- What is encoded of a message: the value, or the list of its headers and itself. -/
def enveloped (value : PyValue D) (headers : Option (List (String × PyValue D))) : PyValue D :=
  headers.elim value fun h => .list [.dict h, value]

theorem encodeMessage_eq_ok {value : PyValue D} {headers : Option (List (String × PyValue D))}
    {raw : Bytes} {flagged : Bool} :
    encodeMessage P value headers = .ok (raw, flagged) ↔
      encodeInto P (enveloped value headers) = .ok raw ∧ flagged = headers.isSome := by
  cases headers with
  | none =>
    simp only [encodeMessage, encode, enveloped, Option.elim_none, Option.isSome_none]
    cases encodeInto P value <;> simp [Except.map, eq_comm]
  | some h =>
    simp only [encodeMessage, encode, enveloped, Option.elim_some, Option.isSome_some]
    cases encodeInto P (.list [.dict h, value]) <;> simp [Except.map, eq_comm]

/-- A message and the request body made of it. -/
structure Sent (D : Type) where
  value : PyValue D
  headers : Option (List (String × PyValue D))
  raw : Bytes
  flagged : Bool

namespace Sent

/-- The client could encode it. -/
structure Made (P : PyRuntime D) (s : Sent D) : Prop where
  value : Built P s.value
  headers : ∀ h, s.headers = some h → Built P (.dict h)
  encoded : encodeMessage P s.value s.headers = .ok (s.raw, s.flagged)

/-- `bj_decode` walks the body, if the broker looks into it. -/
def Walked (V : Vendor) (s : Sent D) : Prop :=
  ∀ h, s.headers = some h → V.callbacks s.raw = some (walk (.list [.dict h, s.value]))

/-- The broker's count of the values in the envelope, if there is one, lasts to its end. -/
def Lasts (s : Sent D) : Prop :=
  ∀ h, s.headers = some h → CountLasts (walk (.list [.dict h, s.value]))

def type (s : Sent D) : ℤ := if s.headers.isSome then ENTRY_ENVELOPE else ENTRY_PLAIN

def headersBack (P : PyRuntime D) (s : Sent D) : PyValue D :=
  s.headers.elim .none fun h => .dict (rereadPairs P h)

end Sent

/-- The request `Client.publish` makes of a message. -/
structure Publishes (subject : Bytes) (s : Sent D) (req : Request) : Prop where
  path : req.path = ascii "/pub/" ++ subject
  contentType : req.contentType = some SUKKAL_MEDIA_TYPE
  body : req.body = some s.raw
  headers : req.query (ascii "headers") = if s.flagged then some (ascii "1") else none

/-! ### Publishing -/

namespace Sent.Made

variable {s : Sent D}

theorem flagged_eq (h : s.Made P) : s.flagged = s.headers.isSome :=
  (encodeMessage_eq_ok.mp h.encoded).2

theorem built (h : s.Made P) : Built P (enveloped s.value s.headers) := by
  cases hh : s.headers with
  | none => exact h.value
  | some hd =>
    refine .list fun item hi => ?_
    simp only [List.mem_cons, List.not_mem_nil, or_false] at hi
    rcases hi with rfl | rfl
    · exact h.headers hd hh
    · exact h.value

theorem faithful (h : s.Made P) : Faithful P (enveloped s.value s.headers) s.raw :=
  h.built.faithful (encodeMessage_eq_ok.mp h.encoded).1

theorem raw_ne_nil (h : s.Made P) : s.raw ≠ [] := by
  intro hnil
  have hd := h.faithful.decoded
  rw [hnil] at hd
  simp [decode, decodeAt, need, bind, Except.bind] at hd

end Sent.Made

/-! ### The count of the values -/

theorem encodeInto_ne_nil {v : PyValue D} {b : Bytes} (h : encodeInto P v = .ok b) :
    0 < b.length := by
  have hmap : ∀ {kind : UInt8} {r : Except PyError Bytes}, r.map (kind :: ·) = .ok b →
      0 < b.length := by
    intro kind r hr
    cases r with
    | error e => contradiction
    | ok out =>
      obtain rfl := Except.ok.inj hr
      simp
  cases v with
  | none | bool _ | oid _ | pointer _ | float _ =>
    obtain rfl := Except.ok.inj h
    simp
  | datetime when => exact hmap h
  | int n =>
    rw [encodeInto] at h
    split at h
    · exact hmap h
    · split at h
      · contradiction
      · obtain rfl := Except.ok.inj h
        simp
  | bytes _ | str _ =>
    obtain ⟨-, rfl⟩ := encodeRaw_inv h
    simp
  | list _ | tuple _ | dict _ =>
    obtain ⟨content, -, -, -, rfl⟩ := encodeContainer_inv h
    rw [length_boxed]
    omega

mutual

theorem countOf_walk_le {v : PyValue D} {b : Bytes} (h : encodeInto P v = .ok b) :
    countOf (walk v) ≤ b.length := by
  match v with
  | .none | .bool _ | .oid _ | .pointer _ | .float _ | .datetime _ | .int _ | .bytes _ | .str _ =>
    exact encodeInto_ne_nil h
  | .list items =>
    obtain ⟨content, hitems, -, -, rfl⟩ := encodeContainer_inv h
    have hle := countOf_walkItems_le hitems
    rw [walk, List.cons_append, countOf_cons_of_pos rfl, countOf_append, length_boxed]
    have hend : countOf [Binjson.Callback.arrayEnd] = 0 := rfl
    omega
  | .tuple items =>
    obtain ⟨content, hitems, -, -, rfl⟩ := encodeContainer_inv h
    have hle := countOf_walkItems_le hitems
    rw [walk, List.cons_append, countOf_cons_of_pos rfl, countOf_append, length_boxed]
    have hend : countOf [Binjson.Callback.arrayEnd] = 0 := rfl
    omega
  | .dict items =>
    obtain ⟨content, hitems, -, -, rfl⟩ := encodeContainer_inv h
    have hle := countOf_walkPairs_le hitems
    rw [walk, List.cons_append, countOf_cons_of_pos rfl, countOf_append, length_boxed]
    have hend : countOf [Binjson.Callback.objectEnd] = 0 := rfl
    omega

theorem countOf_walkItems_le {items : List (PyValue D)} {b : Bytes}
    (h : encodeItems P items = .ok b) : countOf (walkItems items) ≤ b.length := by
  match items with
  | [] => exact Nat.zero_le _
  | item :: items =>
    obtain ⟨out, hout, h⟩ := bind_eq_ok.mp h
    obtain ⟨rest, hrest, h⟩ := bind_eq_ok.mp h
    obtain rfl := Except.ok.inj h
    have hitem := countOf_walk_le hout
    have hitems := countOf_walkItems_le hrest
    rw [walkItems, countOf_append, List.length_append]
    omega

theorem countOf_walkPairs_le {items : List (String × PyValue D)} {b : Bytes}
    (h : encodePairs P items = .ok b) : countOf (walkPairs items) ≤ b.length := by
  match items with
  | [] => exact Nat.zero_le _
  | (key, item) :: items =>
    obtain ⟨size, -, h⟩ := bind_eq_ok.mp h
    obtain ⟨out, hout, h⟩ := bind_eq_ok.mp h
    obtain ⟨rest, hrest, h⟩ := bind_eq_ok.mp h
    obtain rfl := Except.ok.inj h
    have hitem := countOf_walk_le hout
    have hitems := countOf_walkPairs_le hrest
    rw [walkPairs, List.cons_append, countOf_cons_of_neg (by decide), countOf_append,
      List.length_append, List.length_append, List.length_append]
    omega

end

variable {s : Sent D} {subject : Bytes} {req : Request}

theorem Sent.Walked.shape {h : List (String × PyValue D)} (hw : s.Walked V) (hm : s.Made P)
    (hh : s.headers = some h) :
    bjmEnvelopeShapeOk V s.raw = true ↔ CountLasts (walk (.list [.dict h, s.value])) := by
  have hencoded := (encodeMessage_eq_ok.mp hm.encoded).1
  rw [hh] at hencoded
  obtain ⟨content, hitems, -, hlen, -⟩ := encodeContainer_inv hencoded
  have hcount := countOf_walkItems_le hitems
  have hcbs : walk (.list [.dict h, s.value]) = .arrayBegin 2 :: .objectBegin h.length ::
      (walkPairs h ++ [.objectEnd] ++ (walk s.value ++ []) ++ [.arrayEnd]) := rfl
  have hitems' : walkItems [.dict h, s.value] =
      .objectBegin h.length :: (walkPairs h ++ [.objectEnd] ++ (walk s.value ++ [])) := rfl
  have hend : countOf [Binjson.Callback.arrayEnd] = 0 := rfl
  rw [hitems', countOf_cons_of_pos rfl] at hcount
  have hlen : countOf (.arrayBegin 2 :: .objectBegin h.length ::
      (walkPairs h ++ [.objectEnd] ++ (walk s.value ++ []) ++ [.arrayEnd])) ≤ 2 ^ 32 := by
    rw [countOf_cons_of_pos rfl, countOf_cons_of_pos rfl, countOf_append, hend]
    omega
  have hshape := shape_pair hlen
  simp only [bjmEnvelopeShapeOk, hw h hh, hcbs, hshape, beq_iff_eq]
  split_ifs with hlasts
  · exact iff_of_true rfl hlasts
  · exact iff_of_false (by decide) hlasts

/-- What is answered to an envelope whose count does not last. -/
def shapeRefusal : Answer :=
  .err 400 (ascii ("with ?headers=1 the body must be a 2-element " ++
    "array: [ headers-object, message ]\n"))

theorem entryType_sent (hm : s.Made P) (hw : s.Walked V) (hr : Publishes subject s req) :
    (s.Lasts → entryType V req s.raw = .ok s.type) ∧
      (¬ s.Lasts → entryType V req s.raw = .error shapeRefusal) := by
  have hq := hr.headers
  rw [hm.flagged_eq] at hq
  cases hh : s.headers with
  | none =>
    have hzero : req.queryU64 (ascii "headers") 0 = 0 := by
      rw [hh] at hq
      simp only [Option.isSome_none, Bool.false_eq_true, if_false] at hq
      simp only [Request.queryU64, Request.queryGet, hq]
    refine ⟨fun _ => ?_, fun hn => absurd (fun h hs => ?_) hn⟩
    · simp only [entryType, hzero, if_true, Sent.type, hh, Option.isSome_none, Bool.false_eq_true,
        if_false]
      rfl
    · rw [hh] at hs
      contradiction
  | some h =>
    have hone : req.queryU64 (ascii "headers") 0 = 1 := by
      rw [hh] at hq
      simp only [Option.isSome_some, if_true] at hq
      simp only [Request.queryU64, Request.queryGet, hq]
      rfl
    have hshape := hw.shape hm hh
    constructor
    · intro hl
      simp only [entryType, hone, hshape.mpr (hl h hh), Sent.type, hh, Option.isSome_some, if_true]
      rfl
    · intro hn
      have hfalse : ¬ bjmEnvelopeShapeOk V s.raw = true := fun hok =>
        hn fun h' hh' => Option.some.inj (hh.symm.trans hh') ▸ hshape.mp hok
      simp only [entryType, hone, hfalse, shapeRefusal]
      rfl

theorem publication_sent (hsize : SizedByRule V) (hm : s.Made P) (hw : s.Walked V)
    (hs : bjmSubjectValid subject = true) (hr : Publishes subject s req) :
    (s.Lasts →
      publication V req = (requestId req).map fun id => ⟨subject, ⟨s.type, s.raw⟩, id⟩) ∧
      (¬ s.Lasts → publication V req = .error shapeRefusal) := by
  have hsubject : subjectOf req (ascii "/pub/") = .ok subject := by
    simp only [subjectOf, hr.path, List.drop_left, hs, if_true]
  have hlen : V.valueSize s.raw = some s.raw.length := by
    have hsized := hm.faithful.sized []
    rw [List.append_nil] at hsized
    rw [hsize, hsized]
    rfl
  obtain ⟨htype, hrefused⟩ := entryType_sent hm hw hr
  have hbody := hr.body
  obtain ⟨b, bs, hraw⟩ := List.exists_cons_of_ne_nil hm.raw_ne_nil
  rw [hraw] at hlen htype hrefused hbody ⊢
  constructor
  · intro hl
    simp only [publication, hsubject, hr.contentType, hbody, hlen, htype hl, ne_eq,
      not_true_eq_false, if_false]
    cases requestId req <;> rfl
  · intro hn
    simp only [publication, hsubject, hr.contentType, hbody, hlen, hrefused hn, ne_eq,
      not_true_eq_false, if_false]

/-- What a publish of it appends, if anything, is the body under that type; with no id and no
receipt to move it is answered 200 and appends it. -/
theorem stored_sent (hsize : SizedByRule V) (hm : s.Made P) (hw : s.Walked V)
    (hs : bjmSubjectValid subject = true) (hr : Publishes subject s req) (st : Store) (now : ℕ) :
    ((st.hPublish V now req).2.logs = st.logs ∨ (st.hPublish V now req).2.logs =
        st.logs.insert subject ((st.logOf subject).append ⟨s.type, s.raw⟩)) ∧
      (s.Lasts → req.query (ascii "id") = none → req.query (ascii "ack_index") = none →
        (st.hPublish V now req).1.status = 200 ∧ (st.hPublish V now req).2.logs =
          st.logs.insert subject ((st.logOf subject).append ⟨s.type, s.raw⟩)) := by
  obtain ⟨hlasting, hrefused⟩ := publication_sent hsize hm hw hs hr
  constructor
  · refine (hPublish_logs V st now req).imp id fun ⟨p, hpub, hlogs⟩ => ?_
    by_cases hl : s.Lasts
    · rw [hlasting hl] at hpub
      cases hid : requestId req with
      | error a => simp [hid, Except.map] at hpub
      | ok id =>
        simp only [hid, Except.map, Except.ok.injEq] at hpub
        subst hpub
        exact hlogs
    · rw [hrefused hl] at hpub
      contradiction
  · intro hl hid hack
    have hp := hlasting hl
    have hnone : requestId req = .ok none := by simp only [requestId, Request.queryGet, hid]
    have hzero : req.queryU64 (ascii "ack_index") 0 = 0 := by
      simp only [Request.queryU64, Request.queryGet, hack]
    rw [hnone] at hp
    have hfresh := publishFresh_appends st now (p := ⟨subject, ⟨s.type, s.raw⟩, none⟩) hs
    obtain ⟨st₁, -, hanswer, -⟩ :=
      Store.publishFresh_eq st now (p := ⟨subject, ⟨s.type, s.raw⟩, none⟩) hs
    cases hf : st.publishFresh now ⟨subject, ⟨s.type, s.raw⟩, none⟩ with
    | mk r st₂ =>
      rw [hf] at hfresh hanswer
      simp only at hfresh hanswer
      subst hanswer
      simp only [Store.hPublish, hp, Except.map, Store.publishOnce, hf, Store.publishAck, hzero,
        if_true]
      exact ⟨rfl, hfresh⟩

/-! ### Parsing -/

theorem unwrap_sent {entry : List (String × PyValue D)} (hm : s.Made P)
    (hpayload : entry.lookup "payload" = some (.bytes s.raw))
    (htype : entry.lookup "type" = some (.int s.type)) :
    unwrap P entry = .ok (s.headersBack P, reread P s.value) := by
  have hdec := hm.faithful.decoded
  simp only [unwrap, hpayload, htype, hdec]
  cases hh : s.headers with
  | none =>
    have hplain : isEnvelope (some (PyValue.int (D := D) s.type)) = false := by
      simp only [Sent.type, hh]
      rfl
    simp only [hplain, enveloped, Option.elim_none, Sent.headersBack, hh]
  | some h =>
    have henv : isEnvelope (some (PyValue.int (D := D) s.type)) = true := by
      simp only [Sent.type, hh]
      rfl
    simp only [henv, enveloped, Option.elim_some, reread, rereadItems, Sent.headersBack, hh]

/-- A message at its place in the log. -/
structure Kept (D : Type) where
  index : ℤ
  term : ℤ
  sent : Sent D

/-- What `elog_get_batch` writes of it. -/
def Kept.entry (k : Kept D) : List (String × PyValue D) :=
  [("index", .int k.index), ("term", .int k.term), ("type", .int k.sent.type),
    ("payload", .bytes k.sent.raw)]

def Kept.delivered (P : PyRuntime D) (info : DeliveryInfo) (k : Kept D) : Delivery D :=
  .message ⟨k.index, reread P k.sent.value, k.sent.headersBack P, k.sent.raw, info.subject,
    info.lag, k.sent.type⟩

theorem parseEntry_kept {k : Kept D} (hm : k.sent.Made P) :
    parseEntry P C info false (.dict k.entry) = .ok (k.delivered P info) := by
  have hunwrap : unwrap P k.entry = .ok (k.sent.headersBack P, reread P k.sent.value) :=
    unwrap_sent hm rfl rfl
  simp only [parseEntry, hunwrap]
  rfl

theorem mapM_ok {α β ε : Type} {f : α → Except ε β} {g : α → β} {xs : List α}
    (h : ∀ x ∈ xs, f x = .ok (g x)) : xs.mapM f = .ok (xs.map g) := by
  induction xs with
  | nil => rfl
  | cons x xs ih =>
    rw [List.mapM_cons, h x List.mem_cons_self, ih fun y hy => h y (List.mem_cons_of_mem _ hy)]
    rfl

theorem parseDelivery_kept {ks : List (Kept D)} {body : Bytes}
    (hm : ∀ k ∈ ks, k.sent.Made P) (hbody : decode P body = .ok (.list (ks.map fun k => .dict k.entry))) :
    parseDelivery P C body info false = .ok (ks.map (Kept.delivered P info)) := by
  simp only [parseDelivery, hbody, List.mapM_map]
  exact mapM_ok fun k hk => parseEntry_kept (hm k hk)

/-! ### The answer of a take -/

section

open Binjson

variable {j : SukkalMsg.Job} {jobs : List SukkalMsg.Job}

/-- One object of the answer of `bjm_take`, as Python decodes it. -/
def jobEntry (j : SukkalMsg.Job) : List (String × PyValue D) :=
  [("index", .int (toInt64 j.index)), ("attempts", .int (toInt64 j.attempts)),
    ("expires_ms", .int (toInt64 j.expiresMs)), ("type", .int j.type),
    ("payload", .bytes j.payload)]

def keyed (key : String) (value : Bytes) : Bytes := le 4 (utf8 key).length ++ (utf8 key ++ value)

/-- The bytes inside that object. -/
def jobContent (j : SukkalMsg.Job) : Bytes :=
  keyed "index" (TYPE.INT :: le 8 (ofDouble (toInt64 j.index))) ++
    (keyed "attempts" (TYPE.INT :: le 8 (ofDouble (toInt64 j.attempts))) ++
      (keyed "expires_ms" (TYPE.INT :: le 8 (ofDouble (toInt64 j.expiresMs))) ++
        (keyed "type" (TYPE.INT :: le 8 (ofDouble j.type)) ++
          keyed "payload" (TYPE.BINARY :: (le 4 j.payload.length ++ j.payload)))))

theorem put_jobRecord (n : ℕ) (content out : Bytes) :
    (jobRecord j).foldl Builder.put ⟨[⟨TYPE.ARRAY, n, content⟩], out⟩ =
      ⟨[⟨TYPE.ARRAY, n + 1, content ++ boxed TYPE.OBJECT 5 (jobContent j)⟩], out⟩ := by
  have hkeys : ascii "index" = utf8 "index" ∧ ascii "attempts" = utf8 "attempts" ∧
      ascii "expires_ms" = utf8 "expires_ms" ∧ ascii "type" = utf8 "type" ∧
      ascii "payload" = utf8 "payload" := by decide +kernel
  simp only [jobRecord, putInt, hkeys, List.foldl_cons, List.foldl_nil, Builder.put, Builder.key,
    Builder.value, Builder.close, boxed, jobContent, keyed]
  simp [List.append_assoc, Nat.add_comm]

theorem put_takeRecord (n : ℕ) (content out : Bytes) :
    (jobs.flatMap jobRecord).foldl Builder.put ⟨[⟨TYPE.ARRAY, n, content⟩], out⟩ =
      ⟨[⟨TYPE.ARRAY, n + jobs.length,
        content ++ (jobs.map fun j => boxed TYPE.OBJECT 5 (jobContent j)).flatten⟩], out⟩ := by
  induction jobs generalizing n content with
  | nil => simp
  | cons j jobs ih =>
    rw [List.flatMap_cons, List.foldl_append, put_jobRecord, ih]
    simp [List.append_assoc, Nat.add_assoc, Nat.add_comm 1]

theorem encode_takeRecord :
    Binjson.encode (takeRecord jobs) = boxed TYPE.ARRAY jobs.length
      (jobs.map fun j => boxed TYPE.OBJECT 5 (jobContent j)).flatten := by
  simp only [Binjson.encode, takeRecord, List.cons_append, List.foldl_cons, List.foldl_append,
    List.foldl_nil, Builder.put]
  rw [put_takeRecord]
  simp [Builder.close, Builder.value, boxed, Nat.add_comm]

/-- The integers of a job are exact in a double. -/
def SafeJob (j : SukkalMsg.Job) : Prop :=
  (toInt64 j.index).natAbs ≤ MAX_SAFE_INT ∧ (toInt64 j.attempts).natAbs ≤ MAX_SAFE_INT ∧
    (toInt64 j.expiresMs).natAbs ≤ MAX_SAFE_INT ∧ j.type.natAbs ≤ MAX_SAFE_INT

theorem safe_of_readable (hr : Readable (takeRecord jobs)) (hj : j ∈ jobs) : SafeJob j := by
  have hitem : ∀ it ∈ jobRecord j, it.Safe := fun it hit =>
    hr it (List.mem_append_left _ (List.mem_cons_of_mem _ (List.mem_flatMap.mpr ⟨j, hj, hit⟩)))
  exact ⟨hitem (putInt j.index) (by simp [jobRecord]),
    hitem (putInt j.attempts) (by simp [jobRecord]),
    hitem (putInt j.expiresMs) (by simp [jobRecord]),
    hitem (.int j.type) (by simp [jobRecord])⟩

theorem SafeJob.built (h : SafeJob j) : Built P (.dict (jobEntry j)) := by
  refine .dict (by simp [jobEntry]) fun item hi => ?_
  simp only [jobEntry, List.mem_cons, List.not_mem_nil, or_false] at hi
  rcases hi with rfl | rfl | rfl | rfl | rfl
  · exact .int h.1
  · exact .int h.2.1
  · exact .int h.2.2.1
  · exact .int h.2.2.2
  · exact .bytes _

theorem plain_jobEntry : Plain (PyValue.dict (D := D) (jobEntry j)) := by
  refine .dict fun item hi => ?_
  simp only [jobEntry, List.mem_cons, List.not_mem_nil, or_false] at hi
  rcases hi with rfl | rfl | rfl | rfl | rfl
  · exact .int _
  · exact .int _
  · exact .int _
  · exact .int _
  · exact .bytes _

theorem SafeJob.encodes (h : SafeJob j) (hlen : 4 + (jobContent j).length < 2 ^ 32) :
    encodeInto P (.dict (jobEntry j)) = .ok (boxed TYPE.OBJECT 5 (jobContent j)) := by
  have hkeys : (utf8 "index").length < 2 ^ 32 ∧ (utf8 "attempts").length < 2 ^ 32 ∧
      (utf8 "expires_ms").length < 2 ^ 32 ∧ (utf8 "type").length < 2 ^ 32 ∧
      (utf8 "payload").length < 2 ^ 32 := by decide +kernel
  have hpayload : j.payload.length < 2 ^ 32 := by
    simp only [jobContent, keyed, List.length_append, List.length_cons] at hlen
    omega
  have hpairs : encodePairs P (jobEntry j) = .ok (jobContent j) := by
    simp only [jobEntry, encodePairs, encodeInto, packU32, hkeys, if_true, h.1, h.2.1, h.2.2.1,
      h.2.2.2, packI64_ok, encodeRaw_ok hpayload, Except.map, bind, Except.bind, pure, Except.pure,
      jobContent, keyed]
    simp [List.append_assoc]
  have hcount : (jobEntry (D := D) j).length = 5 := rfl
  rw [encodeInto, hpairs, hcount]
  exact encodeContainer_ok (by omega) hlen

theorem decode_takeRecord (hr : Readable (takeRecord jobs))
    (hfit : (Binjson.encode (takeRecord jobs)).length < 2 ^ 32 + 5) :
    decode P (Binjson.encode (takeRecord jobs)) =
      .ok (.list (jobs.map fun j => .dict (jobEntry j))) := by
  rw [encode_takeRecord, length_boxed] at hfit
  have hitems : encodeItems P (jobs.map fun j => .dict (jobEntry j)) =
      .ok (jobs.map fun j => boxed TYPE.OBJECT 5 (jobContent j)).flatten := by
    have hsafe : ∀ j ∈ jobs, SafeJob j := fun j => safe_of_readable hr
    clear hr
    induction jobs with
    | nil => rfl
    | cons j jobs ih =>
      simp only [List.map_cons, List.flatten_cons, List.length_append, length_boxed] at hfit
      have hj := (hsafe j List.mem_cons_self).encodes (P := P) (by omega)
      have hrest := ih (by omega) fun i hi => hsafe i (List.mem_cons_of_mem _ hi)
      simp only [List.map_cons, encodeItems, hj, hrest, bind, Except.bind, pure, Except.pure,
        List.flatten_cons]
  have hlength : jobs.length ≤
      (jobs.map fun j => boxed TYPE.OBJECT 5 (jobContent j)).flatten.length := by
    clear hr hfit hitems
    induction jobs with
    | nil => simp
    | cons j jobs ih =>
      simp only [List.map_cons, List.flatten_cons, List.length_append, length_boxed,
        List.length_cons]
      omega
  have hbuilt : Built P (.list (jobs.map fun j => .dict (jobEntry j))) := by
    refine .list fun item hi => ?_
    obtain ⟨j, hj, rfl⟩ := List.mem_map.mp hi
    exact (safe_of_readable hr hj).built
  have hplain : Plain (PyValue.list (jobs.map fun j => PyValue.dict (D := D) (jobEntry j))) := by
    refine .list fun item hi => ?_
    obtain ⟨j, -, rfl⟩ := List.mem_map.mp hi
    exact plain_jobEntry
  have hencoded : encodeInto P (.list (jobs.map fun j => .dict (jobEntry j))) =
      .ok (Binjson.encode (takeRecord jobs)) := by
    rw [encode_takeRecord, encodeInto, hitems, List.length_map]
    exact encodeContainer_ok (by omega) (by omega)
  exact (hbuilt.faithful hencoded).same hplain

/-- The job carries this message, and its expiry is one Python has an instant for. -/
structure Leased (P : PyRuntime D) (j : SukkalMsg.Job) (s : Sent D) : Prop where
  type : j.type = s.type
  payload : j.payload = s.raw
  expires : toInt64 j.expiresMs ≠ 0 → (P.fromtimestamp (toInt64 j.expiresMs)).isSome = true

def leasedDelivery (P : PyRuntime D) (info : DeliveryInfo) (j : SukkalMsg.Job) (s : Sent D) :
    Delivery D :=
  .job ⟨⟨toInt64 j.index, reread P s.value, s.headersBack P, s.raw, info.subject, 0, s.type⟩,
    toInt64 j.attempts,
    if toInt64 j.expiresMs = 0 then none else P.fromtimestamp (toInt64 j.expiresMs), info.group⟩

theorem parseEntry_leased (hm : s.Made P) (hl : Leased P j s) :
    parseEntry P C info true (.dict (jobEntry j)) = .ok (leasedDelivery P info j s) := by
  have hunwrap : unwrap P (jobEntry j) = .ok (s.headersBack P, reread P s.value) :=
    unwrap_sent hm (by rw [← hl.payload]; rfl) (by rw [← hl.type]; rfl)
  have hexpiry : expiry P C (some (.int (toInt64 j.expiresMs))) =
      .ok (if toInt64 j.expiresMs = 0 then none else P.fromtimestamp (toInt64 j.expiresMs)) := by
    by_cases hzero : toInt64 j.expiresMs = 0
    · simp [expiry, falsy, hzero]
    · obtain ⟨when, hwhen⟩ := Option.isSome_iff_exists.mp (hl.expires hzero)
      simp [expiry, falsy, hzero, hwhen]
  have hlookup : (jobEntry (D := D) j).lookup "expires_ms" = some (.int (toInt64 j.expiresMs)) :=
    rfl
  simp only [parseEntry, hunwrap, hlookup, hexpiry, if_true, leasedDelivery, ← hl.type,
    ← hl.payload]
  rfl

end

/-- Values and headers survive: a message the client could encode passes the checks of a publish,
as long as the count of its values lasts, and is stored under the type of its headers, and a
batch or a take that carries it is parsed as what was sent, tuples as lists and instants as
their milliseconds. -/
theorem messages_survive (P : PyRuntime D) (C : PyConversions D) (V : Vendor)
    (hsize : SizedByRule V) :
    (∀ s : Sent D, s.Made P → s.Walked V → ∀ subject req, bjmSubjectValid subject = true →
      Publishes subject s req →
        (s.Lasts →
          publication V req = (requestId req).map fun id => ⟨subject, ⟨s.type, s.raw⟩, id⟩) ∧
        ∀ (st : Store) (now : ℕ),
          ((st.hPublish V now req).2.logs = st.logs ∨ (st.hPublish V now req).2.logs =
            st.logs.insert subject ((st.logOf subject).append ⟨s.type, s.raw⟩)) ∧
          (s.Lasts → req.query (ascii "id") = none → req.query (ascii "ack_index") = none →
            (st.hPublish V now req).1.status = 200 ∧ (st.hPublish V now req).2.logs =
              st.logs.insert subject ((st.logOf subject).append ⟨s.type, s.raw⟩))) ∧
    (∀ (ks : List (Kept D)) (body : Bytes) (info : DeliveryInfo), (∀ k ∈ ks, k.sent.Made P) →
      decode P body = .ok (.list (ks.map fun k => .dict k.entry)) →
        parseDelivery P C body info false = .ok (ks.map (Kept.delivered P info))) ∧
    (∀ (rows : List (SukkalMsg.Job × Sent D)) (info : DeliveryInfo),
      (∀ r ∈ rows, r.2.Made P ∧ Leased P r.1 r.2) →
      Binjson.Readable (takeRecord (rows.map Prod.fst)) →
      (Binjson.encode (takeRecord (rows.map Prod.fst))).length < 2 ^ 32 + 5 →
        parseDelivery P C (Binjson.encode (takeRecord (rows.map Prod.fst))) info true =
          .ok (rows.map fun r => leasedDelivery P info r.1 r.2)) ∧
    ∀ v : PyValue D, Plain v → reread P v = v := by
  refine ⟨fun s hm hw subject req hs hr => ?_,
    fun ks body info hm hbody => parseDelivery_kept hm hbody, fun rows info hrows hr hfit => ?_,
    fun v hv => hv.reread_eq⟩
  · exact ⟨(publication_sent hsize hm hw hs hr).1, fun st now =>
      stored_sent hsize hm hw hs hr st now⟩
  simp only [parseDelivery, decode_takeRecord hr hfit, List.mapM_map]
  exact mapM_ok fun r hrow => parseEntry_leased (hrows r hrow).1 (hrows r hrow).2

def plainConversions : PyConversions Empty := ⟨fun _ => none, fun _ => none⟩

/-- Sizes by the rule, and walks what decodes. -/
def walkingVendor : Vendor :=
  { sizedVendor with callbacks := fun b => (decode plainRuntime b).toOption.map walk }

/-- `[{"n": 7}, None]`: as a message, or as the envelope of `None`. -/
def twoFacedBody : Bytes :=
  [0x10, 28, 0, 0, 0, 2, 0, 0, 0, 0x11, 18, 0, 0, 0, 1, 0, 0, 0, 1, 0, 0, 0, 110, 0x03, 7, 0, 0, 0,
    0, 0, 0, 0, 0x00]

def lookalike : Sent Empty :=
  ⟨.list [.dict [("n", .int 7)], .none], none, twoFacedBody, false⟩

def withHeaders : Sent Empty := ⟨.none, some [("n", .int 7)], twoFacedBody, true⟩

def publishOf (s : Sent Empty) : Request where
  path := ascii "/pub/orders"
  contentType := some SUKKAL_MEDIA_TYPE
  body := some s.raw
  query := fun key => if key = ascii "headers" then if s.flagged then some (ascii "1") else none
    else none

def ordersInfo : DeliveryInfo := ⟨"orders", "c", "", 2, 1, 2, 0⟩

theorem headers_built : Built plainRuntime (.dict [("n", .int 7)]) := by
  refine .dict (by decide) fun item hi => ?_
  rw [List.mem_singleton] at hi
  subst hi
  exact .int (by decide)

theorem lookalike_made : lookalike.Made plainRuntime where
  value := by
    refine .list fun item hi => ?_
    simp only [List.mem_cons, List.not_mem_nil, or_false] at hi
    rcases hi with rfl | rfl
    · exact headers_built
    · exact .none
  headers := fun _ h => by simp [lookalike] at h
  encoded := by rfl

theorem withHeaders_made : withHeaders.Made plainRuntime where
  value := .none
  headers := fun h hh => by
    obtain rfl := Option.some.inj hh
    exact headers_built
  encoded := by rfl

theorem withHeaders_walked : withHeaders.Walked walkingVendor := fun h hh => by
  obtain rfl := Option.some.inj hh
  rfl

/-- What `elog_get_batch` writes of one entry. -/
def entryRecord (index type : ℤ) (payload : Bytes) : Binjson.Record :=
  [.beginObject, .key (ascii "index"), .int index, .key (ascii "term"), .int 1,
    .key (ascii "type"), .int type, .key (ascii "payload"), .binary payload, .endObject]

def twoFacedBatch : Bytes :=
  Binjson.encode ([.beginArray] ++ entryRecord 1 ENTRY_PLAIN twoFacedBody ++
    entryRecord 2 ENTRY_ENVELOPE twoFacedBody ++ [.endArray])

set_option maxRecDepth 4000 in
theorem twoFacedBatch_decodes : decode plainRuntime twoFacedBatch = .ok
    (.list [.dict (Kept.entry ⟨1, 1, lookalike⟩), .dict (Kept.entry ⟨2, 1, withHeaders⟩)]) := by
  rfl

theorem withHeaders_lasts : withHeaders.Lasts := fun h hh => by
  obtain rfl := Option.some.inj hh
  exact countLasts_of_le (by decide)

/-- The same bytes twice: each is published under its type and parsed as what it was, from a
batch and from a take. -/
theorem twoFaced_survives :
    publication walkingVendor (publishOf lookalike) =
      .ok ⟨ascii "orders", ⟨ENTRY_PLAIN, twoFacedBody⟩, none⟩ ∧
    publication walkingVendor (publishOf withHeaders) =
      .ok ⟨ascii "orders", ⟨ENTRY_ENVELOPE, twoFacedBody⟩, none⟩ ∧
    parseDelivery plainRuntime plainConversions twoFacedBatch ordersInfo false = .ok
        [.message ⟨1, .list [.dict [("n", .int 7)], .none], .none, twoFacedBody, "orders", 0, 1⟩,
          .message ⟨2, .none, .dict [("n", .int 7)], twoFacedBody, "orders", 0, 16⟩] ∧
    parseDelivery plainRuntime plainConversions
        (Binjson.encode (takeRecord [⟨2, 1, 0, 16, twoFacedBody⟩])) ordersInfo true =
      .ok [.job ⟨⟨2, .none, .dict [("n", .int 7)], twoFacedBody, "orders", 0, 16⟩, 1, none, ""⟩] := by
  obtain ⟨hpub, hbatch, htake, -⟩ :=
    messages_survive plainRuntime plainConversions walkingVendor fun _ => rfl
  refine ⟨?_, ?_, ?_, ?_⟩
  · exact (hpub lookalike lookalike_made (fun h hh => by simp [lookalike] at hh) (ascii "orders")
      (publishOf lookalike) (by decide) ⟨rfl, rfl, rfl, rfl⟩).1 fun h hh => by
        simp [lookalike] at hh
  · exact (hpub withHeaders withHeaders_made withHeaders_walked (ascii "orders")
      (publishOf withHeaders) (by decide) ⟨rfl, rfl, rfl, rfl⟩).1 withHeaders_lasts
  · refine hbatch [⟨1, 1, lookalike⟩, ⟨2, 1, withHeaders⟩] twoFacedBatch ordersInfo
      (fun k hk => ?_) twoFacedBatch_decodes
    simp only [List.mem_cons, List.not_mem_nil, or_false] at hk
    rcases hk with rfl | rfl
    · exact lookalike_made
    · exact withHeaders_made
  · refine htake [(⟨2, 1, 0, 16, twoFacedBody⟩, withHeaders)] ordersInfo (fun r hr => ?_)
      (by decide +kernel) (by decide +kernel)
    rw [List.mem_singleton] at hr
    subst hr
    exact ⟨withHeaders_made, ⟨rfl, rfl, fun h => absurd rfl h⟩⟩

/-- The body of `(None,)`. -/
def tupleBody : Bytes := [0x10, 5, 0, 0, 0, 1, 0, 0, 0, 0x00]

/-- A tuple is published, and arrives as a list. -/
theorem tuple_arrives_as_list :
    encodeMessage plainRuntime (.tuple [.none]) none = .ok (tupleBody, false) ∧
    publication walkingVendor (publishOf ⟨.tuple [.none], none, tupleBody, false⟩) =
      .ok ⟨ascii "orders", ⟨ENTRY_PLAIN, tupleBody⟩, none⟩ ∧
    parseDelivery plainRuntime plainConversions
        (Binjson.encode (takeRecord [⟨1, 1, 0, ENTRY_PLAIN, tupleBody⟩])) ordersInfo true =
      .ok [.job ⟨⟨1, .list [.none], .none, tupleBody, "orders", 0, 1⟩, 1, none, ""⟩] ∧
    (PyValue.list [.none] : PyValue Empty) ≠ .tuple [.none] :=
  ⟨by rfl, by rfl, by rfl, nofun⟩

end SukkalMsg.PyProtocol
