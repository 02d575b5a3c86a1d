import SukkalMsg.PipelineRuns
import SukkalMsg.SubscriptionStarts

/-!
# What a stage's publish does

The publish of an output is refused and changes nothing, or it is answered with the index
of the output's message, adds that message unless its id is known, and moves the stage's
receipt to the input. Other publishes let the logs grow and leave the receipt alone.
-/

namespace SukkalMsg

open Std Names Binjson OrderedScan Store ActionRuns

variable {V : Vendor} {S : Stage} {bound : ℕ}

/-! ### The logs -/

/-- Logs only grow. -/
structure LogsGrow (st st' : Store) : Prop where
  base : ∀ s, (st'.logOf s).base = (st.logOf s).base
  entries : ∀ s, (st.logOf s).entries <+: (st'.logOf s).entries

namespace LogsGrow

variable {st st' st'' : Store}

theorem of_eq (h : st'.logs = st.logs) : LogsGrow st st' := by
  have hlog : ∀ s, st'.logOf s = st.logOf s := fun s => by simp only [logOf, h]
  exact ⟨fun s => by rw [hlog], fun s => hlog s ▸ List.prefix_rfl⟩

theorem trans (h : LogsGrow st st') (h' : LogsGrow st' st'') : LogsGrow st st'' :=
  ⟨fun s => (h'.base s).trans (h.base s), fun s => (h.entries s).trans (h'.entries s)⟩

theorem get (h : LogsGrow st st') {s : Bytes} {n : ℕ} {e : Entry}
    (hn : (st.logOf s).get n = some e) : (st'.logOf s).get n = some e :=
  Elog.get_of_grown (h.base s) (h.entries s) hn

theorem insert {s : Bytes} {e : Entry}
    (h : st'.logs = st.logs.insert s ((st.logOf s).append e)) : LogsGrow st st' := by
  have hlog : ∀ t, st'.logOf t = if s = t then (st.logOf s).append e else st.logOf t :=
    fun t => logOf_insert h
  refine ⟨fun t => ?_, fun t => ?_⟩
  · rw [hlog]
    split
    · rename_i heq
      rw [heq]
      rfl
    · rfl
  · rw [hlog]
    split
    · rename_i heq
      rw [heq]
      exact List.prefix_append _ _
    · exact List.prefix_rfl

theorem hPublish (V : Vendor) (st : Store) (now : ℕ) (req : Request) :
    LogsGrow st (st.hPublish V now req).2 := by
  rcases hPublish_logs V st now req with h | ⟨p, -, h⟩
  · exact of_eq h
  · exact insert h

end LogsGrow

theorem Exchange.Appended.get {x : Exchange} {s : Bytes} {n : ℕ} (h : x.Appended s n) :
    ∃ e, (x.after.logOf s).get n = some e := by
  obtain ⟨rfl, e, he⟩ := h
  exact ⟨e, by rw [he, Elog.get_append_self]⟩

/-! ### The receipt -/

/-- The stage's receipt can be read. -/
def Stage.Known (S : Stage) (st : Store) : Prop :=
  ∃ found, st.bjmCursorGet S.subject S.consumer = .ok found

theorem Stage.Known.congr {st st' : Store} (h : S.Known st)
    (hc : st'.cursors[pairKey S.subject S.consumer]? = st.cursors[pairKey S.subject S.consumer]?) :
    S.Known st' := by
  rw [Stage.Known, bjmCursorGet_congr hc]
  exact h

theorem publishAck_others {st : Store} {req : Request} {s c : Bytes} (hs : slash ∉ s)
    (h : ackTarget req ≠ some (s, c)) :
    (st.publishAck req).2.cursors[pairKey s c]? = st.cursors[pairKey s c]? := by
  simp only [publishAck]
  split
  · rfl
  split
  · rename_i subject consumer hsubject hconsumer
    split
    · rfl
    rename_i hvalid
    split
    · rfl
    rename_i st' hset
    have hboth : bjmSubjectValid subject = true ∧ bjmConsumerValid consumer = true := by
      simpa using hvalid
    rcases bjmCursorSet_eq hset with ⟨rfl, -⟩ | ⟨rfl, -⟩
    · rfl
    · dsimp only
      rw [getElem?_insert, if_neg]
      intro hkey
      obtain ⟨rfl, rfl⟩ := pairKey_injective (slash_notMem_of_nameValid hboth.1) hs hkey
      refine h ?_
      simp only [ackTarget, hsubject, hconsumer, hboth.1, hboth.2, Bool.and_self, if_true]
  · rfl

theorem hPublish_others {st : Store} {now : ℕ} {req : Request} {s c : Bytes} (hs : slash ∉ s)
    (h : ackTarget req ≠ some (s, c)) :
    (st.hPublish V now req).2.cursors[pairKey s c]? = st.cursors[pairKey s c]? := by
  cases hp : publication V req with
  | error a => simp only [Store.hPublish, hp]
  | ok p =>
    have honce := publishOnce_cursors st now p
    rw [hPublish_store hp]
    generalize st.publishOnce now p = o at honce
    obtain ⟨r, st₁⟩ := o
    cases r with
    | error a => rw [honce]
    | ok r => rw [publishAck_others hs h, honce]

theorem Stage.Known.cursorSet {st st' : Store} {n : ℕ} (hn : n < 2 ^ 53) (h : S.Known st)
    (hset : st.bjmCursorSet S.subject S.consumer n = .ok st') : S.Known st' := by
  rcases bjmCursorSet_eq hset with ⟨rfl, -⟩ | ⟨rfl, -⟩
  · exact h
  · obtain ⟨found, hfound⟩ := h
    simp only [bjmCursorGet] at hfound
    split at hfound
    · contradiction
    · rename_i key hkey
      obtain rfl := boundedKey_eq hkey
      refine ⟨some n, ?_⟩
      simp only [bjmCursorGet, hkey, ExtTreeMap.getElem?_insert_self, Except.map,
        decodeIndex_indexRecord hn]

/-! ### The request of an output -/

namespace Stage

theorem key_valid (hs : bjmSubjectValid S.subject = true) (hc : bjmConsumerValid S.consumer = true)
    {i : ℕ} (hi : 0 < i) : bjmDedupIdValid (S.key i) = true := by
  let x : StageInput := ⟨S.consumer, S.subject, i, hc, hs, hi⟩
  have hcut : S.key i = x.text.take BJM_DEDUP_ID_MAX := rfl
  rw [hcut]
  refine idValid_of_chars ?_ ?_ fun c h => x.chars_text c (List.mem_of_mem_take h)
  · intro hnil
    rcases List.take_eq_nil_iff.mp hnil with hzero | hempty
    · exact absurd hzero (by decide)
    · exact x.text_ne_nil hempty
  · exact List.length_take_le _ _

theorem requestId_request (hs : bjmSubjectValid S.subject = true)
    (hc : bjmConsumerValid S.consumer = true) {i : ℕ} (hi : 0 < i) (out : Bytes) :
    requestId (S.request i out) = .ok (some (S.key i)) :=
  usedAsId_iff.mpr (key_valid hs hc hi) _ rfl

/-- The publish of an output is published to the output under the input's key, or not at
all. -/
theorem publication_request (hs : bjmSubjectValid S.subject = true)
    (hc : bjmConsumerValid S.consumer = true) {i : ℕ} (hi : 0 < i) {out : Bytes} {p : Publication}
    (hp : publication V (S.request i out) = .ok p) :
    p.subject = S.outSubject ∧ p.id = some (S.key i) := by
  obtain ⟨hsubject, hid⟩ := publication_parts hp
  rw [requestId_request hs hc hi] at hid
  exact ⟨hsubject, (Except.ok.inj hid).symm⟩

theorem queryGet_request {v : Bytes} {max : ℕ} (hv : nameValid v max = true) {key : Bytes}
    {i : ℕ} {out : Bytes} (h : (S.request i out).query key = some v) :
    (S.request i out).queryGet key (max + 1) = .value v := by
  have hlen : ¬ v.length + 1 > max + 1 := by
    have := nameValid_length hv
    omega
  rw [Request.queryGet, h]
  dsimp only
  rw [if_neg hlen, cString_of_nameValid hv]

/-- Its acknowledgement moves the stage's receipt to the input. -/
theorem publishAck_request (hs : bjmSubjectValid S.subject = true)
    (hc : bjmConsumerValid S.consumer = true) {i : ℕ} (hi : 0 < i) (hlt : i < 2 ^ 53)
    (out : Bytes) {st : Store} (h : S.Known st) :
    ∃ st', st.bjmCursorSet S.subject S.consumer i = .ok st' ∧
      st.publishAck (S.request i out) = (.ok (some i), st') := by
  obtain ⟨found, hfound⟩ := h
  obtain ⟨st', hset⟩ := cursorSet_of_get i hfound
  have hindex : (S.request i out).queryU64 (ascii "ack_index") 0 = i := by
    have hlen : ¬ (decimalText i).length + 1 > 32 := by
      have := length_decimalText (n := i) (k := 16) (by decide) (Nat.lt_trans hlt (by decide))
      omega
    have hzero : cString (decimalText i) = decimalText i := by
      refine takeWhile_of_notMem fun hmem => ?_
      exact absurd (isDigit_of_mem_decimalText hmem) (by decide)
    have hread : strtoull (decimalText i ++ []) = (i, []) :=
      strtoull_decimalText (Nat.lt_trans hlt (by decide)) (by simp)
    rw [List.append_nil] at hread
    have hget : (S.request i out).queryGet (ascii "ack_index") 32 = .value (decimalText i) := by
      have hquery : (S.request i out).query (ascii "ack_index") = some (decimalText i) := rfl
      rw [Request.queryGet, hquery]
      dsimp only
      rw [if_neg hlen, hzero]
    simp only [Request.queryU64, hget, hread]
    rw [if_neg]
    rintro (hempty | hrest)
    · exact decimalText_ne_nil i hempty.symm
    · exact hrest rfl
  have hsubject : (S.request i out).queryGet (ascii "ack_subject") (BJM_SUBJECT_MAX + 1) =
      .value S.subject := queryGet_request hs rfl
  have hconsumer : (S.request i out).queryGet (ascii "ack_consumer") (BJM_CONSUMER_MAX + 1) =
      .value S.consumer := queryGet_request hc rfl
  refine ⟨st', hset, ?_⟩
  simp only [publishAck, hindex, hsubject, hconsumer, hs, hc, hset, Nat.ne_of_gt hi, if_false,
    Bool.not_true, Bool.or_self, Bool.false_eq_true]

end Stage

/-- A publish that does not pass its checks is no success. -/
theorem publication_status {req : Request} {a : Answer} (h : publication V req = .error a) :
    a.status ≠ 200 := by
  simp only [publication] at h
  split at h
  · rename_i hs
    simp only [subjectOf] at hs
    split at hs
    · contradiction
    · obtain rfl := (Except.error.inj hs).trans (Except.error.inj h)
      decide
  split at h
  · obtain rfl := Except.error.inj h
    decide
  split at h
  · obtain rfl := Except.error.inj h
    decide
  · obtain rfl := Except.error.inj h
    decide
  split at h
  · obtain rfl := Except.error.inj h
    decide
  split at h
  · rename_i ht
    simp only [entryType] at ht
    split at ht
    · contradiction
    split at ht
    · contradiction
    · obtain rfl := (Except.error.inj ht).trans (Except.error.inj h)
      decide
  split at h
  · rename_i hid
    simp only [requestId] at hid
    split at hid
    · split at hid
      · contradiction
      · obtain rfl := (Except.error.inj hid).trans (Except.error.inj h)
        decide
    · contradiction
  · contradiction

/-- How the broker serves the publish of an output. -/
inductive OutputServed (V : Vendor) (S : Stage) (i : ℕ) (x : Exchange) : Prop where
  | refused (status : x.answer.status ≠ 200) (after : x.after = x.before)
  | answered (n : ℕ) (dup : Bool) (key : requestKey V x.req = some (S.outSubject, S.key i))
    (answer : x.answer = .published S.outSubject n (some i) (some dup))
    (found : dup = true → x.after.logs = x.before.logs)
    (added : dup = false → n = (x.before.logOf S.outSubject).last + 1 ∧ ∃ e, x.after.logs =
      x.before.logs.insert S.outSubject ((x.before.logOf S.outSubject).append e))
    (known : S.Known x.after)
    (receipt : x.after.receiptOf S.subject S.consumer =
      max (x.before.receiptOf S.subject S.consumer) i)

theorem publishOnce_known {st : Store} {now : ℕ} {p : Publication} {key : Bytes}
    (hs : bjmSubjectValid p.subject = true) (hid : p.id = some key) {found : Option ℕ}
    (hl : (st.bjmDedupLookup now p.subject key).1 = .ok found) :
    ∃ n st₁, st.publishOnce now p = (.ok (n, found.isSome), st₁) ∧ st₁.cursors = st.cursors ∧
      (found.isSome = true → st₁.logs = st.logs) ∧
      (found.isSome = false → n = (st.logOf p.subject).last + 1 ∧
        st₁.logs = st.logs.insert p.subject ((st.logOf p.subject).append p.entry)) := by
  have hcursors := publishOnce_cursors st now p
  have honly := bjmDedupLookup_dedupOnly st now p.subject key
  simp only [publishOnce, hid] at hcursors ⊢
  generalize st.bjmDedupLookup now p.subject key = l at hl honly hcursors ⊢
  obtain ⟨r, st₀⟩ := l
  dsimp only at hl honly
  subst hl
  cases found with
  | some n =>
    exact ⟨n, st₀, rfl, hcursors, fun _ => honly.logs_eq, fun h => absurd h (by simp)⟩
  | none =>
    have hlog : st₀.logOf p.subject = st.logOf p.subject := by simp only [logOf, honly.logs_eq]
    obtain ⟨st₁, -, hres, -⟩ := publishFresh_eq st₀ now hs
    have happ := publishFresh_appends st₀ now hs
    rw [hlog] at hres
    rw [hlog, honly.logs_eq] at happ
    exact ⟨_, _, Prod.ext hres rfl, hcursors, fun h => absurd h (by simp), fun _ => ⟨rfl, happ⟩⟩

/-- The publish of an output, served by a broker in good order. -/
theorem outputServed {w now i : ℕ} {h : List Exchange} {st : Store} {out : Bytes}
    (hS : S.Sound bound) (hi : PublishInv V w h st)
    (ho : (BrokerOp.request now (S.request i out)).InOrder V h st) (hknown : S.Known st)
    (hpos : 0 < i) (hle : i ≤ bound) :
    OutputServed V S i (served V st now (S.request i out)) := by
  obtain ⟨hnow, hlt, hclock, -⟩ := ho
  have hsmall : i < 2 ^ 53 := Nat.lt_of_le_of_lt hle hS.small
  cases hp : publication V (S.request i out) with
  | error a =>
    have hserve : st.hPublish V now (S.request i out) = (a, st) := by
      simp only [Store.hPublish, hp]
    refine .refused ?_ ?_
    · simp only [served, hserve]
      exact publication_status hp
    · simp only [served, hserve]
  | ok p =>
    obtain ⟨hsubject, hid⟩ := Stage.publication_request hS.subject hS.consumer hpos hp
    have hvalid := (publication_valid hp).1
    have hkey := Stage.key_valid hS.subject hS.consumer hpos
    obtain ⟨m, -, -, -, -, -, hlook⟩ := lookup_step hi hnow hlt hclock hvalid hkey
    obtain ⟨found, hfound⟩ : ∃ found, (st.bjmDedupLookup now p.subject (S.key i)).1 = .ok found := by
      rcases hlook with ⟨-, h⟩ | ⟨n, -, -, h⟩
      · exact ⟨none, h⟩
      · exact ⟨some n, h⟩
    obtain ⟨n, st₁, honce, hcursors, hold, hnew⟩ := publishOnce_known hvalid hid hfound
    obtain ⟨st₂, hset, hack⟩ := Stage.publishAck_request hS.subject hS.consumer hpos hsmall out
      (hknown.congr (by rw [hcursors]))
    have hserve : st.hPublish V now (S.request i out) =
        (.published p.subject n (some i) (some found.isSome), st₂) := by
      simp only [Store.hPublish, hp, honce, hack, hid, Option.map_some]
    obtain ⟨hreceipt, hlogs⟩ := receiptOf_cursorSet (Nat.lt_trans hsmall (by decide)) hset
    refine .answered n found.isSome ?_ ?_ ?_ ?_ ?_ ?_
    · simp only [served, requestKey, hp, hid, Option.map_some, hsubject]
    · simp only [served, hserve, hsubject]
    · simp only [served, hserve, hlogs]
      exact hold
    · simp only [served, hserve, hlogs]
      rw [← hsubject]
      exact fun h => ⟨(hnew h).1, p.entry, (hnew h).2⟩
    · simp only [served, hserve]
      exact (hknown.congr (by rw [hcursors])).cursorSet hsmall hset
    · simp only [served, hserve, hreceipt, receiptOf_congr hcursors]

end SukkalMsg
