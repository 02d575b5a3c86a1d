import SukkalMsg.ClientRetries
import SukkalMsg.PipelineKeys
import SukkalMsg.WorkerVerdicts

/-!
# Subscribers and how far they got

A subscriber is sent a batch of consecutive messages, handles them in order until one
fails, and answers with the index of the last one it has handled, 0 for none. The engine
moves the receipt there, or waits.
-/

namespace SukkalMsg

open Names Binjson Store

/-! ### A batch on the wire -/

/-- What `elog_get_batch` writes of one message. -/
def messageRecord (index : ℕ) (term : ℤ) (e : Entry) : Record :=
  [.beginObject,
    .key (ascii "index"), putInt index,
    .key (ascii "term"), .int term,
    .key (ascii "type"), .int e.type,
    .key (ascii "payload"), .binary e.payload,
    .endObject]

def messagesFrom (term : ℤ) : ℕ → List Entry → Record
  | _, [] => []
  | index, e :: es => messageRecord index term e ++ messagesFrom term (index + 1) es

def batchRecord (term : ℤ) (first : ℕ) (es : List Entry) : Record :=
  .beginArray :: messagesFrom term first es ++ [.endArray]

/-! ### The C subscriber -/

/-- `--exec` of a subscriber, if it has one: whether the command ends well on a message. -/
structure Receiver where
  token : Bytes
  exec : Option (ℤ → Bytes → Bool)

/-- `delivery`: a batch as far as a subscriber has got with it. -/
structure DeliveryScan where
  key : Bytes
  index : ℤ
  took : ℕ
  count : ℕ
  stopped : Bool

def DeliveryScan.blank : DeliveryScan := ⟨[], 0, 0, 0, false⟩

/-- `dv_key`, `dv_int` and `dv_binary`; what is printed is taken. -/
def dvVisit (R : Receiver) (d : DeliveryScan) : Item → DeliveryScan
  | .key k => { d with key := keyBuf 16 k }
  | .int v => if d.key = ascii "index" then { d with index := v } else d
  | .binary payload =>
    if d.key ≠ ascii "payload" then d
    else if d.stopped then d
    else if R.exec.elim true fun run => run d.index payload then
      { d with took := ofDouble d.index, count := d.count + 1 }
    else { d with stopped := true }
  | _ => d

def ackReply (took : ℕ) : HttpReply :=
  ⟨200, [(ascii "X-Sukkal-Ack", decimalText took), contentText], []⟩

def hDeliver (R : Receiver) (auth : Option Bytes) (body : Option Record) : HttpReply :=
  if !authorised R.token auth then textReply 401 "bad or missing bearer token\n"
  else match body with
    | none => textReply 400 "empty delivery\n"
    | some r => match bjDecode (dvVisit R) r .blank with
      | .error _ => textReply 400 "malformed delivery\n"
      | .ok d => ackReply d.took

/-! ### The C pipeline stage -/

/-- A stage: where it reads, where it publishes, and its command, which fails or leaves a text on
its standard output. -/
structure Stage where
  token : Bytes
  subject : Bytes
  consumer : Bytes
  outSubject : Bytes
  raw : Bool
  filter : ℤ → Bytes → Option Bytes
  retryMs : ℕ

def stripped (text : Bytes) : Bytes :=
  (text.reverse.dropWhile fun c => c = 0x0A ∨ c = 0x0D).reverse

/-- The publish of one output, which acknowledges the input. -/
def Stage.request (S : Stage) (index : ℕ) (out : Bytes) : Request where
  path := ascii "/pub/" ++ S.outSubject
  contentType := some SUKKAL_MEDIA_TYPE
  body := some (if S.raw then out else encode [.string (stripped out)])
  query := fun key =>
    if key = ascii "id" then some (pipeOneKey S.consumer S.subject index)
    else if key = ascii "ack_subject" then some S.subject
    else if key = ascii "ack_consumer" then some S.consumer
    else if key = ascii "ack_index" then some (decimalText index)
    else none

/-- `pipe_one`: whether the input may be considered handled, and what the broker is left with by
the attempts at its publish. -/
def pipeOne (V : Vendor) (S : Stage) (attempts : ℕ → List Attempt) (index : ℤ) (payload : Bytes)
    (st : Store) : Bool × Store :=
  match S.filter index payload with
  | none => (false, st)
  | some [] => (true, st)
  | some out =>
    let serve now (st : Store) :=
      ((st.hPublish V now (S.request index.toNat out)).1.status,
        (st.hPublish V now (S.request index.toNat out)).2)
    let performed := clientPerformEx S.retryMs true serve (attempts index.toNat) st
    (performed.1 = some 200, performed.2)

/-- `piper`, as far as a delivery has got, and the broker meanwhile. -/
structure PipeScan where
  key : Bytes
  index : ℤ
  took : ℕ
  stopped : Bool
  store : Store

/-- `pp_key`, `pp_int` and `pp_binary`. -/
def ppVisit (V : Vendor) (S : Stage) (attempts : ℕ → List Attempt) (pp : PipeScan) :
    Item → PipeScan
  | .key k => { pp with key := keyBuf 16 k }
  | .int v => if pp.key = ascii "index" then { pp with index := v } else pp
  | .binary payload =>
    if pp.stopped ∨ pp.key ≠ ascii "payload" then pp
    else
      let one := pipeOne V S attempts pp.index payload pp.store
      if one.1 then { pp with took := ofDouble pp.index, store := one.2 }
      else { pp with stopped := true, store := one.2 }
  | _ => pp

/-- The answer, and the broker's store by then: all that is decoded is visited, and the index a
stage holds is the last delivery's. -/
def hPipe (V : Vendor) (S : Stage) (attempts : ℕ → List Attempt) (held : ℤ) (st : Store)
    (auth : Option Bytes) (body : Option Record) : HttpReply × Store :=
  if !authorised S.token auth then (textReply 401 "bad or missing bearer token\n", st)
  else match body with
    | none => (textReply 400 "empty delivery\n", st)
    | some r =>
      let pp := (r.takeWhile fun it => decide it.Safe).foldl (ppVisit V S attempts)
        ⟨[], held, 0, false, st⟩
      (if Readable r then ackReply pp.took else textReply 400 "malformed delivery\n", pp.store)

/-! ### The Python subscriber -/

namespace PyProtocol

variable {D : Type}

def tookOf (handler : Delivery D → Bool) : ℤ → List (Delivery D) → ℤ
  | took, [] => took
  | took, msg :: msgs => if handler msg then tookOf handler msg.index msgs else took

/-- `Client._handle_messages`. -/
def handleMessages (P : PyBinjson.PyRuntime D) (C : PyConversions D) (body : Bytes)
    (info : DeliveryInfo) (handler : Delivery D → Bool) : HttpReply :=
  match parseDelivery P C body info false with
  | .error _ => textReply 400 "malformed delivery\n"
  | .ok messages =>
    ⟨200, [contentText, (ascii "X-Sukkal-Ack", lldText (tookOf handler 0 messages))], []⟩

end PyProtocol

/-! ### What an answer says of a batch -/

def ackIndex (first handled : ℕ) : ℕ := if handled = 0 then 0 else first + handled - 1

/-- The answer says that so many messages of the batch were handled. -/
inductive Acks (first handled : ℕ) (h : HttpReply) : Prop where
  | taken (status : h.status = 200)
    (heard : ∀ s : Psub, ((h.headers.map headerLine).foldl Psub.onHdr s).ackHint =
      some (ackIndex first handled))
  | refused (nothing : handled = 0) (status : ¬ (200 ≤ h.status ∧ h.status < 300))

/-- How a subscription goes on when so many messages of its batch were handled. -/
structure Psub.Resumes (s : Psub) (b b' : App) (now handled : ℕ) : Prop where
  receipt : b'.store.receiptOf s.subject s.consumer =
    max (b.store.receiptOf s.subject s.consumer) (ackIndex s.first handled)
  logs : b'.store.logs = b.store.logs
  waits : handled = 0 → b'.store = b.store ∧ ∃ t ∈ b'.push.subs, t.id = s.id ∧ t.gone = false ∧
    t.inflight = false ∧ t.failures = s.failures + 1 ∧
    t.dueMs = u64 (now + min (doubled s.failures PUSH_BACKOFF_MS) PUSH_MAX_BACKOFF_MS)

theorem first_offerBatch {V : Vendor} {a a' : Scan} {i count : ℕ} {name : Bytes}
    (h : a.offerBatch V i name = (a', some count)) :
    a'.sub.first = max (a.store.receiptOf name a.sub.consumer) (a.store.logOf name).base + 1 := by
  simp only [Scan.offerBatch] at h
  split at h
  · simp at h
  · rename_i base last bytes hinfo
    obtain ⟨-, rfl, -⟩ := Scan.subjectInfo_eq hinfo
    split at h
    · simp at h
    rename_i found hget
    have hreceipt : a.store.receiptOf name a.sub.consumer = found.getD 0 := by
      cases found with
      | none => exact receiptOf_of_get_none hget
      | some n => exact receiptOf_of_get hget
    split at h
    · simp at h
    split at h
    · simp at h
    simp only [Scan.readBatch] at h
    split at h
    · simp at h
    split at h
    · simp at h
    obtain ⟨rfl, -⟩ := Prod.mk.inj h
    simp only [hreceipt]

theorem Psub.Resumes.next {s : Psub} {b b' : App} {now handled : ℕ}
    (h : s.Resumes b b' now handled) (hfirst : 0 < s.first)
    (hkept : s.first ≤ max (b.store.receiptOf s.subject s.consumer) (b.store.logOf s.subject).base + 1)
    {V : Vendor} {a a' : Scan} {i count : ℕ} (hstore : a.store = b'.store)
    (hconsumer : a.sub.consumer = s.consumer)
    (hnext : a.offerBatch V i s.subject = (a', some count)) :
    a'.sub.first = s.first + handled ↔
      b.store.receiptOf s.subject s.consumer < s.first + handled ∧
        (b.store.logOf s.subject).base < s.first + handled := by
  have hbase : (b'.store.logOf s.subject).base = (b.store.logOf s.subject).base := by
    simp only [logOf, h.logs]
  rw [first_offerBatch hnext, hstore, hconsumer, h.receipt, hbase, ackIndex]
  split <;> omega

theorem receiptOf_cursorSet {st st' : Store} {s c : Bytes} {n : ℕ} (hn : n < 2 ^ 64)
    (h : st.bjmCursorSet s c n = .ok st') :
    st'.receiptOf s c = max (st.receiptOf s c) n ∧ st'.logs = st.logs := by
  rcases bjmCursorSet_eq h with ⟨rfl, hle⟩ | ⟨rfl, hget⟩
  · exact ⟨(Nat.max_eq_left hle).symm, rfl⟩
  · refine ⟨?_, rfl⟩
    rw [receiptOf_insert hn, if_pos rfl]
    rcases hget with hnone | ⟨-, hlt⟩
    · rw [receiptOf_of_get_none hnone, Nat.zero_max]
    · exact (Nat.max_eq_right (Nat.le_of_lt hlt)).symm

theorem cursorSet_of_get {st : Store} {s c : Bytes} {found : Option ℕ} (n : ℕ)
    (h : st.bjmCursorGet s c = .ok found) : ∃ st', st.bjmCursorSet s c n = .ok st' := by
  cases hkey : cursorKey s c with
  | none => simp [bjmCursorGet, hkey] at h
  | some key =>
    simp only [bjmCursorSet, h, hkey]
    split <;> exact ⟨_, rfl⟩

theorem finishBatch_waits {st : Store} {t : Psub} {r : Reply} (now : ℕ)
    (h : r.ok = false ∨ ¬ t.first ≤ t.ackOf) :
    ∃ msg, t.finishBatch st r now = ⟨st, { t with lastError := msg }.backoff now, false⟩ := by
  cases hok : r.ok with
  | false =>
    refine ⟨if r.reached then t.httpError r.status else Psub.unreachable r.error, ?_⟩
    simp only [Psub.finishBatch, hok, Bool.not_false, if_true]
  | true =>
    have hlow : ¬ t.first ≤ t.ackOf := h.resolve_left (by simp [hok])
    refine ⟨cut 128 (ascii "accepted 0 of " ++
      decimalText (u64 (t.last - t.first + 1)) ++ ascii " message(s)"), ?_⟩
    simp only [Psub.finishBatch, hok, Bool.not_true, Bool.false_eq_true, if_false, hlow]

/-- An answer that acknowledges a batch settles it as it says. -/
theorem Acks.settles {b : App} {s : Psub} {handled : ℕ} {h : HttpReply} {r : Reply}
    (hids : (b.push.subs.map (·.id)).Nodup) (hs : s ∈ b.push.subs) (hlive : s.gone = false)
    (hplain : s.cfg.group = []) (hfirst : 0 < s.first) (hin : s.first + handled ≤ s.last + 1)
    (hlast : s.last < 2 ^ 64) {found : Option ℕ}
    (hget : b.store.bjmCursorGet s.subject s.consumer = .ok found) (hacks : Acks s.first handled h)
    (hr : Conveys h r) (clock now : ℕ) :
    s.Resumes b (b.delivered clock s.id r now) now handled := by
  obtain ⟨pre, suf, t, x, -, ht, hx, heq⟩ := delivered_settles hids hs hlive clock r now
  have hok : r.ok = decide (200 ≤ h.status ∧ h.status < 300) := by
    simp only [Reply.ok, hr.reached, hr.status, Bool.true_and, Bool.decide_and]
  have hsame : t.cfg = s.cfg ∧ t.subject = s.subject ∧ t.consumer = s.consumer ∧
      t.first = s.first ∧ t.last = s.last ∧ t.id = s.id ∧ t.gone = s.gone ∧ t.inflight = false ∧
      t.failures = s.failures := by
    rw [ht, Psub.hear_same s r]
    exact ⟨rfl, rfl, rfl, rfl, rfl, rfl, rfl, rfl, rfl⟩
  have hhint : t.ackHint = ((h.headers.map headerLine).foldl Psub.onHdr s).ackHint := by
    rw [ht]
    exact (Psub.hear_conveyed hr s).1
  obtain ⟨hcfg, hsubject, hconsumer, hfirst', hlast', hid, hgone, hidle, hfailures⟩ := hsame
  have hgroup : t.cfg.group = [] := by
    rw [hcfg]
    exact hplain
  have hsettle : x = t.finishBatch b.store r now := by
    rw [hx, Psub.settle, if_neg (fun hne => hne hgroup)]
  -- the batch is refused, or none of it was taken
  have hrefused : handled = 0 → (∃ msg, x = ⟨b.store, { t with lastError := msg }.backoff now, false⟩) →
      s.Resumes b (b.delivered clock s.id r now) now handled := by
    rintro rfl ⟨msg, hx'⟩
    have hstore : (b.delivered clock s.id r now).store = b.store := by rw [heq, hx']
    refine ⟨?_, by rw [hstore], fun _ => ⟨hstore, x.sub, ?_, ?_⟩⟩
    · rw [hstore]
      simp [ackIndex]
    · rw [heq]
      simp
    · rw [hx']
      exact ⟨hid, hgone.trans hlive, hidle, by rw [← hfailures]; rfl, by rw [← hfailures]; rfl⟩
  cases hacks with
  | refused hnone hbad =>
    have hnot : r.ok = false := hok.trans (decide_eq_false hbad)
    refine hrefused hnone ?_
    rw [hsettle]
    exact finishBatch_waits now (.inl hnot)
  | taken h200 hheard =>
    have hgood : r.ok = true := hok.trans (by rw [h200]; rfl)
    have hack : t.ackOf = min (ackIndex s.first handled) s.last := by
      simp only [Psub.ackOf, hhint, hheard s, hlast']
    by_cases hzero : handled = 0
    · refine hrefused hzero ?_
      rw [hsettle]
      refine finishBatch_waits now (.inr ?_)
      rw [hack, hfirst', hzero, ackIndex, if_pos rfl]
      omega
    · have hindex : t.ackOf = s.first + handled - 1 := by
        rw [hack, ackIndex, if_neg hzero]
        omega
      have hle : t.first ≤ t.ackOf := by omega
      obtain ⟨st', hset⟩ := cursorSet_of_get (s.first + handled - 1) hget
      have hstore : (b.delivered clock s.id r now).store = st' := by
        rw [heq, hsettle]
        dsimp only
        rw [Psub.finishBatch_store, if_pos ⟨hgood, hle⟩, hsubject, hconsumer, hindex, hset]
      obtain ⟨hreceipt, hlogs⟩ := receiptOf_cursorSet (by omega) hset
      refine ⟨?_, by rw [hstore, hlogs], fun h => absurd h hzero⟩
      rw [hstore, hreceipt, ackIndex, if_neg hzero]

/-! ### Handling messages in order -/

section

variable {ε τ σ : Type}

/-- Handle what is numbered from an index on until something fails: how much was handled, and the
state that is left. -/
def handleFrom (handle : ℕ → ε → τ → Bool × τ) : ℕ → List ε → τ → ℕ × τ
  | _, [], st => (0, st)
  | i, e :: es, st =>
    if (handle i e st).1 then
      ((handleFrom handle (i + 1) es (handle i e st).2).1 + 1,
        (handleFrom handle (i + 1) es (handle i e st).2).2)
    else (0, (handle i e st).2)

theorem handleFrom_le (handle : ℕ → ε → τ → Bool × τ) (i : ℕ) (es : List ε) (st : τ) :
    (handleFrom handle i es st).1 ≤ es.length := by
  induction es generalizing i st with
  | nil => exact Nat.le_refl 0
  | cons e es ih =>
    rw [handleFrom]
    split
    · exact Nat.succ_le_succ (ih _ _)
    · exact Nat.zero_le _

/-- A visitor that handles each message as its payload comes, and none once one has failed. -/
structure Handles (visit : σ → Item → σ) (handle : ℕ → Entry → τ → Bool × τ) (took : σ → ℕ)
    (stopped : σ → Bool) (state : σ → τ) : Prop where
  skipped : ∀ (i : ℕ) (term : ℤ) (e : Entry) (x : σ), stopped x = true →
    stopped ((messageRecord i term e).foldl visit x) = true ∧
      took ((messageRecord i term e).foldl visit x) = took x ∧
      state ((messageRecord i term e).foldl visit x) = state x
  done : ∀ (i : ℕ) (term : ℤ) (e : Entry) (x : σ), i < 2 ^ 64 → stopped x = false →
    (handle i e (state x)).1 = true →
    stopped ((messageRecord i term e).foldl visit x) = false ∧
      took ((messageRecord i term e).foldl visit x) = i ∧
      state ((messageRecord i term e).foldl visit x) = (handle i e (state x)).2
  failed : ∀ (i : ℕ) (term : ℤ) (e : Entry) (x : σ), stopped x = false →
    (handle i e (state x)).1 = false →
    stopped ((messageRecord i term e).foldl visit x) = true ∧
      took ((messageRecord i term e).foldl visit x) = took x ∧
      state ((messageRecord i term e).foldl visit x) = (handle i e (state x)).2

namespace Handles

variable {visit : σ → Item → σ} {handle : ℕ → Entry → τ → Bool × τ} {took : σ → ℕ}
  {stopped : σ → Bool} {state : σ → τ}

theorem run_over (h : Handles visit handle took stopped state) (term : ℤ) (i : ℕ)
    (es : List Entry) {x : σ} (hx : stopped x = true) :
    took ((messagesFrom term i es).foldl visit x) = took x ∧
      state ((messagesFrom term i es).foldl visit x) = state x := by
  induction es generalizing i x with
  | nil => exact ⟨rfl, rfl⟩
  | cons e es ih =>
    obtain ⟨hstop, htook, hstate⟩ := h.skipped i term e x hx
    rw [messagesFrom, List.foldl_append]
    obtain ⟨htook', hstate'⟩ := ih (i + 1) hstop
    exact ⟨htook'.trans htook, hstate'.trans hstate⟩

theorem run (h : Handles visit handle took stopped state) (term : ℤ) {i : ℕ} {es : List Entry}
    (hi : i + es.length ≤ 2 ^ 64) {x : σ} (hx : stopped x = false) :
    took ((messagesFrom term i es).foldl visit x) =
        (if (handleFrom handle i es (state x)).1 = 0 then took x
          else i + (handleFrom handle i es (state x)).1 - 1) ∧
      state ((messagesFrom term i es).foldl visit x) = (handleFrom handle i es (state x)).2 := by
  induction es generalizing i x with
  | nil => exact ⟨rfl, rfl⟩
  | cons e es ih =>
    rw [List.length_cons] at hi
    rw [messagesFrom, List.foldl_append, handleFrom]
    cases hok : (handle i e (state x)).1 with
    | true =>
      obtain ⟨hstop, htook, hstate⟩ := h.done i term e x (by omega) hx hok
      obtain ⟨htook', hstate'⟩ := ih (i := i + 1) (by omega) hstop
      rw [hstate] at htook' hstate'
      refine ⟨htook'.trans ?_, hstate'⟩
      simp only [if_true, htook, Nat.add_one_ne_zero, if_false]
      split <;> omega
    | false =>
      obtain ⟨hstop, htook, hstate⟩ := h.failed i term e x hx hok
      obtain ⟨htook', hstate'⟩ := h.run_over term (i + 1) es hstop
      exact ⟨htook'.trans htook, hstate'.trans hstate⟩

end Handles

end

/-! ### What the C receivers answer -/

theorem messageKeys :
    keyBuf 16 (ascii "index") = ascii "index" ∧ keyBuf 16 (ascii "term") = ascii "term" ∧
      keyBuf 16 (ascii "type") = ascii "type" ∧ keyBuf 16 (ascii "payload") = ascii "payload" ∧
      ascii "term" ≠ ascii "index" ∧ ascii "type" ≠ ascii "index" := by
  decide

/-- `--exec` on one message, or its printing. -/
def Receiver.handle (R : Receiver) (i : ℕ) (e : Entry) (_ : Unit) : Bool × Unit :=
  (R.exec.elim true fun run => run (toInt64 i) e.payload, ())

theorem foldl_dvVisit (R : Receiver) (i : ℕ) (term : ℤ) (e : Entry) (d : DeliveryScan) :
    (messageRecord i term e).foldl (dvVisit R) d =
      dvVisit R { d with key := ascii "payload", index := toInt64 i } (.binary e.payload) := by
  obtain ⟨hindex, hterm, htype, hpayload, hterm', htype'⟩ := messageKeys
  simp only [messageRecord, List.foldl_cons, List.foldl_nil, putInt]
  simp only [dvVisit, hindex, hterm, htype, hpayload, hterm', htype', if_true, if_false]

theorem dvVisit_handles (R : Receiver) :
    Handles (dvVisit R) R.handle DeliveryScan.took DeliveryScan.stopped fun _ => () where
  skipped i term e d hd := by
    rw [foldl_dvVisit]
    simp only [dvVisit, ne_eq, not_true_eq_false, if_false, hd, if_true]
    exact ⟨trivial, trivial, trivial⟩
  done i term e d hi hd hok := by
    rw [foldl_dvVisit]
    simp only [Receiver.handle] at hok
    simp only [dvVisit, ne_eq, not_true_eq_false, if_false, hd, Bool.false_eq_true, hok, if_true,
      ofDouble_toInt64 hi]
    exact ⟨trivial, trivial, trivial⟩
  failed i term e d hd hok := by
    rw [foldl_dvVisit]
    simp only [Receiver.handle] at hok
    simp only [dvVisit, ne_eq, not_true_eq_false, if_false, hd, Bool.false_eq_true, hok]
    exact ⟨trivial, trivial, trivial⟩

def Stage.handle (V : Vendor) (S : Stage) (attempts : ℕ → List Attempt) (i : ℕ) (e : Entry)
    (st : Store) : Bool × Store :=
  pipeOne V S attempts (toInt64 i) e.payload st

theorem foldl_ppVisit (V : Vendor) (S : Stage) (attempts : ℕ → List Attempt) (i : ℕ) (term : ℤ)
    (e : Entry) (pp : PipeScan) :
    (messageRecord i term e).foldl (ppVisit V S attempts) pp =
      ppVisit V S attempts { pp with key := ascii "payload", index := toInt64 i }
        (.binary e.payload) := by
  obtain ⟨hindex, hterm, htype, hpayload, hterm', htype'⟩ := messageKeys
  simp only [messageRecord, List.foldl_cons, List.foldl_nil, putInt]
  simp only [ppVisit, hindex, hterm, htype, hpayload, hterm', htype', if_true, if_false]

theorem ppVisit_handles (V : Vendor) (S : Stage) (attempts : ℕ → List Attempt) :
    Handles (ppVisit V S attempts) (S.handle V attempts) PipeScan.took PipeScan.stopped
      PipeScan.store where
  skipped i term e pp hpp := by
    rw [foldl_ppVisit]
    simp only [ppVisit, hpp, true_or, if_true]
    exact ⟨trivial, trivial, trivial⟩
  done i term e pp hi hpp hok := by
    rw [foldl_ppVisit]
    simp only [Stage.handle] at hok ⊢
    simp only [ppVisit, hpp, Bool.false_eq_true, ne_eq, not_true_eq_false, or_self, if_false, hok,
      if_true, ofDouble_toInt64 hi]
    exact ⟨trivial, trivial, trivial⟩
  failed i term e pp hpp hok := by
    rw [foldl_ppVisit]
    simp only [Stage.handle] at hok ⊢
    simp only [ppVisit, hpp, Bool.false_eq_true, ne_eq, not_true_eq_false, or_self, if_false, hok]
    exact ⟨trivial, trivial, trivial⟩

theorem acks_ackReply {first handled : ℕ} (h : first + handled ≤ 2 ^ 64) :
    Acks first handled (ackReply (ackIndex first handled)) := by
  have hlt : ackIndex first handled < 2 ^ 64 := by
    rw [ackIndex]
    split <;> omega
  refine .taken rfl fun s => ?_
  simp only [ackReply, List.map_cons, List.map_nil, List.foldl_cons, List.foldl_nil,
    onHdr_ack s hlt, Psub.onHdr_unmarked unmarked_contentText]

theorem foldl_batchRecord {σ : Type} {visit : σ → Item → σ}
    (hbegin : ∀ x, visit x .beginArray = x) (hend : ∀ x, visit x .endArray = x) (term : ℤ)
    (first : ℕ) (es : List Entry) (x : σ) :
    (batchRecord term first es).foldl visit x = (messagesFrom term first es).foldl visit x := by
  simp only [batchRecord, List.cons_append, List.foldl_cons, List.foldl_append, List.foldl_nil,
    hbegin, hend]

def Receiver.handled (R : Receiver) (auth : Option Bytes) (first : ℕ) (es : List Entry) : ℕ :=
  if authorised R.token auth then (handleFrom R.handle first es ()).1 else 0

theorem hDeliver_acks (R : Receiver) (auth : Option Bytes) {term : ℤ} {first : ℕ}
    {es : List Entry} (hr : Readable (batchRecord term first es))
    (hlast : first + es.length ≤ 2 ^ 64) :
    Acks first (R.handled auth first es) (hDeliver R auth (some (batchRecord term first es))) := by
  cases hauth : authorised R.token auth with
  | false =>
    refine .refused ?_ ?_
    · simp only [Receiver.handled, hauth, Bool.false_eq_true, if_false]
    · simp [hDeliver, hauth, textReply]
  | true =>
    have hrun := ((dvVisit_handles R).run term hlast (x := .blank) rfl).1
    have hcount : R.handled auth first es = (handleFrom R.handle first es ()).1 := by
      simp only [Receiver.handled, hauth, if_true]
    have htook : hDeliver R auth (some (batchRecord term first es)) =
        ackReply (ackIndex first (R.handled auth first es)) := by
      rw [hDeliver, hauth, bjDecode_of_readable _ hr,
        foldl_batchRecord (fun _ => rfl) (fun _ => rfl), hcount, ackIndex]
      exact congrArg ackReply hrun
    have hle := handleFrom_le R.handle first es ()
    rw [htook]
    exact acks_ackReply (by omega)

def Stage.handled (V : Vendor) (S : Stage) (attempts : ℕ → List Attempt) (st : Store)
    (auth : Option Bytes) (first : ℕ) (es : List Entry) : ℕ × Store :=
  if authorised S.token auth then handleFrom (S.handle V attempts) first es st else (0, st)

theorem hPipe_acks (V : Vendor) (S : Stage) (attempts : ℕ → List Attempt) (held : ℤ) (st : Store)
    (auth : Option Bytes) {term : ℤ} {first : ℕ} {es : List Entry}
    (hr : Readable (batchRecord term first es)) (hlast : first + es.length ≤ 2 ^ 64) :
    Acks first (S.handled V attempts st auth first es).1
        (hPipe V S attempts held st auth (some (batchRecord term first es))).1 ∧
      (hPipe V S attempts held st auth (some (batchRecord term first es))).2 =
        (S.handled V attempts st auth first es).2 := by
  cases hauth : authorised S.token auth with
  | false =>
    refine ⟨.refused ?_ ?_, ?_⟩
    · simp only [Stage.handled, hauth, Bool.false_eq_true, if_false]
    · simp [hPipe, hauth, textReply]
    · simp only [hPipe, Stage.handled, hauth, Bool.not_false, if_true, Bool.false_eq_true, if_false]
  | true =>
    obtain ⟨htook, hstore⟩ := (ppVisit_handles V S attempts).run term hlast
      (x := ⟨[], held, 0, false, st⟩) rfl
    have hcount : S.handled V attempts st auth first es =
        handleFrom (S.handle V attempts) first es st := by
      simp only [Stage.handled, hauth, if_true]
    have hall : (batchRecord term first es).takeWhile (fun it => decide it.Safe) =
        batchRecord term first es :=
      List.takeWhile_eq_self_iff.mpr fun it hit => decide_eq_true (hr it hit)
    have hpipe : hPipe V S attempts held st auth (some (batchRecord term first es)) =
        (ackReply (ackIndex first (S.handled V attempts st auth first es).1),
          (S.handled V attempts st auth first es).2) := by
      simp only [hPipe, hauth, Bool.not_true, Bool.false_eq_true, if_false, hall, hr, if_true]
      rw [foldl_batchRecord (fun _ => rfl) (fun _ => rfl), htook, hstore, hcount, ackIndex]
    have hle := handleFrom_le (S.handle V attempts) first es st
    rw [hpipe]
    exact ⟨acks_ackReply (by rw [hcount]; omega), rfl⟩

/-! ### What the Python subscriber answers -/

namespace PyProtocol

open PyBinjson

variable {P : PyRuntime D} {C : PyConversions D} {info : DeliveryInfo}

/-- What `elog_get_batch` writes of one message, as Python decodes it. -/
def messageEntry (index : ℕ) (term : ℤ) (e : Entry) : List (String × PyValue D) :=
  [("index", .int (toInt64 index)), ("term", .int term), ("type", .int e.type),
    ("payload", .bytes e.payload)]

def entriesFrom (term : ℤ) : ℕ → List Entry → List (PyValue D)
  | _, [] => []
  | index, e :: es => .dict (messageEntry index term e) :: entriesFrom term (index + 1) es

theorem parseEntry_message {i : ℕ} {term : ℤ} {e : Entry} {d : Delivery D}
    (h : parseEntry P C info false (.dict (messageEntry i term e)) = .ok d) :
    d.index = toInt64 i := by
  have hindex : field C (messageEntry (D := D) i term e) "index" = .ok (toInt64 i) := rfl
  simp only [parseEntry, hindex, Bool.false_eq_true, if_false, bind, Except.bind, pure,
    Except.pure] at h
  repeat' split at h
  all_goals first
    | contradiction
    | obtain rfl := Except.ok.inj h
      rfl

def handle (handler : Delivery D → Bool) (_ : ℕ) (d : Delivery D) (_ : Unit) : Bool × Unit :=
  (handler d, ())

/-- How many messages of a batch the handler returns on before it raises; none of a batch that
does not parse. -/
def handled (P : PyRuntime D) (C : PyConversions D) (body : Bytes) (info : DeliveryInfo)
    (handler : Delivery D → Bool) : ℕ :=
  match parseDelivery P C body info false with
  | .error _ => 0
  | .ok ds => (handleFrom (handle handler) 0 ds ()).1

inductive Numbered : ℕ → List (Delivery D) → Prop where
  | nil (i : ℕ) : Numbered i []
  | cons {i : ℕ} {d : Delivery D} {ds : List (Delivery D)} (hd : d.index = toInt64 i)
    (hds : Numbered (i + 1) ds) : Numbered i (d :: ds)

theorem numbered_of_parse {term : ℤ} {i : ℕ} {es : List Entry} {ds : List (Delivery D)}
    (h : (entriesFrom term i es).mapM (parseEntry P C info false) = .ok ds) :
    Numbered i ds ∧ ds.length = es.length := by
  have hall := mapM_forall₂ h
  clear h
  induction es generalizing i ds with
  | nil =>
    obtain rfl := List.forall₂_nil_left_iff.mp hall
    exact ⟨.nil i, rfl⟩
  | cons e es ih =>
    rw [entriesFrom] at hall
    obtain ⟨d, ds', hd, hds, rfl⟩ := List.forall₂_cons_left_iff.mp hall
    obtain ⟨hnum, hlen⟩ := ih hds
    exact ⟨.cons (parseEntry_message hd) hnum, by simp [hlen]⟩

theorem handleFrom_handle (handler : Delivery D → Bool) (i j : ℕ) (ds : List (Delivery D)) :
    handleFrom (handle handler) i ds () = handleFrom (handle handler) j ds () := by
  induction ds generalizing i j with
  | nil => rfl
  | cons d ds ih =>
    simp only [handleFrom, handle, ih (i + 1) (j + 1)]
    rfl

theorem tookOf_numbered (handler : Delivery D → Bool) {i : ℕ} {ds : List (Delivery D)}
    (h : Numbered i ds) (hi : i + ds.length ≤ 2 ^ 63) (took : ℤ) :
    tookOf handler took ds = if (handleFrom (handle handler) 0 ds ()).1 = 0 then took
      else ((i + (handleFrom (handle handler) 0 ds ()).1 - 1 : ℕ) : ℤ) := by
  induction h generalizing took with
  | nil i => rfl
  | @cons i d ds hd _ ih =>
    rw [List.length_cons] at hi
    have hindex : d.index = (i : ℤ) := by
      rw [hd, toInt64, u64_of_lt (by omega), if_pos (by omega)]
    have hrest := ih (by omega) d.index
    simp only [tookOf, handleFrom]
    cases hok : handler d with
    | false => simp [handle, hok]
    | true =>
      simp only [handle, hok, if_true, Nat.add_one_ne_zero, if_false]
      rw [hrest, handleFrom_handle handler (0 + 1) 0]
      split
      · rename_i hzero
        simp [hzero, hindex]
      · norm_cast
        omega

theorem handled_le {handler : Delivery D → Bool} {body : Bytes} {term : ℤ} {first : ℕ}
    {es : List Entry} (hbody : decode P body = .ok (.list (entriesFrom term first es))) :
    handled P C body info handler ≤ es.length := by
  rw [handled]
  split
  · exact Nat.zero_le _
  · rename_i ds hds
    simp only [parseDelivery, hbody] at hds
    rw [← (numbered_of_parse hds).2]
    exact handleFrom_le _ _ _ _

theorem handleMessages_acks (handler : Delivery D → Bool) {body : Bytes} {term : ℤ} {first : ℕ}
    {es : List Entry} (hbody : decode P body = .ok (.list (entriesFrom term first es)))
    (hlast : first + es.length ≤ 2 ^ 63) :
    Acks first (handled P C body info handler) (handleMessages P C body info handler) := by
  have hparsed : parseDelivery P C body info false =
      (entriesFrom term first es).mapM (parseEntry P C info false) := by
    simp only [parseDelivery, hbody]
  cases hparse : parseDelivery P C body info false with
  | error e =>
    refine .refused ?_ ?_
    · simp only [handled, hparse]
    · simp [handleMessages, hparse, textReply]
  | ok ds =>
    rw [hparse] at hparsed
    obtain ⟨hnum, hlen⟩ := numbered_of_parse hparsed.symm
    have htook := tookOf_numbered handler hnum (by omega) 0
    have hle := handleFrom_le (handle handler) 0 ds ()
    have hcount : handled P C body info handler = (handleFrom (handle handler) 0 ds ()).1 := by
      simp only [handled, hparse]
    have hnat : tookOf handler 0 ds = (ackIndex first (handled P C body info handler) : ℕ) := by
      rw [htook, hcount, ackIndex]
      split <;> rfl
    have hlt : ackIndex first (handled P C body info handler) < 2 ^ 64 := by
      rw [hcount, ackIndex]
      split <;> omega
    refine .taken ?_ fun s => ?_
    · simp only [handleMessages, hparse]
    · simp only [handleMessages, hparse, hnat, lldText_natCast, List.map_cons, List.map_nil,
        List.foldl_cons, List.foldl_nil, Psub.onHdr_unmarked unmarked_contentText, onHdr_ack s hlt]

end PyProtocol

/-! ### Both ends together -/

/-- A batch the broker has sent is settled as far as its receiver has handled it, whichever that
is, and the next one begins where the receiver stopped unless the receipt or the log is past it. -/
theorem subscriber_verdict_settles {d : Sent} {b : App} {s : Psub} (hsent : d.store.Behind d.sub)
    (hids : (b.push.subs.map (·.id)).Nodup) (hs : s ∈ b.push.subs) (hcarries : s.Carries d)
    (hlive : s.gone = false) (hplain : s.cfg.group = []) {found : Option ℕ}
    (hget : b.store.bjmCursorGet s.subject s.consumer = .ok found) :
    ∃ es, d.sub.body = .batch es ∧ s.first + es.length = s.last + 1 ∧
      ∀ (term : ℤ), Readable (batchRecord term s.first es) → s.last ≤ MAX_SAFE_INT →
      ∀ (clock : ℕ) (r : Reply) (now handled : ℕ),
        ((∃ R auth, Conveys (hDeliver R auth (some (batchRecord term s.first es))) r ∧
            handled = R.handled auth s.first es) ∨
          (∃ V S attempts held st auth,
            Conveys (hPipe V S attempts held st auth (some (batchRecord term s.first es))).1 r ∧
            handled = (S.handled V attempts st auth s.first es).1) ∨
          (∃ (D : Type) (P : PyBinjson.PyRuntime D) (C : PyProtocol.PyConversions D)
            (body : Bytes) (info : PyProtocol.DeliveryInfo)
            (handler : PyProtocol.Delivery D → Bool),
            PyBinjson.decode P body = .ok (.list (PyProtocol.entriesFrom term s.first es)) ∧
            Conveys (PyProtocol.handleMessages P C body info handler) r ∧
            handled = PyProtocol.handled P C body info handler)) →
        s.Resumes b (b.delivered clock s.id r now) now handled ∧
        (s.first ≤ max (b.store.receiptOf s.subject s.consumer) (b.store.logOf s.subject).base + 1 →
          ∀ (V : Vendor) (a a' : Scan) (i count : ℕ),
            a.store = (b.delivered clock s.id r now).store → a.sub.consumer = s.consumer →
            a.offerBatch V i s.subject = (a', some count) →
              (a'.sub.first = s.first + handled ↔
                b.store.receiptOf s.subject s.consumer < s.first + handled ∧
                  (b.store.logOf s.subject).base < s.first + handled)) := by
  obtain ⟨es, hbody, hlen, -⟩ := hsent.contiguous
  have hfirst : 0 < s.first := by
    rw [hcarries.first, hsent.first]
    omega
  have hend : s.first + es.length = s.last + 1 := by
    have hsome := hsent.nonempty
    rw [hcarries.first, hcarries.last]
    omega
  refine ⟨es, hbody, hend, fun term hr hlast clock r now handled hreply => ?_⟩
  have hsafe : s.last < 2 ^ 53 := by
    simp only [MAX_SAFE_INT] at hlast
    omega
  have hacks : ∃ h, Acks s.first handled h ∧ Conveys h r ∧ handled ≤ es.length := by
    rcases hreply with ⟨R, auth, hconv, rfl⟩ | ⟨V, S, attempts, held, st, auth, hconv, rfl⟩ |
      ⟨D, P, C, body, info, handler, hdec, hconv, rfl⟩
    · refine ⟨_, hDeliver_acks R auth hr (by omega), hconv, ?_⟩
      rw [Receiver.handled]
      split
      · exact handleFrom_le _ _ _ _
      · exact Nat.zero_le _
    · refine ⟨_, (hPipe_acks V S attempts held st auth hr (by omega)).1, hconv, ?_⟩
      rw [Stage.handled]
      split
      · exact handleFrom_le _ _ _ _
      · exact Nat.zero_le _
    · refine ⟨_, PyProtocol.handleMessages_acks handler hdec (by omega), hconv, ?_⟩
      exact PyProtocol.handled_le hdec
  obtain ⟨h, hacks, hconv, hle⟩ := hacks
  have hres := hacks.settles hids hs hlive hplain hfirst (by omega) (by omega) hget hconv clock now
  exact ⟨hres, fun hkept V a a' i count hstore hconsumer hnext =>
    hres.next hfirst hkept hstore hconsumer hnext⟩

/-- `billing` subscribes to `orders`, and two messages wait. -/
def twoUnread : Scan where
  store := twoWaiting.store
  push := twoWaiting.push
  sub := (Pusher.blank 0).psubNew (ascii "billing")
    ⟨ascii "orders", ascii "http://billing/", [], [], 0, 0⟩

def Vendor.whole : Vendor :=
  { Vendor.silent with
    valueSize := fun body => some body.length
    batchCount := fun log start _ => log.last + 1 - start }

def twoSent : Scan := (twoUnread.startDelivery .whole 2 fun _ => true).2

def awaitingTwo (st : Store) : App := ⟨st, { twoSent.push with subs := [twoSent.sub] }⟩

def twoMessages : List Entry := [⟨BJM_ENTRY_PLAIN, [7]⟩, ⟨BJM_ENTRY_PLAIN, [8]⟩]

theorem twoSent_carries : twoSent.sub.Carries ⟨twoSent.store, twoSent.sub⟩ := by
  have hfresh : twoSent.sub.ackHint = none ∧ twoSent.sub.doneList = none := by decide +kernel
  exact ⟨rfl, rfl, rfl, rfl, rfl, hfresh.1, hfresh.2⟩

theorem twoSent_behind : twoSent.store.Behind twoSent.sub where
  first := by decide +kernel
  nonempty := by decide +kernel
  within := by decide +kernel
  contiguous := by
    refine ⟨twoMessages, by decide +kernel, by decide +kernel, fun k hk => ?_⟩
    have hk' : k = 0 ∨ k = 1 := by
      have : k < 2 := hk
      omega
    rcases hk' with rfl | rfl <;> decide +kernel

def firstMessageOnly : Receiver := ⟨[], some fun index _ => index = 1⟩

theorem firstMessageOnly_resumes :
    let r := (hDeliver firstMessageOnly none (some (batchRecord 1 1 twoMessages))).told
    let b := (awaitingTwo twoSent.store).delivered 3 twoSent.sub.id r 3
    b.store.receiptOf (ascii "orders") (ascii "billing") = 1 ∧
      ∀ a' count, Scan.offerBatch .whole ⟨b.store, b.push, twoSent.sub⟩ 0 (ascii "orders") =
        (a', some count) → a'.sub.first = 2 := by
  intro r b
  have hsub : twoSent.sub.gone = false ∧ twoSent.sub.cfg.group = [] ∧
      twoSent.sub.body = .batch twoMessages := by decide +kernel
  have hplace : twoSent.sub.subject = ascii "orders" ∧ twoSent.sub.consumer = ascii "billing" ∧
      twoSent.sub.first = 1 ∧ twoSent.sub.last = 2 := by decide +kernel
  have hbegin : (twoSent.store.logOf (ascii "orders")).base = 0 ∧
      twoSent.store.receiptOf (ascii "orders") (ascii "billing") = 0 := by decide +kernel
  have hget : (awaitingTwo twoSent.store).store.bjmCursorGet twoSent.sub.subject
      twoSent.sub.consumer = .ok none := by rfl
  obtain ⟨es, hes, -, hsettles⟩ := subscriber_verdict_settles (b := awaitingTwo twoSent.store)
    (s := twoSent.sub) twoSent_behind (List.nodup_singleton _) (List.mem_singleton_self _)
    twoSent_carries hsub.1 hsub.2.1 hget
  obtain rfl : twoMessages = es := Body.batch.inj (hsub.2.2.symm.trans hes)
  rw [hplace.1, hplace.2.1, hplace.2.2.1, hplace.2.2.2] at hsettles
  obtain ⟨hres, hnext⟩ := hsettles 1 (by decide +kernel) (by decide) 3 r 3 1
    (.inl ⟨firstMessageOnly, none, HttpReply.conveys_told _, by decide +kernel⟩)
  have hreceipt := hres.receipt
  rw [hplace.1, hplace.2.1, hplace.2.2.1] at hreceipt
  refine ⟨hreceipt.trans ?_, fun a' count h => ?_⟩
  · change max (twoSent.store.receiptOf (ascii "orders") (ascii "billing")) _ = 1
    rw [hbegin.2]
    rfl
  · refine (hnext ?_ _ ⟨b.store, b.push, twoSent.sub⟩ a' 0 count rfl hplace.2.1 h).mpr ?_
    · change 1 ≤ max (twoSent.store.receiptOf (ascii "orders") (ascii "billing"))
        (twoSent.store.logOf (ascii "orders")).base + 1
      omega
    · change twoSent.store.receiptOf (ascii "orders") (ascii "billing") < 2 ∧
        (twoSent.store.logOf (ascii "orders")).base < 2
      rw [hbegin.1, hbegin.2]
      decide

/-- A stage that passes every message on to `bills`, with retries off. -/
def forwarding : Stage :=
  ⟨[], ascii "orders", ascii "billing", ascii "bills", true, fun _ payload => some payload, 0⟩

def unansweredPublish (_ : ℕ) : List Attempt := [⟨.recvError, true, 2⟩]

/-- The stage says that the first message has failed, but its publish has moved the receipt past
it, and the next batch begins with the second. -/
theorem unansweredPublish_moves_on :
    let piped := hPipe .whole forwarding unansweredPublish 0 twoSent.store none
      (some (batchRecord 1 1 twoMessages))
    let b := (awaitingTwo piped.2).delivered 3 twoSent.sub.id piped.1.told 3
    (forwarding.handled .whole unansweredPublish twoSent.store none 1 twoMessages).1 = 0 ∧
      twoSent.store.receiptOf (ascii "orders") (ascii "billing") = 0 ∧
      b.store.receiptOf (ascii "orders") (ascii "billing") = 1 ∧
      (Scan.offerBatch .whole ⟨b.store, b.push, twoSent.sub⟩ 0 (ascii "orders")).1.sub.first = 2 ∧
      (Scan.offerBatch .whole ⟨b.store, b.push, twoSent.sub⟩ 0 (ascii "orders")).2 = some 1 := by
  decide +kernel

end SukkalMsg
