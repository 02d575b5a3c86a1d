import SukkalMsg.Routes
import SukkalMsg.StoreCalls

/-!
# The calls a request makes

Whatever a request changes in the store, it changes by the store's own calls, and
what it passes to them is what it was asked. An invariant of the store is then
proved call by call, under what the requests ask for.
-/

namespace SukkalMsg

open Std Names Binjson OrderedScan Store

/-- The receipt a publish asks to move, as far as the request names one. -/
def ackTarget (req : Request) : Option (Bytes × Bytes) :=
  match req.queryGet (ascii "ack_subject") (BJM_SUBJECT_MAX + 1),
      req.queryGet (ascii "ack_consumer") (BJM_CONSUMER_MAX + 1) with
  | .value subject, .value consumer =>
    if bjmSubjectValid subject && bjmConsumerValid consumer then some (subject, consumer) else none
  | _, _ => none

/-- A registration gives its consumer a receipt on the subject: it is new and has no
group, and the consumer has none there. -/
structure App.Places (b : App) (r : Registration) (subject : Bytes) : Prop where
  group : r.cfg.group = []
  new : b.store.bjmPushGet r.consumer = .ok none
  name : subject ∈ b.push.names
  matched : (b.push.psubNew r.consumer { PushSub.zero with
    pattern := cut (BJM_SUBJECT_MAX + 1) r.cfg.pattern }).isMatch subject = true
  unread : b.store.bjmCursorGet subject r.consumer = .ok none

namespace Handler

/-- The request acknowledges an index for a consumer; the store is the one it does so
in, which is after the publish when it publishes. -/
def Acknowledges (H : Host) (b : App) (now : ℕ) (req : Request) (st : Store)
    (subject consumer : Bytes) (index : ℕ) : Handler → Prop
  | hAck => st = b.store ∧ consumerTarget req (ascii "/ack/") = .ok (subject, consumer) ∧
      index ≠ 0 ∧ index = req.queryU64 (ascii "index") 0
  | hSubscribe => st = b.store ∧ subjectAt req (ascii "/sub/") = .ok subject ∧
      (b.store.bjmSubjectInfo H.vendor subject).toOption.isSome = true ∧
      req.queryConsumer = .ok (some consumer) ∧
      index ≠ 0 ∧ index = req.queryU64 (ascii "ack") 0
  | hPublish => ∃ p r, publication H.vendor req = .ok p ∧
      b.store.publishOnce now p = (.ok r, st) ∧ ackTarget req = some (subject, consumer) ∧
      index ≠ 0 ∧ index = req.queryU64 (ascii "ack_index") 0
  | _ => False

/-- The receipt is given to a consumer where it begins: where the request says, or
at one end of the log. -/
def Begins (b : App) (req : Request) (st : Store) (subject consumer : Bytes) (index : ℕ) :
    Handler → Prop
  | hSubscribe => subjectAt req (ascii "/sub/") = .ok subject ∧
      (index = 0 ∨ index = st.bjmLastIndex subject)
  | hPushPut => (∃ r, registration req = .ok r ∧ r.consumer = consumer ∧ b.Places r subject) ∧
      (index = 0 ∨ index = st.bjmLastIndex subject ∨ req.startsLast = false ∧
        1 < req.queryU64 (ascii "from") 0 ∧ index = req.queryU64 (ascii "from") 0 - 1)
  | _ => False

/-- What a handler may ask of the store. -/
def Asks (H : Host) (b : App) (now : ℕ) (req : Request) (h : Handler) (st : Store) :
    StoreCall → Prop
  | .publish at_ name _ => at_ = now ∧ bjmSubjectValid name = true ∧
      (h = hPublish ∨ h = hRequeue)
  | .dedup => h = hPublish
  | .cursorSet subject consumer index => h.Acknowledges H b now req st subject consumer index ∨
      h.Begins b req st subject consumer index
  | .cursorDelete subject consumer => h = hUnsubscribe ∧
      consumerTarget req (ascii "/consumers/") = .ok (subject, consumer)
  | .cursorDeleteConsumer consumer => h = hPushDelete ∧ App.unregistration req = .ok consumer
  | .trim subject _ _ => h = hTrim ∧ subjectAt req (ascii "/trim/") = .ok subject
  | .take at_ subject group max lease => h = hTake ∧ st = b.store ∧ at_ = now ∧
      queueTarget req (ascii "/take/") = .ok (subject, group) ∧
      max = toInt32 (req.queryU64 (ascii "max") 1) ∧
      lease = req.queryU64 (ascii "lease") UINT64_MAX
  | .release at_ subject group index drop delay => st = b.store ∧ at_ = now ∧
      index = req.queryU64 (ascii "index") 0 ∧
      (h = hDone ∧ queueTarget req (ascii "/done/") = .ok (subject, group) ∧ drop = true ∨
        h = hFail ∧ queueTarget req (ascii "/fail/") = .ok (subject, group) ∧ drop = false ∧
          delay = req.queryU64 (ascii "delay") UINT64_MAX)
  | .queueConfig subject group leaseMs maxAttempts backoffMs maxBackoffMs => h = hQueueConfig ∧
      st = b.store ∧ queueTarget req (ascii "/queue/") = .ok (subject, group) ∧
      leaseMs = req.queryU64 (ascii "lease_ms") BJM_LEASE_DEFAULT_MS ∧
      maxAttempts = req.queryU64 (ascii "max_attempts") BJM_MAX_ATTEMPTS_DEFAULT ∧
      backoffMs = req.queryU64 (ascii "backoff_ms") BJM_BACKOFF_DEFAULT_MS ∧
      maxBackoffMs = req.queryU64 (ascii "max_backoff_ms") BJM_MAX_BACKOFF_DEFAULT_MS
  | .queueDelete subject group => h = hQueueDelete ∧
      queueTarget req (ascii "/queue/") = .ok (subject, group)
  | .policySet subject p => h = hPolicyPut ∧ subjectAt req (ascii "/policy/") = .ok subject ∧
      p = App.requestedPolicy req
  | .policyClear subject => h = hPolicyDelete ∧ subjectAt req (ascii "/policy/") = .ok subject
  | .policyOpen => True
  | .pushSet consumer cfg => h = hPushPut ∧ registration req = .ok ⟨consumer, cfg⟩
  | .pushDelete consumer => h = hPushDelete ∧ App.unregistration req = .ok consumer

end Handler

namespace App

variable {H : Host} {b : App} {now : ℕ} {req : Request}

variable (b now) in
theorem publishOnce_calls {p : Publication} (hp : publication H.vendor req = .ok p) :
    Calls H.vendor (Handler.hPublish.Asks H b now req) b.store (b.store.publishOnce now p).2 := by
  have hvalid := (publication_valid hp).1
  have hfresh : ∀ {st : Store}, Calls H.vendor (Handler.hPublish.Asks H b now req) st
      (st.publishFresh now p).2 := by
    intro st
    simp only [publishFresh]
    split
    · exact .refl _
    · rename_i index st₁ hpub
      have hone : Calls H.vendor (Handler.hPublish.Asks H b now req) st st₁ :=
        .one (.publish now p.subject p.entry) ⟨rfl, hvalid, .inl rfl⟩ ⟨index, hpub⟩
      split
      · exact hone
      · exact hone.tail .dedup rfl (bjmDedupRecord_dedupOnly ..)
  simp only [publishOnce]
  cases p.id with
  | none => exact hfresh
  | some id =>
    have hlook := bjmDedupLookup_dedupOnly b.store now p.subject id
    dsimp only
    generalize b.store.bjmDedupLookup now p.subject id = r at hlook
    have hone : Calls H.vendor (Handler.hPublish.Asks H b now req) b.store r.2 :=
      .one .dedup rfl hlook
    rcases r with ⟨e | found, st⟩
    · exact hone
    · cases found with
      | some index => exact hone
      | none => exact hone.trans hfresh

theorem publishAck_calls {p : Publication} {r : ℕ × Bool} {st : Store}
    (hp : publication H.vendor req = .ok p) (hr : b.store.publishOnce now p = (.ok r, st)) :
    Calls H.vendor (Handler.hPublish.Asks H b now req) st (st.publishAck req).2 := by
  simp only [publishAck]
  split
  · exact .refl _
  rename_i hindex
  split
  · rename_i subject consumer hs hc
    split
    · exact .refl _
    · rename_i hvalid
      split
      · exact .refl _
      · rename_i st' hset
        have htarget : ackTarget req = some (subject, consumer) := by
          simp only [ackTarget, hs, hc]
          rw [if_pos]
          simpa using hvalid
        exact .one (.cursorSet subject consumer _)
          (.inl ⟨p, r, hp, hr, htarget, hindex, rfl⟩) hset
  · exact .refl _

theorem hPublish_calls :
    Calls H.vendor (Handler.hPublish.Asks H b now req) b.store (b.hPublish H now req).2.store := by
  simp only [hPublish, Store.hPublish]
  cases hp : publication H.vendor req with
  | error a => exact .refl _
  | ok p =>
    have honce := publishOnce_calls b now hp
    dsimp only
    generalize hr : b.store.publishOnce now p = x at honce
    rcases x with ⟨a | r, st⟩
    · exact honce
    · have hack := honce.trans (publishAck_calls hp hr)
      dsimp only
      generalize st.publishAck req = y at hack
      rcases y with ⟨a | acked, st'⟩
      · exact hack
      · exact hack

/-- A receipt that is read, or begun, is begun by a call of the handler. -/
private theorem begin_calls {subject consumer : Bytes} {st : Store}
    (hs : subjectAt req (ascii "/sub/") = .ok subject)
    (hst : Calls H.vendor (Handler.hSubscribe.Asks H b now req) b.store st) :
    Calls H.vendor (Handler.hSubscribe.Asks H b now req) b.store
      (match st.bjmCursorGet subject consumer with
        | .error e => ((.error (resErr (statusFor e) "cursor lookup failed\n"), st) :
            Except Response ℕ × Store)
        | .ok (some acked) => (.ok acked, st)
        | .ok none =>
          match st.bjmCursorSet subject consumer
              (if req.startsLast then st.bjmLastIndex subject else 0) with
          | .error e => (.error (resErr (statusFor e) "cursor create failed\n"), st)
          | .ok st' => (.ok (if req.startsLast then st.bjmLastIndex subject else 0), st')).2 := by
  split
  · exact hst
  · exact hst
  · split
    · exact hst
    · rename_i hset
      refine hst.tail (.cursorSet subject consumer _) (.inr ⟨hs, ?_⟩) hset
      split
      · exact .inr rfl
      · exact .inl rfl

variable (b now) in
theorem readReceipt_calls {subject consumer : Bytes} (hs : subjectAt req (ascii "/sub/") = .ok subject)
    (hi : (b.store.bjmSubjectInfo H.vendor subject).toOption.isSome = true)
    (hc : req.queryConsumer = .ok (some consumer)) :
    Calls H.vendor (Handler.hSubscribe.Asks H b now req) b.store
      (b.store.readReceipt subject consumer req).2 := by
  simp only [readReceipt]
  by_cases hack : req.queryU64 (ascii "ack") 0 ≠ 0
  · rw [if_pos hack]
    cases hset : b.store.bjmCursorSet subject consumer (req.queryU64 (ascii "ack") 0) with
    | error e => exact .refl _
    | ok st =>
      exact begin_calls hs (.one (.cursorSet subject consumer _)
        (.inl ⟨rfl, hs, hi, hc, hack, rfl⟩) hset)
  · rw [if_neg hack]
    exact begin_calls hs (.refl _)

theorem hSubscribe_calls :
    Calls H.vendor (Handler.hSubscribe.Asks H b now req) b.store (b.hSubscribe H req).2.store := by
  simp only [hSubscribe]
  cases hs : subjectAt req (ascii "/sub/") with
  | error a => exact .refl _
  | ok subject =>
    dsimp only
    cases hi : b.store.bjmSubjectInfo H.vendor subject with
    | error e => exact .refl _
    | ok info =>
      dsimp only
      cases hc : req.queryConsumer with
      | error a => exact .refl _
      | ok found =>
        cases found with
        | none =>
          dsimp only
          split <;> exact .refl _
        | some consumer =>
          have hcalls := readReceipt_calls b now hs (by rw [hi]; rfl) hc
          dsimp only
          generalize b.store.readReceipt subject consumer req = x at hcalls
          rcases x with ⟨a | acked, st⟩
          · exact hcalls
          · exact hcalls

theorem hAck_calls :
    Calls H.vendor (Handler.hAck.Asks H b now req) b.store (b.hAck req).2.store := by
  simp only [hAck]
  cases ht : consumerTarget req (ascii "/ack/") with
  | error a => exact .refl _
  | ok target =>
    dsimp only
    split
    · exact .refl _
    · rename_i hindex
      split
      · exact .refl _
      · rename_i hset
        exact .one (.cursorSet target.1 target.2 _) (.inl ⟨rfl, ht, hindex, rfl⟩) hset

theorem hUnsubscribe_calls :
    Calls H.vendor (Handler.hUnsubscribe.Asks H b now req) b.store (b.hUnsubscribe req).2.store := by
  simp only [hUnsubscribe]
  cases ht : consumerTarget req (ascii "/consumers/") with
  | error a => exact .refl _
  | ok target =>
    dsimp only
    split
    · exact .refl _
    · rename_i deleted st hdel
      exact .one (.cursorDelete target.1 target.2) ⟨rfl, ht⟩ ⟨deleted, hdel⟩

theorem hTrim_calls :
    Calls H.vendor (Handler.hTrim.Asks H b now req) b.store (b.hTrim req).2.store := by
  simp only [hTrim]
  cases hs : subjectAt req (ascii "/trim/") with
  | error a => exact .refl _
  | ok subject =>
    dsimp only
    split
    · exact .refl _
    · split
      · exact .refl _
      · rename_i base removed st htrim
        exact .one (.trim subject _ _) ⟨rfl, hs⟩ ⟨base, removed, htrim⟩

theorem hTake_calls :
    Calls H.vendor (Handler.hTake.Asks H b now req) b.store (b.hTake H now req).2.store := by
  simp only [hTake]
  cases ht : queueTarget req (ascii "/take/") with
  | error a => exact .refl _
  | ok target =>
    dsimp only
    split
    · exact .refl _
    · rename_i t htake
      exact .one (.take now target.1 target.2 _ _) ⟨rfl, rfl, rfl, ht, rfl, rfl⟩ ⟨t, htake, rfl⟩

theorem hDone_calls :
    Calls H.vendor (Handler.hDone.Asks H b now req) b.store (b.hDone now req).2.store := by
  simp only [hDone, hJobEnd, if_true]
  cases ht : queueTarget req (ascii "/done/") with
  | error a => exact .refl _
  | ok target =>
    dsimp only
    split
    · exact .refl _
    · split
      · exact .refl _
      · rename_i r hr
        exact .one (.release now target.1 target.2 _ true 0)
          ⟨rfl, rfl, rfl, .inl ⟨rfl, ht, rfl⟩⟩ ⟨r, hr, rfl⟩

theorem hFail_calls :
    Calls H.vendor (Handler.hFail.Asks H b now req) b.store (b.hFail now req).2.store := by
  simp only [hFail, hJobEnd, Bool.false_eq_true, if_false]
  cases ht : queueTarget req (ascii "/fail/") with
  | error a => exact .refl _
  | ok target =>
    dsimp only
    split
    · exact .refl _
    · split
      · exact .refl _
      · rename_i r hr
        exact .one (.release now target.1 target.2 _ false _)
          ⟨rfl, rfl, rfl, .inr ⟨rfl, ht, rfl, rfl⟩⟩ ⟨r, hr, rfl⟩

theorem deadEnvelope_valid {st : Store} {subject origin : Bytes} {index : ℕ} {e : Entry}
    (h : st.deadEnvelope H subject index = .ok (origin, e)) : bjmSubjectValid origin = true := by
  simp only [deadEnvelope] at h
  split at h
  · contradiction
  split at h
  · contradiction
  split at h
  · contradiction
  split at h
  · contradiction
  split at h
  · contradiction
  split at h
  · contradiction
  split at h
  · rename_i hvalid
    obtain rfl := (Prod.mk.inj (Except.ok.inj h)).1
    exact hvalid
  · contradiction

/-- A requeue appends what an envelope restores, or fails and leaves everything. -/
theorem requeue_eq {subject : Bytes} {index at_ : ℕ} {b' : App}
    (h : b.requeue H now subject index = .ok (at_, b')) :
    ∃ origin e, b.store.deadEnvelope H subject index = .ok (origin, e) ∧
      b.store.bjmPublish now origin e = .ok (at_, b'.store) ∧ b'.push = b.push.notify origin := by
  simp only [requeue] at h
  split at h
  · contradiction
  · rename_i origin e henv
    split at h
    · contradiction
    · rename_i hpub
      obtain ⟨rfl, rfl⟩ := Prod.mk.inj (Except.ok.inj h)
      exact ⟨origin, e, henv, hpub, rfl⟩

variable (H b now req) in
/-- What a requeue does, whatever it answers. -/
theorem hRequeue_cases : (b.hRequeue H now req).2 = b ∨ ∃ subject index at_,
    subjectAt req (ascii "/requeue/") = .ok subject ∧
      b.requeue H now subject index = .ok (at_, (b.hRequeue H now req).2) := by
  simp only [hRequeue]
  cases hs : subjectAt req (ascii "/requeue/") with
  | error a => exact .inl rfl
  | ok subject =>
    dsimp only
    split
    · exact .inl rfl
    split
    · exact .inl rfl
    · cases hr : b.requeue H now subject (req.queryU64 (ascii "index") 0) with
      | error e => cases e <;> exact .inl rfl
      | ok r => exact .inr ⟨subject, _, r.1, rfl, hr⟩

theorem hRequeue_calls :
    Calls H.vendor (Handler.hRequeue.Asks H b now req) b.store (b.hRequeue H now req).2.store := by
  rcases hRequeue_cases H b now req with
    heq | ⟨subject, index, at_, -, hr⟩
  · rw [heq]
    exact .refl _
  · obtain ⟨origin, e, henv, hpub, -⟩ := requeue_eq hr
    exact .one (.publish now origin e) ⟨rfl, deadEnvelope_valid henv, .inr rfl⟩ ⟨at_, hpub⟩

theorem hQueueConfig_calls :
    Calls H.vendor (Handler.hQueueConfig.Asks H b now req) b.store
      (b.hQueueConfig now req).2.store := by
  simp only [hQueueConfig]
  cases ht : queueTarget req (ascii "/queue/") with
  | error a => exact .refl _
  | ok target =>
    dsimp only
    split
    · exact .refl _
    · rename_i st hset
      have hsame : (({ b with store := st } : App).hQueues now req).2.store = st := by
        simp only [hQueues]
        split <;> rfl
      rw [hsame]
      exact .one (.queueConfig target.1 target.2 _ _ _ _)
        ⟨rfl, rfl, ht, rfl, rfl, rfl, rfl⟩ hset

theorem hQueueDelete_calls :
    Calls H.vendor (Handler.hQueueDelete.Asks H b now req) b.store (b.hQueueDelete req).2.store := by
  simp only [hQueueDelete]
  cases ht : queueTarget req (ascii "/queue/") with
  | error a => exact .refl _
  | ok target =>
    dsimp only
    split
    · exact .refl _
    · rename_i deleted st hdel
      exact .one (.queueDelete target.1 target.2) ⟨rfl, ht⟩ ⟨deleted, hdel⟩

theorem hPolicyGet_store (b : App) (req : Request) : (b.hPolicyGet req).2.store = b.store ∨
    (b.hPolicyGet req).2.store = { b.store with policyOpen := true } := by
  simp only [hPolicyGet]
  cases subjectAt req (ascii "/policy/") with
  | error a => exact .inl rfl
  | ok subject =>
    dsimp only
    split <;> exact .inr rfl

theorem policyGet_calls {h : Handler} {st : Store} (b' : App)
    (hst : Calls H.vendor (h.Asks H b now req) st b'.store) :
    Calls H.vendor (h.Asks H b now req) st (b'.hPolicyGet req).2.store := by
  rcases b'.hPolicyGet_store req with heq | heq
  · rw [heq]
    exact hst
  · rw [heq]
    exact hst.tail .policyOpen trivial rfl

theorem hPolicyPut_calls :
    Calls H.vendor (Handler.hPolicyPut.Asks H b now req) b.store (b.hPolicyPut req).2.store := by
  simp only [hPolicyPut]
  cases hs : subjectAt req (ascii "/policy/") with
  | error a => exact .refl _
  | ok subject =>
    dsimp only
    split
    · exact .refl _
    · split
      · exact .refl _
      · rename_i st hset
        exact policyGet_calls ⟨st, b.push⟩
          (.one (.policySet subject _) ⟨rfl, hs, rfl⟩ hset)

theorem hPolicyDelete_calls :
    Calls H.vendor (Handler.hPolicyDelete.Asks H b now req) b.store
      (b.hPolicyDelete req).2.store := by
  simp only [hPolicyDelete]
  cases hs : subjectAt req (ascii "/policy/") with
  | error a => exact .refl _
  | ok subject =>
    dsimp only
    split
    · exact .refl _
    · rename_i cleared st hclear
      exact .one (.policyClear subject) ⟨rfl, hs⟩ ⟨cleared, hclear⟩

/-- The seeding loop gives receipts where there are none. -/
theorem seedOne_calls {r : Registration} {name : Bytes} {st : Store} (hr : registration req = .ok r)
    (hplace : st.bjmCursorGet name r.consumer = .ok none → b.Places r name) :
    Calls H.vendor (Handler.hPushPut.Asks H b now req) st
      (st.seedOne r.consumer req.startsLast (req.queryU64 (ascii "from") 0) name) := by
  simp only [Store.seedOne]
  split
  · rename_i hget
    split
    · exact .refl _
    · rename_i hset
      refine .one (.cursorSet name r.consumer _) (.inr ⟨⟨r, hr, rfl, hplace hget⟩, ?_⟩) hset
      split
      · exact .inr (.inl rfl)
      · rename_i hend
        split
        · exact .inr (.inr ⟨by simpa using hend, ‹_›, rfl⟩)
        · exact .inl rfl
  · exact .refl _

theorem seedFor_calls {r : Registration} (hr : registration req = .ok r)
    (hnew : b.store.bjmPushGet r.consumer = .ok none) :
    Calls H.vendor (Handler.hPushPut.Asks H b now req) b.store (b.seedFor req r).store := by
  simp only [seedFor]
  split
  · rename_i hg
    refine .foldl id (Seeded r.consumer b.store) .refl fun st hst name hn =>
      ⟨hst.trans (.seedOne _ _ _), seedOne_calls hr fun hget => ?_⟩
    obtain ⟨hname, hmatch⟩ := List.mem_filter.mp hn
    exact ⟨hg, hnew, hname, hmatch, hst.get_none hget⟩
  · exact .refl _

theorem hPushPut_calls :
    Calls H.vendor (Handler.hPushPut.Asks H b now req) b.store (b.hPushPut req).2.store := by
  rcases b.hPushPut_push req with heq | ⟨r, found, hr, hfound, heq⟩
  · rw [heq]
    exact .refl _
  · rw [heq]
    have hseed : Calls H.vendor (Handler.hPushPut.Asks H b now req) b.store
        (if found.isNone then b.seedFor req r else b).store := by
      cases found with
      | none => exact seedFor_calls hr hfound
      | some s => exact .refl _
    exact hseed.tail (.pushSet r.consumer r.cfg) ⟨rfl, hr⟩ rfl

theorem hPushDelete_calls :
    Calls H.vendor (Handler.hPushDelete.Asks H b now req) b.store (b.hPushDelete req).2.store := by
  rcases b.hPushDelete_push req with heq | ⟨c, hc, -, heq⟩
  · rw [heq]
    exact .refl _
  · rw [heq]
    have hdel : Calls H.vendor (Handler.hPushDelete.Asks H b now req) b.store
        (b.unregister c).store := .one (.pushDelete c) ⟨rfl, hc⟩ rfl
    split
    · exact hdel.tail (.cursorDeleteConsumer c) ⟨rfl, hc⟩ rfl
    · exact hdel

end App

/-- Whatever a request does to the store, it does by the calls it asks for. -/
theorem Handler.calls (H : Host) (b : App) (now : ℕ) (req : Request) (h : Handler) :
    Calls H.vendor (h.Asks H b now req) b.store (h.run H b now req).2.store := by
  have hsame : ∀ {b' : App}, b'.store = b.store →
      Calls H.vendor (h.Asks H b now req) b.store b'.store := fun heq => heq ▸ .refl _
  cases h with
  | hPublish => exact App.hPublish_calls
  | hPushPut => exact App.hPushPut_calls
  | hPushDelete => exact App.hPushDelete_calls
  | hPushList => exact hsame rfl
  | hSubscribe => exact App.hSubscribe_calls
  | hAck => exact App.hAck_calls
  | hTrim => exact App.hTrim_calls
  | hTake => exact App.hTake_calls
  | hDone => exact App.hDone_calls
  | hFail => exact App.hFail_calls
  | hDead =>
    apply hsame
    simp only [run, App.hDead]
    repeat' split
    all_goals rfl
  | hRequeue => exact App.hRequeue_calls
  | hQueues =>
    apply hsame
    simp only [run, App.hQueues]
    split <;> rfl
  | hQueueConfig => exact App.hQueueConfig_calls
  | hQueueDelete => exact App.hQueueDelete_calls
  | hConsumers =>
    apply hsame
    simp only [run, App.hConsumers]
    split <;> rfl
  | hUnsubscribe => exact App.hUnsubscribe_calls
  | hInfo =>
    apply hsame
    simp only [run, App.hInfo]
    repeat' split
    all_goals rfl
  | hPolicyGet => exact App.policyGet_calls b (.refl _)
  | hPolicyPut => exact App.hPolicyPut_calls
  | hPolicyDelete => exact App.hPolicyDelete_calls
  | hPolicies => exact .one .policyOpen trivial rfl
  | hSubjects =>
    apply hsame
    simp only [run, App.hSubjects]
    repeat' split
    all_goals rfl
  | hHealth => exact hsame rfl

/-- What a request does to the engine: it learns of subjects, and it takes or loses a
registration. -/
theorem Handler.push_cases (H : Host) (b : App) (now : ℕ) (req : Request) (h : Handler) :
    b.push.Learnt (h.run H b now req).2.push ∨
      (h = hPushPut ∧ ∃ r p, registration req = .ok r ∧ b.push.Learnt p ∧
        (h.run H b now req).2.push = p.add r.consumer r.cfg) ∨
      (h = hPushDelete ∧ ∃ c, App.unregistration req = .ok c ∧
        (h.run H b now req).2.push = b.push.remove c) := by
  have hsame : ∀ {r : Response × App}, r.2.push = b.push → b.push.Learnt r.2.push :=
    fun heq => heq ▸ .refl
  cases h with
  | hPublish =>
    refine .inl ?_
    simp only [run, App.hPublish]
    cases hp : publication H.vendor req with
    | error a => exact .refl
    | ok p =>
      dsimp only
      split
      · exact b.push.learnt_notify (slash_notMem_of_nameValid (publication_valid hp).1)
      · exact .refl
  | hPushPut =>
    rcases b.hPushPut_push req with heq | ⟨r, found, hr, -, heq⟩
    · refine .inl ?_
      simp only [run, heq]
      exact .refl
    · refine .inr (.inl ⟨rfl, r, (if found.isNone then b.seedFor req r else b).push, hr, ?_, ?_⟩)
      · split
        · rw [App.seedFor_push]
          split
          · exact ⟨rfl, ⟨[], by simp⟩, fun _ => rfl⟩
          · exact .refl
        · exact .refl
      · simp only [run, heq]
        rfl
  | hPushDelete =>
    rcases b.hPushDelete_push req with heq | ⟨c, hc, hpush, -⟩
    · refine .inl ?_
      simp only [run, heq]
      exact .refl
    · exact .inr (.inr ⟨rfl, c, hc, hpush⟩)
  | hTake =>
    refine .inl ?_
    simp only [run, App.hTake]
    split
    · exact .refl
    · split
      · exact .refl
      · exact b.push.learnt_notifyDead _ _ _
  | hRequeue =>
    refine .inl ?_
    rcases App.hRequeue_cases H b now req with
      heq | ⟨subject, index, at_, -, hr⟩
    · simp only [run, heq]
      exact .refl
    · obtain ⟨origin, e, henv, -, hpush⟩ := App.requeue_eq hr
      simp only [run, hpush]
      exact b.push.learnt_notify (slash_notMem_of_nameValid (App.deadEnvelope_valid henv))
  | hSubscribe | hAck | hTrim | hDone | hFail | hDead | hQueues | hQueueConfig | hQueueDelete
  | hConsumers | hUnsubscribe | hInfo | hPolicyGet | hPolicyPut | hPolicyDelete | hSubjects =>
    refine .inl (hsame ?_)
    simp only [run, App.hSubscribe, App.hAck, App.hTrim, App.hDone, App.hFail, App.hJobEnd,
      App.hDead, App.hQueues, App.hQueueConfig, App.hQueueDelete, App.hConsumers,
      App.hUnsubscribe, App.hInfo, App.hPolicyGet, App.hPolicyPut, App.hPolicyDelete,
      App.hSubjects]
    repeat' split
    all_goals rfl
  | hPushList | hPolicies | hHealth => exact .inl .refl

end SukkalMsg
