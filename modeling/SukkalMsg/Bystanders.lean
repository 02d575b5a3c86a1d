import SukkalMsg.Flights
import SukkalMsg.Isolation
import SukkalMsg.Legibility
import SukkalMsg.OfferedNames

/-!
# Subjects that nobody asks for

A subject is a bystander of a run if no request is about it, no subscription reaches
it, and it has no policy. All that is kept of a bystander stays as it was, whatever
else the run does.
-/

namespace SukkalMsg

open Std Names Binjson OrderedScan BoundedTable Store ActionRuns

theorem publication_subject {V : Vendor} {req : Request} {p : Publication}
    (h : publication V req = .ok p) : subjectOf req (ascii "/pub/") = .ok p.subject := by
  simp only [publication] at h
  cases hs : subjectOf req (ascii "/pub/") with
  | error a => simp [hs] at h
  | ok subject =>
    simp only [hs] at h
    repeat' split at h
    all_goals first | contradiction | (obtain rfl := Except.ok.inj h; rfl)

namespace Store.SameAt

variable {st : Store} {x : Bytes}

theorem of_publishFresh (st : Store) (now : ℕ) {p : Publication} (hne : x ≠ p.subject) :
    st.SameAt x (st.publishFresh now p).2 := by
  simp only [publishFresh]
  split
  · exact refl
  · rename_i index st₁ hpub
    have hone : st.SameAt x st₁ := of_publishedTo (.of_publish hpub) hne
    split
    · exact hone
    · exact hone.trans (of_dedupOnly (bjmDedupRecord_dedupOnly ..))

theorem of_publishOnce (st : Store) (now : ℕ) {p : Publication} (hne : x ≠ p.subject) :
    st.SameAt x (st.publishOnce now p).2 := by
  simp only [publishOnce]
  cases p.id with
  | none => exact of_publishFresh st now hne
  | some id =>
    have hlook : st.SameAt x (st.bjmDedupLookup now p.subject id).2 :=
      of_dedupOnly (bjmDedupLookup_dedupOnly ..)
    dsimp only
    generalize st.bjmDedupLookup now p.subject id = r at hlook
    rcases r with ⟨e | found, st₁⟩
    · exact hlook
    · cases found with
      | some index => exact hlook
      | none => exact hlook.trans (of_publishFresh st₁ now hne)

theorem of_publishAck {req : Request} (hx : slash ∉ x) (hc : ∀ c, ackTarget req ≠ some (x, c)) :
    st.SameAt x (st.publishAck req).2 := by
  simp only [publishAck]
  split
  · exact refl
  split
  · rename_i subject consumer hs hcon
    split
    · exact refl
    · rename_i hvalid
      split
      · exact refl
      · rename_i st' hset
        have htarget : ackTarget req = some (subject, consumer) := by
          simp only [ackTarget, hs, hcon]
          rw [if_pos]
          simpa using hvalid
        have hne : x ≠ subject := fun he => hc consumer (he ▸ htarget)
        exact of_cursorSet hx (slash_notMem_of_nameValid (ackTarget_valid htarget)) hne hset
  · exact refl

theorem policyGet_congr {st' : Store} (h : st.SameAt x st') :
    st'.bjmPolicyGet x = st.bjmPolicyGet x := by
  simp only [bjmPolicyGet]
  cases hk : policyKey (ascii "p") x with
  | none => rfl
  | some key =>
    obtain rfl := boundedKey_eq hk
    simp only [h.policy]

theorem of_purge {c : Bytes} (hk : ∀ k, heldBy c k = true → x ++ [slash] <+: k →
    st.cursors.contains k = false) : st.SameAt x (st.bjmCursorDeleteConsumer c).2 := by
  refine of_cursors rfl fun c' => ?_
  simp only [bjmCursorDeleteConsumer, ExtTreeMap.getElem?_filter']
  cases hget : st.cursors[pairKey x c']? with
  | none => rfl
  | some r =>
    cases hheld : heldBy c (pairKey x c') with
    | false => rfl
    | true =>
      have hnone := hk _ hheld (by simp [pairKey])
      rw [ExtTreeMap.contains_eq_isSome_getElem?, hget] at hnone
      contradiction

end Store.SameAt

namespace Handler

/-- The request is about the subject: it names it, or what it names is kept there. -/
def Concerns (H : Host) (b : App) (req : Request) (x : Bytes) : Handler → Prop
  | hPublish => subjectOf req (ascii "/pub/") = .ok x ∨ ∃ c, ackTarget req = some (x, c)
  | hSubscribe => subjectAt req (ascii "/sub/") = .ok x
  | hAck => ∃ c, consumerTarget req (ascii "/ack/") = .ok (x, c)
  | hUnsubscribe => ∃ c, consumerTarget req (ascii "/consumers/") = .ok (x, c)
  | hTrim => subjectAt req (ascii "/trim/") = .ok x
  | hTake => ∃ s g, queueTarget req (ascii "/take/") = .ok (s, g) ∧
      (x = s ∨ deadSubjectOf s = some x)
  | hDone => ∃ g, queueTarget req (ascii "/done/") = .ok (x, g)
  | hFail => ∃ g, queueTarget req (ascii "/fail/") = .ok (x, g)
  | hQueueConfig | hQueueDelete => ∃ g, queueTarget req (ascii "/queue/") = .ok (x, g)
  | hRequeue => ∃ s e, subjectAt req (ascii "/requeue/") = .ok s ∧
      b.store.deadEnvelope H s (req.queryU64 (ascii "index") 0) = .ok (x, e)
  | hPolicyPut | hPolicyDelete => subjectAt req (ascii "/policy/") = .ok x
  | hPushPut => ∃ r, registration req = .ok r ∧ b.Places r x
  | hPushDelete => App.purges req = true ∧ ∃ c k, App.unregistration req = .ok c ∧
      heldBy c k = true ∧ x ++ [slash] <+: k ∧ b.store.cursors.contains k = true
  | _ => False

variable {H : Host} {b : App} {now : ℕ} {req : Request} {h : Handler} {st : Store}
  {call : StoreCall} {x : Bytes}

/-- A handler that publishes nothing and purges nothing asks only for what it concerns. -/
theorem Asks.concerns (ha : h.Asks H b now req st call) (ht : call.Touches x)
    (hpub : h ≠ hPublish) (hreq : h ≠ hRequeue) (hdel : h ≠ hPushDelete) :
    h.Concerns H b req x := by
  cases call with
  | publish at_ s e => exact (ha.2.2.elim hpub hreq).elim
  | dedup => exact absurd ha hpub
  | cursorDeleteConsumer c => exact absurd ha.1 hdel
  | policyOpen | pushSet | pushDelete => contradiction
  | cursorSet s c i =>
    obtain rfl := Option.some.inj ht
    rcases ha with ha | ha
    · cases h with
      | hAck => exact ⟨c, ha.2.1⟩
      | hSubscribe => exact ha.2.1
      | hPublish => contradiction
      | _ => exact ha.elim
    · cases h with
      | hSubscribe => exact ha.1
      | hPushPut =>
        obtain ⟨⟨r, hr, -, hplace⟩, -⟩ := ha
        exact ⟨r, hr, hplace⟩
      | _ => exact ha.elim
  | cursorDelete s c =>
    obtain rfl := Option.some.inj ht
    obtain ⟨rfl, htarget⟩ := ha
    exact ⟨c, htarget⟩
  | trim s before force =>
    obtain rfl := Option.some.inj ht
    obtain ⟨rfl, htarget⟩ := ha
    exact htarget
  | take at_ s g max lease =>
    obtain ⟨rfl, -, -, htarget, -⟩ := ha
    exact ⟨s, g, htarget, ht⟩
  | release at_ s g i drop delay =>
    obtain rfl := Option.some.inj ht
    rcases ha.2.2.2 with ⟨rfl, htarget, -⟩ | ⟨rfl, htarget, -⟩ <;> exact ⟨g, htarget⟩
  | queueConfig s g l a d m =>
    obtain rfl := Option.some.inj ht
    obtain ⟨rfl, -, htarget, -⟩ := ha
    exact ⟨g, htarget⟩
  | queueDelete s g =>
    obtain rfl := Option.some.inj ht
    obtain ⟨rfl, htarget⟩ := ha
    exact ⟨g, htarget⟩
  | policySet s p =>
    obtain rfl := Option.some.inj ht
    obtain ⟨rfl, htarget, -⟩ := ha
    exact htarget
  | policyClear s =>
    obtain rfl := Option.some.inj ht
    obtain ⟨rfl, htarget⟩ := ha
    exact htarget

/-- What a handler asks of the store is for subjects a log can have. -/
theorem Asks.slash_notMem (ha : h.Asks H b now req st call)
    (hn : ∀ name ∈ b.push.names, slash ∉ name) : ∀ s ∈ call.subject?, slash ∉ s := by
  intro s hs
  cases call with
  | publish at_ s' e =>
    obtain rfl := Option.some.inj hs
    exact slash_notMem_of_nameValid ha.2.1
  | dedup | cursorDeleteConsumer | policyOpen | pushSet | pushDelete => contradiction
  | cursorSet s' c i =>
    obtain rfl := Option.some.inj hs
    rcases ha with ha | ha
    · exact slash_notMem_of_nameValid ha.valid
    · cases h with
      | hSubscribe => exact slash_notMem_of_nameValid (subjectAt_valid ha.1)
      | hPushPut =>
        obtain ⟨⟨r, -, -, hplace⟩, -⟩ := ha
        exact hn _ hplace.name
      | _ => exact ha.elim
  | cursorDelete s' c =>
    obtain rfl := Option.some.inj hs
    exact slash_notMem_of_nameValid (consumerTarget_valid ha.2)
  | trim s' before force =>
    obtain rfl := Option.some.inj hs
    exact slash_notMem_of_nameValid (subjectAt_valid ha.2)
  | take at_ s' g max lease =>
    obtain rfl := Option.some.inj hs
    exact slash_notMem_of_nameValid (queueTarget_valid ha.2.2.2.1)
  | release at_ s' g i drop delay =>
    obtain rfl := Option.some.inj hs
    rcases ha.2.2.2 with ⟨-, htarget, -⟩ | ⟨-, htarget, -⟩ <;>
      exact slash_notMem_of_nameValid (queueTarget_valid htarget)
  | queueConfig s' g l a d m =>
    obtain rfl := Option.some.inj hs
    exact slash_notMem_of_nameValid (queueTarget_valid ha.2.2.1)
  | queueDelete s' g =>
    obtain rfl := Option.some.inj hs
    exact slash_notMem_of_nameValid (queueTarget_valid ha.2)
  | policySet s' p =>
    obtain rfl := Option.some.inj hs
    exact slash_notMem_of_nameValid (subjectAt_valid ha.2.1)
  | policyClear s' =>
    obtain rfl := Option.some.inj hs
    exact slash_notMem_of_nameValid (subjectAt_valid ha.2)

variable (H b now req) in
theorem sameAt_publish (hx : slash ∉ x) (hc : ¬ hPublish.Concerns H b req x) :
    b.store.SameAt x (hPublish.run H b now req).2.store := by
  simp only [run, App.hPublish, Store.hPublish]
  cases hp : publication H.vendor req with
  | error a => exact .refl
  | ok p =>
    have hne : x ≠ p.subject := fun he => hc (.inl (he ▸ publication_subject hp))
    have honce := SameAt.of_publishOnce b.store now hne
    dsimp only
    generalize b.store.publishOnce now p = r at honce
    rcases r with ⟨a | r, st⟩
    · exact honce
    · have hack : b.store.SameAt x (st.publishAck req).2 :=
        honce.trans (.of_publishAck hx fun c hc' => hc (.inr ⟨c, hc'⟩))
      dsimp only
      generalize st.publishAck req = y at hack
      rcases y with ⟨a | acked, st'⟩
      · exact hack
      · exact hack

variable (H b now req) in
theorem sameAt_requeue (hc : ¬ hRequeue.Concerns H b req x) :
    b.store.SameAt x (hRequeue.run H b now req).2.store := by
  simp only [run, App.hRequeue]
  cases hs : subjectAt req (ascii "/requeue/") with
  | error a => exact .refl
  | ok s =>
    dsimp only
    split
    · exact .refl
    split
    · exact .refl
    · cases hr : b.requeue H now s (req.queryU64 (ascii "index") 0) with
      | error e => cases e <;> exact .refl
      | ok r =>
        obtain ⟨origin, e, henv, hpub, -⟩ := App.requeue_eq hr
        exact .of_publishedTo (.of_publish hpub) fun he => hc ⟨s, e, hs, he ▸ henv⟩

variable (H b now req) in
theorem sameAt_pushDelete (hc : ¬ hPushDelete.Concerns H b req x) :
    b.store.SameAt x (hPushDelete.run H b now req).2.store := by
  simp only [run]
  rcases b.hPushDelete_push req with heq | ⟨c, hun, -, heq⟩
  · rw [heq]
    exact .refl
  · have hgone : b.store.SameAt x (b.unregister c).store :=
      ⟨rfl, fun _ => rfl, fun _ => rfl, rfl, rfl⟩
    rw [heq]
    split
    · rename_i hpurge
      refine hgone.trans (.of_purge fun k hk hpre => ?_)
      by_contra hheld
      exact hc ⟨hpurge, c, k, hun, hk, hpre, Bool.not_eq_false _ ▸ hheld⟩
    · exact hgone

/-- A request that is not about a subject leaves it as it is. -/
theorem sameAt (hx : slash ∉ x) (hn : ∀ name ∈ b.push.names, slash ∉ name)
    (hc : ¬ h.Concerns H b req x) : b.store.SameAt x (h.run H b now req).2.store := by
  by_cases hpub : h = hPublish
  · subst hpub
    exact sameAt_publish H b now req hx hc
  by_cases hreq : h = hRequeue
  · subst hreq
    exact sameAt_requeue H b now req hc
  by_cases hdel : h = hPushDelete
  · subst hdel
    exact sameAt_pushDelete H b now req hc
  refine (h.calls H b now req).preserves (fun st => b.store.SameAt x st) .refl
    fun st call st' hst ha hm => hst.trans ?_
  exact hm.sameAt hx (ha.slash_notMem hn) fun ht => hc (ha.concerns ht hpub hreq hdel)

end Handler

/-- The step is not about the subject: no request for it, no subscription that
reaches it, no policy, no answer to a delivery of its messages. -/
def ServeOp.Passes (H : Host) (b : App) (x : Bytes) : ServeOp → Prop
  | .request _ method req => ∀ h, sukkalRoute method req.path = some h → ¬ h.Concerns H b req x
  | .sweep _ => ∀ p, b.store.bjmPolicyGet x ≠ .ok (true, p)
  | .pump _ _ _ => ∀ t ∈ b.push.subs,
    t.MatchesIn (fun s => x ≠ s ∧ deadSubjectOf s ≠ some x) (x ≠ ·)
  | .delivered _ id _ _ => ∀ t ∈ b.push.subs, t.id = id → x ≠ t.subject

namespace App

variable {H : Host} {b : App} {x : Bytes}

theorem sameAt_rule (V : Vendor) (hx : slash ∉ x) : MatchRule V
    (fun s => x ≠ s ∧ deadSubjectOf s ≠ some x) (x ≠ ·) fun b b' => b.store.SameAt x b'.store where
  same _ _ heq := heq ▸ .refl
  trans _ _ _ h h' := h.trans h'
  take _ _ _ _ _ _ _ _ _ hj hs htake heq := heq ▸ .of_take hx hs hj.1 hj.2 htake
  skip _ _ _ _ _ hb hs hset := .of_cursorSet hx hs hb hset

theorem sameAt_sweep (nowS : ℕ) (hp : ∀ p, b.store.bjmPolicyGet x ≠ .ok (true, p)) :
    b.store.SameAt x (b.store.bjmRetentionRun H.vendor nowS).2.2 := by
  refine (b.store.retentionRun_calls H.vendor nowS).preserves (fun st => b.store.SameAt x st) .refl
    fun st call st' hst ha hm => hst.trans ?_
  cases call with
  | trim s before force =>
    obtain ⟨p, hget, -⟩ := ha
    obtain ⟨base, removed, htrim⟩ := hm
    refine .of_trim (fun he => ?_) htrim
    subst he
    exact hp p (hst.policyGet_congr.symm.trans hget)
  | policyOpen =>
    obtain rfl := hm
    exact ⟨rfl, fun _ => rfl, fun _ => rfl, rfl, rfl⟩
  | _ => exact ha.elim

theorem sameAt_settled (hx : slash ∉ x) {now : ℕ} {s g : Bytes} {js : List ℕ} {st st' : Store}
    (hs : slash ∉ s) (hne : x ≠ s) (h : Settlement now s g js st st') : st.SameAt x st' := by
  induction h with
  | none => exact .refl
  | done _ _ hr ih => exact ih.trans (SameAt.of_release hx hs hne hr)
  | fail _ _ hr ih => exact ih.trans (SameAt.of_release hx hs hne hr)

theorem sameAt_delivered (hV : H.vendor.KeepsNames) (h : b.Flying H.vendor) (hx : slash ∉ x)
    (clock id : ℕ) (r : Reply) (now : ℕ)
    (hout : ∀ t ∈ b.push.subs, t.id = id → t.inflight = true)
    (hne : ∀ t ∈ b.push.subs, t.id = id → x ≠ t.subject) :
    b.store.SameAt x (b.delivered clock id r now).store := by
  rcases b.delivered_cases clock id r now with ⟨heq, -⟩ | ⟨pre, t, suf, hsubs, hid,
    ⟨-, suf', -, heq⟩ | ⟨-, y, hy, heq⟩⟩
  · rw [heq]
    exact .refl
  · rw [heq]
    exact .refl
  · have ht : t ∈ b.push.subs := by simp [hsubs]
    have hs := h.subjects hV t ht (hout t ht hid)
    have hcases :=
      Psub.settle_cases clock b.store ({ t.hear r with inflight := false } : Psub) r now
    rw [← hy, t.hear_same r] at hcases
    rw [heq]
    rcases hcases with hsame | ⟨-, -, -, hset⟩ | ⟨-, hset⟩
    · rw [hsame]
      exact .refl
    · exact .of_cursorSet hx hs (hne t ht hid) hset
    · exact sameAt_settled hx hs (hne t ht hid) hset

/-- A step that is not about a subject leaves all that is kept of it. -/
theorem sameAt_serve (hV : H.vendor.KeepsNames) (h : b.Flying H.vendor) (hx : slash ∉ x)
    {op : ServeOp} (hs : Serving b op) (hp : op.Passes H b x) :
    b.store.SameAt x (b.serve H op).2.store := by
  cases op with
  | request now method req =>
    rcases dispatch_cases H b now method req with ⟨hd, hroute, heq⟩ | ⟨-, heq⟩
    · simp only [serve, heq]
      exact Handler.sameAt hx h.names (hp hd hroute)
    · simp only [serve, heq]
      exact .refl
  | sweep nowS => exact sameAt_sweep nowS hp
  | pump send now clock =>
    exact (sameAt_rule H.vendor hx).pump send now clock h.names hs.words hp
  | delivered clock id r now =>
    exact sameAt_delivered hV h hx clock id r now (hs.outstanding clock id r now rfl) hp

end App

/-- In a run whose later steps are not about a subject, its log, its receipts, its groups,
its policy and its marks are at the end what they were when the last step about it was
done. -/
theorem bystander_untouched {H : Host} (hV : H.vendor.KeepsNames) {st : Store}
    {listing : List Bytes} (n : ℕ) {x : Bytes} {before later : List ServeOp} (hx : slash ∉ x)
    (hl : ∀ e ∈ listing, slash ∉ e)
    (hb : Along (App.serve H) (fun _ b op => Serving b op) [] (App.start st listing n) before)
    (hp : Along (App.serve H) (fun _ b op => Serving b op ∧ op.Passes H b x) []
      (run (App.serve H) (App.start st listing n) before).2 later) :
    (run (App.serve H) (App.start st listing n) before).2.store.SameAt x
      (run (App.serve H) (App.start st listing n) (before ++ later)).2.store := by
  have hfly := invariant (I := fun _ b => App.Flying H.vendor b)
    (App.start_flying H.vendor n hl) hb
    fun _ _ _ hs h => h.serve hs
  obtain ⟨hsame, -⟩ := invariant (I := fun _ b =>
      (run (App.serve H) (App.start st listing n) before).2.store.SameAt x b.store ∧
        App.Flying H.vendor b) ⟨.refl, hfly⟩ hp
    fun _ _ _ hs h => ⟨h.1.trans (App.sameAt_serve hV h.2 hx hs.1 hs.2), h.2.serve hs.1⟩
  rw [run_append]
  exact hsame

/-- An audit message is published; then an order is, a pass is made, and the broker
sweeps. -/
def auditOnce : List ServeOp := [.request 1 POST { order none with path := ascii "/pub/audit" }]

def orderOnce : List ServeOp := [.request 2 POST (order none), .pump (fun _ => true) 3 3, .sweep 4]

theorem orderOnce_passes : (run (App.serve (plainHost wholeBodies)) (App.start .empty [] 0)
      auditOnce).2.store.SameAt (ascii "audit")
    (run (App.serve (plainHost wholeBodies)) (App.start .empty [] 0)
      (auditOnce ++ orderOnce)).2.store := by
  refine bystander_untouched (H := plainHost wholeBodies) (fun _ _ => rfl) 0 (by decide) (by simp)
    ⟨serving_of_request (words_of_logs ?_), trivial⟩
    ⟨⟨serving_of_request (words_of_logs ?_), fun h hroute => ?_⟩,
      ⟨⟨words_of_logs ?_, nofun⟩, fun t ht => ?_⟩,
      ⟨⟨words_of_logs ?_, nofun⟩, fun p => ?_⟩, trivial⟩
  · decide +kernel
  · decide +kernel
  · obtain rfl : h = .hPublish := Option.some.inj (hroute.symm.trans (by decide +kernel))
    rintro (hsubject | ⟨c, hack⟩)
    · have horders : subjectOf (order none) (ascii "/pub/") = .ok (ascii "orders") := by
        decide +kernel
      exact absurd (Except.ok.inj (horders.symm.trans hsubject)) (by decide)
    · have hnone : ackTarget (order none) = none := by decide +kernel
      rw [hnone] at hack
      contradiction
  · decide +kernel
  · refine absurd (List.length_pos_of_mem ht) ?_
    decide +kernel
  · decide +kernel
  · have hzero : (run (App.serve (plainHost wholeBodies)) (App.start .empty [] 0) (auditOnce ++
        orderOnce.take 2)).2.store.bjmPolicyGet (ascii "audit") = .ok (false, .zero) := by
      decide +kernel
    intro hget
    exact absurd (hzero.symm.trans hget) nofun

end SukkalMsg
