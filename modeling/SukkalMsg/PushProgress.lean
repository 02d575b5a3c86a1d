import SukkalMsg.TableSteps

/-!
# A receipt moves over what was delivered

Between a batch and its reply the receipt, the log and the registration may all
change. As long as nothing deletes the receipt under a live delivery, the batch
begins no further than one past what is acknowledged or trimmed, so its reply
leaves no gap behind.
-/

namespace SukkalMsg

open Std Names Binjson OrderedScan BoundedTable Store ActionRuns

namespace Store

theorem pairKey_right {s t n m : Bytes} (hn : slash ∉ n) (hm : slash ∉ m)
    (h : pairKey s n = pairKey t m) : n = m := by
  have hrev := congrArg List.reverse h
  simp only [pairKey, List.reverse_append, List.reverse_cons, List.append_assoc,
    List.singleton_append] at hrev
  obtain ⟨he, -⟩ := split_at_mark (by simpa using hn) (by simpa using hm) hrev
  exact List.reverse_injective he

theorem purge_others {st : Store} {s c c' : Bytes} (hc : slash ∉ c) (hc' : slash ∉ c')
    (hne : c ≠ c') :
    (st.bjmCursorDeleteConsumer c').2.cursors[pairKey s c]? = st.cursors[pairKey s c]? := by
  have hkey : heldBy c' (pairKey s c) = false := by
    by_contra h
    rw [Bool.not_eq_false, heldBy, Bool.and_eq_true, List.isSuffixOf_iff_suffix] at h
    obtain ⟨t, ht⟩ := h.2
    exact hne (pairKey_right hc' hc ht).symm
  simp only [bjmCursorDeleteConsumer, ExtTreeMap.getElem?_filter', hkey, Bool.not_false]
  cases st.cursors[pairKey s c]? <;> rfl

theorem receipt_purge_others {st : Store} {c c' : Bytes} (hc : slash ∉ c) (hc' : slash ∉ c')
    (hne : c ≠ c') (s : Bytes) :
    (st.bjmCursorDeleteConsumer c').2.receiptOf s c = st.receiptOf s c := by
  simp only [receiptOf, purge_others hc hc' hne]

theorem receipt_cursorSet_others {st st' : Store} {name consumer s c : Bytes} {n : ℕ}
    (hs : slash ∉ s) (hc : slash ∉ c) (hne : c ≠ consumer)
    (h : st.bjmCursorSet name consumer n = .ok st') : st'.receiptOf s c = st.receiptOf s c := by
  rcases bjmCursorSet_eq h with ⟨rfl, -⟩ | ⟨rfl, -⟩
  · rfl
  · have hkey : pairKey name consumer ≠ pairKey s c := fun he =>
      hne (pairKey_plain hs hc he).2.symm
    simp only [receiptOf, getElem?_insert, if_neg hkey]

/-- An outstanding batch begins no further than one past what is acknowledged or
trimmed, and ends within the log. -/
structure Reached (st : Store) (t : Psub) : Prop where
  subject : slash ∉ t.subject
  pos : 0 < t.first
  first : t.first ≤ max (st.receiptOf t.subject t.consumer) (st.logOf t.subject).base + 1
  last : t.last ≤ (st.logOf t.subject).last

theorem Reached.onward {st st' : Store} {t t' : Psub} (h : st.Reached t) (ho : st.Onward st')
    (hsame : t.SameDelivery t')
    (hr : st.receiptOf t.subject t.consumer ≤ st'.receiptOf t.subject t.consumer) :
    st'.Reached t' := by
  have hbase := ho.base t.subject
  have hfirst := h.first
  refine ⟨hsame.subject_eq ▸ h.subject, hsame.first_eq ▸ h.pos, ?_, ?_⟩
  · rw [hsame.first_eq, hsame.subject_eq, hsame.consumer_eq]
    omega
  · rw [hsame.last_eq, hsame.subject_eq]
    exact Nat.le_trans h.last (ho.last _)

end Store

theorem lastSent_mem {h : List PushStep} {id : ℕ} {d : Sent} (hd : lastSent h id = some d) :
    ∃ x ∈ h, d ∈ x.sent := by
  have hmem := List.mem_of_find?_eq_some hd
  rw [List.mem_reverse, List.mem_flatMap] at hmem
  exact hmem

/-- The reply answers, with a 2xx, a batch of `s` that was sent to `c` and holds `j`,
and acknowledges as much. -/
structure Sent.Covers (d : Sent) (c s : Bytes) (r : Reply) (j : ℕ) : Prop where
  consumer : d.sub.consumer = c
  subject : d.sub.subject = s
  batch : d.sub.cfg.group = []
  first : d.sub.first ≤ j
  last : j ≤ d.sub.last
  ok : r.ok = true
  hint : ∀ n, r.ackHint = some n → j ≤ n

/-- The engine moves the receipts of `c` forward, over messages that were trimmed or
that the reply it works on acknowledges. -/
def Advances (c : Bytes) (h : List PushStep) (x : PushStep) : Prop :=
  ((∃ send now clock, x.op = .pump send now clock) ∨
    ∃ clock id r now, x.op = .delivered clock id r now) →
  ∀ s, slash ∉ s → x.after.store.receiptOf s c ≠ x.before.store.receiptOf s c →
    x.before.store.receiptOf s c < x.after.store.receiptOf s c ∧
    ∀ j, x.before.store.receiptOf s c < j → j ≤ x.after.store.receiptOf s c →
      j ≤ (x.before.store.logOf s).base ∨
        ∃ clock id r now d, x.op = .delivered clock id r now ∧ lastSent h id = some d ∧
          d.Covers c s r j

/-- Every batch sent to `c` begins right behind its receipt and is contiguous. -/
def StartsBehind (c : Bytes) (x : PushStep) : Prop :=
  ∀ d ∈ x.sent, d.sub.consumer = c → d.store.Behind d.sub

/-- A step under which `c` remains a subscriber, and nobody else deletes its receipts. -/
structure Subscribing (c : Bytes) (b : App) (op : PushOp) : Prop extends Answered b op where
  acks : ∀ s c' i, op = .ack s c' i → i < 2 ^ 64
  kept : ∀ s c', op = .unsubscribe s c' → bjmConsumerValid c' = true ∧ c' ≠ c
  plain : ∀ req r, op = .put req → registration req = .ok r → r.consumer = c → r.cfg.group = []

/-- The request unregisters `c` and purges its receipts. -/
def PushOp.Purges (op : PushOp) (c : Bytes) : Prop :=
  ∃ req, op = .delete req ∧ App.unregistration req = .ok c ∧ App.purges req = true

/-- A purge of `c` does not meet a subscription that is gone already while another one
of that name has its delivery outstanding. -/
def PurgesIdle (c : Bytes) (b : App) (op : PushOp) : Prop :=
  op.Purges c → ∀ s, b.push.subs.find? (·.consumer == c) = some s → s.gone = true →
    ∀ t ∈ b.push.subs, t.consumer = c → t.gone = false → t.inflight = false

structure Following (c : Bytes) (h : List PushStep) (b : App) : Prop where
  plain : ∀ t ∈ b.push.subs, t.consumer = c → t.cfg.group = []
  sent : ∀ x ∈ h, ∀ d ∈ x.sent, d.sub.consumer = c → d.sub.cfg.group = []
  reach : ∀ t ∈ b.push.subs, t.gone = false → t.inflight = true → t.consumer = c →
    b.store.Reached t

namespace Pusher

variable {p : Pusher} {c : Bytes}

theorem alone_of_ids {pre suf : List Psub} {s : Psub}
    (hids : ((pre ++ s :: suf).map Psub.id).Nodup) : s ∉ pre ∧ s ∉ suf := by
  rw [List.map_append, List.map_cons, List.nodup_append] at hids
  refine ⟨fun hm => ?_, fun hm => ?_⟩
  · exact hids.2.2 _ (List.mem_map.mpr ⟨s, hm, rfl⟩) _ List.mem_cons_self rfl
  · exact (List.nodup_cons.mp hids.2.1).1 (List.mem_map.mpr ⟨s, hm, rfl⟩)

theorem remove_live_ne (hids : (p.subs.map Psub.id).Nodup) (hone : p.OneLive)
    (hfirst : ∀ s, p.subs.find? (·.consumer == c) = some s → s.gone = false) :
    ∀ t ∈ (p.remove c).subs, t.gone = false → t.consumer ≠ c := by
  intro t ht hg hc
  rcases p.remove_cases c with ⟨heq, hnone⟩ | ⟨pre, s, suf, hsubs, hsc, hpre, hcases⟩
  · rw [heq] at ht
    exact hnone t ht hc
  have hfind : p.subs.find? (·.consumer == c) = some s := by
    rw [hsubs, List.find?_append, List.find?_eq_none.mpr]
    · simp [hsc]
    · simpa using hpre
  have hs : s ∈ p.subs := by simp [hsubs]
  have hsg := hfirst s hfind
  have hsuf : t ∉ suf := by
    intro hm
    have htm : t ∈ p.subs := by simp [hsubs, hm]
    obtain rfl := hone s hs t htm hsg hg (hsc.trans hc.symm)
    rw [hsubs] at hids
    exact (alone_of_ids hids).2 hm
  rcases hcases with ⟨-, heq⟩ | ⟨-, suf', hperm, heq⟩
  · rw [heq] at ht
    rcases List.mem_append.mp ht with ht | ht
    · exact hpre t ht hc
    · rcases List.mem_cons.mp ht with rfl | ht
      · simp at hg
      · exact hsuf ht
  · rw [heq] at ht
    rcases List.mem_append.mp ht with ht | ht
    · exact hpre t ht hc
    · exact hsuf (hperm.mem_iff.mp ht)

end Pusher

theorem unregistration_valid {req : Request} {c : Bytes} (h : App.unregistration req = .ok c) :
    bjmConsumerValid c = true := by
  simp only [App.unregistration, Request.queryConsumer, Request.queryName] at h
  split at h
  · contradiction
  · contradiction
  · rename_i consumer hq
    obtain rfl := Except.ok.inj h
    split at hq
    · simp at hq
    · contradiction
    · split at hq
      · rename_i hv
        obtain rfl := Option.some.inj (Except.ok.inj hq)
        exact hv
      · contradiction

namespace Following

variable {V : Vendor} {c : Bytes} {h : List PushStep} {b : App} {op : PushOp}

theorem receipt_delivered (hf : Following c h b) (ho : Outstanding V h b.push) (hw : b.store.Words)
    (hplain : slash ∉ c) (clock id now : ℕ) (r : Reply)
    (hout : ∃ s ∈ b.push.subs, s.id = id ∧ s.inflight = true)
    {s : Bytes} (hs : slash ∉ s) :
    (b.delivered clock id r now).store.receiptOf s c = b.store.receiptOf s c ∨
      ∃ t ∈ b.push.subs, ∃ d, t.gone = false ∧ t.inflight = true ∧ t.consumer = c ∧ t.Carries d ∧
        lastSent h id = some d ∧ d.sub.subject = s ∧ r.ok = true ∧ d.sub.first ≤ d.acked r ∧
        b.store.receiptOf s c ≤ d.acked r ∧
        (b.delivered clock id r now).store.receiptOf s c = d.acked r := by
  rcases App.delivered_store ho clock id now r hout with heq | ⟨t, ht, d, hid,
    hg, hfly, hd, hcar, ⟨-, hok, hfirst, hset⟩ | ⟨-, hset⟩⟩
  · exact .inl (by rw [heq])
  · by_cases hc : t.consumer = c
    · have hsub : slash ∉ d.sub.subject := by
        obtain ⟨x, hx, hdx⟩ := lastSent_mem hd
        exact (ho.described x hx d hdx).subject (hf.sent x hx d hdx (hcar.consumer.symm.trans hc))
      have hreach := hf.reach t ht hg hfly hc
      have hlt : d.acked r < 2 ^ 64 := by
        have hlast := hreach.last
        have := hw t.subject
        rw [hcar.last] at hlast
        have : d.acked r ≤ d.sub.last := Nat.min_le_right _ _
        omega
      rcases receipt_cursorSet hsub hlt hset hs (c := c) with hsame | ⟨rfl, -, hle, heq⟩
      · exact .inl hsame
      · exact .inr ⟨t, ht, d, hg, hfly, hc, hcar, hd, rfl, hok, hfirst, hle, heq⟩
    · exact .inl (receipt_cursorSet_others hs hplain
        (fun he => hc (hcar.consumer.trans he.symm)) hset)
  · exact .inl (receiptOf_congr (by rw [hset.same]) s c)

theorem receipt_le (hf : Following c h b) (ho : Outstanding V h b.push) (hg : Subscribing c b op)
    (hc : bjmConsumerValid c = true) (hp : ¬ op.Purges c) {s : Bytes} (hs : slash ∉ s) :
    b.store.receiptOf s c ≤ (b.apply V op).2.store.receiptOf s c := by
  have hslash := slash_notMem_of_nameValid hc
  have hcongr : ∀ {st : Store}, st.cursors = b.store.cursors →
      b.store.receiptOf s c ≤ st.receiptOf s c := fun hst => Nat.le_of_eq (receiptOf_congr hst s c).symm
  have hrelease : ∀ {now : ℕ} {s' g : Bytes} {i delay : ℕ} {drop : Bool},
      b.store.receiptOf s c ≤ (b.stored ((b.store.queueRelease now s' g i drop delay).map
        Released.store)).store.receiptOf s c := by
    intro now s' g i delay drop
    cases hr : b.store.queueRelease now s' g i drop delay with
    | error e => exact Nat.le_refl _
    | ok r => exact hcongr (release_cursors hr)
  cases op with
  | publish now subject e =>
    simp only [App.apply, App.publish]
    split
    · exact Nat.le_refl _
    · rename_i hpub
      exact hcongr (bjmPublish_eq hpub).2.2.cursors_eq
  | ack subject consumer index =>
    simp only [App.apply]
    cases hset : b.store.bjmCursorSet subject consumer index with
    | error e => exact Nat.le_refl _
    | ok st =>
      simp only [App.stored]
      have hi := hg.acks subject consumer index rfl
      rcases bjmCursorSet_eq hset with ⟨rfl, -⟩ | ⟨rfl, hold⟩
      · exact Nat.le_refl _
      · rw [receiptOf_insert hi]
        split
        · rename_i hkey
          have hrec : b.store.receiptOf s c = b.store.receiptOf subject consumer := by
            simp only [receiptOf, hkey]
          rw [hrec]
          rcases hold with hold | ⟨-, hold⟩
          · rw [receiptOf_of_get_none hold]
            exact Nat.zero_le _
          · exact Nat.le_of_lt hold
        · exact Nat.le_refl _
  | unsubscribe subject consumer =>
    obtain ⟨hvalid, hne⟩ := hg.kept subject consumer rfl
    simp only [App.apply, bjmCursorDelete]
    split
    · exact Nat.le_refl _
    · rename_i key hkey
      obtain rfl := boundedKey_eq hkey
      split
      · have hother : pairKey subject consumer ≠ pairKey s c := fun he =>
          hne (pairKey_right (slash_notMem_of_nameValid hvalid) hslash he)
        refine Nat.le_of_eq ?_
        simp only [App.stored, Except.map, receiptOf, getElem?_erase, if_neg hother]
      · exact Nat.le_refl _
  | take now subject group max lease =>
    simp only [App.apply, App.take]
    split
    · exact Nat.le_refl _
    · exact (passed_take ‹_›).receipt_le hs
  | done now subject group index => exact hrelease
  | fail now subject group index delay => exact hrelease
  | trim subject before force =>
    simp only [App.apply]
    cases hr : b.store.bjmTrim subject before force with
    | error e => exact Nat.le_refl _
    | ok r => exact hcongr (bjmTrim_trees hr).1
  | put req =>
    simp only [App.apply]
    rcases b.hPushPut_store req with heq | ⟨r, st₁, -, hseed, heq⟩
    · rw [heq]
    · rw [heq]
      exact hseed.receipt_le s c
  | delete req =>
    simp only [App.apply]
    rcases b.hPushDelete_push req with heq | ⟨c', hc', -, heq⟩
    · rw [heq]
    · rw [heq]
      split
      · rename_i hpurge
        have hne : c ≠ c' := by
          rintro rfl
          exact hp ⟨req, rfl, hc', hpurge⟩
        rw [receipt_purge_others hslash
          (slash_notMem_of_nameValid (unregistration_valid hc')) hne]
        exact hcongr rfl
      · exact hcongr rfl
  | pump send now clock =>
    rcases b.pump_cases V send now clock ho.names hg.words with
      ⟨-, heq⟩ | ⟨-, ss', ds, st, p', w, -, happ, -, hpass, -, -⟩
    · simp only [App.apply, heq]
      exact Nat.le_refl _
    · simp only [App.apply, happ]
      exact hpass.receipt_le hs
  | delivered clock id r now =>
    simp only [App.apply]
    rcases hf.receipt_delivered ho hg.words hslash clock id now r
      (hg.outstanding _ _ _ _ rfl) hs with heq | ⟨t, -, d, -, -, -, -, -, -, -, -, hle, heq⟩
    · rw [heq]
    · rw [heq]
      exact hle

theorem idle_of_purge (ho : Outstanding V h b.push) (hp : op.Purges c) (hcond : PurgesIdle c b op) :
    ∀ t ∈ (b.apply V op).2.push.subs, t.gone = false → t.consumer = c → t.inflight = false := by
  obtain ⟨req, rfl, hreq, hpurge⟩ := hp
  intro t ht hg hc
  have hpush : (b.hPushDelete req).2.push = b.push.remove c := by
    simp only [App.hPushDelete, hreq]
    split <;> rfl
  simp only [App.apply, hpush] at ht
  by_cases hfirst : ∀ s, b.push.subs.find? (·.consumer == c) = some s → s.gone = false
  · exact absurd hc (Pusher.remove_live_ne ho.ids ho.one hfirst t ht hg)
  · push Not at hfirst
    obtain ⟨s, hs, hsg⟩ := hfirst
    have hidle := hcond ⟨req, rfl, hreq, hpurge⟩ s hs (by simpa using hsg)
    rcases b.push.remove_cases c with ⟨heq, -⟩ | ⟨pre, u, suf, hsubs, -, -, ⟨-, heq⟩ | ⟨-, suf', hperm,
      heq⟩⟩
    · rw [heq] at ht
      exact hidle t ht hc hg
    · rw [heq] at ht
      rcases List.mem_append.mp ht with ht | ht
      · exact hidle t (hsubs ▸ List.mem_append_left _ ht) hc hg
      · rcases List.mem_cons.mp ht with rfl | ht
        · simp at hg
        · exact hidle t (hsubs ▸ List.mem_append_right _ (List.mem_cons_of_mem _ ht)) hc hg
    · rw [heq] at ht
      refine hidle t ?_ hc hg
      rw [hsubs]
      simp only [List.mem_append, List.mem_cons, hperm.mem_iff] at ht ⊢
      tauto

theorem step (hf : Following c h b) (ho : Outstanding V h b.push) (hg : Subscribing c b op)
    (hc : bjmConsumerValid c = true) (hcond : PurgesIdle c b op) :
    Following c (h ++ (pushExec V b op).1) (pushExec V b op).2 := by
  have hback := fun (t' : Psub) (ht' : t' ∈ (b.apply V op).2.push.subs) =>
    App.became_apply (V := V) op ho.names hg.words hg.named ht'
  have honward := App.onward_apply (V := V) ho.names hg.words op
  refine ⟨fun t' ht' htc => ?_, fun x hx d hd hdc => ?_, fun t' ht' htg htf htc => ?_⟩
  · cases hback t' ht' with
    | @registered req r hop hr hnone => exact hg.plain req r hop hr htc
    | @reregistered req r t hop hr ht hg' hcr => exact hg.plain req r hop hr (hcr ▸ htc)
    | @kept t _ ht hsame hcfg =>
      rw [hcfg]
      exact hf.plain t ht (hsame.consumer_eq ▸ htc)
    | @turned _ _ _ t _ _ hop ht hturn hl =>
      rw [hturn.toAsked.cfg_eq]
      exact hf.plain t ht (hturn.toAsked.consumer_eq ▸ htc)
    | @replied _ _ _ _ t _ hop ht hid hg' hrep =>
      rw [hrep.cfg_eq]
      exact hf.plain t ht (hrep.consumer_eq ▸ htc)
  · rcases List.mem_append.mp hx with hx | hx
    · exact hf.sent x hx d hd hdc
    · obtain rfl := List.mem_singleton.mp hx
      obtain ⟨send, now, clock, -, -, ⟨s, hs, hturn⟩, -⟩ := App.sent_apply ho.names hg.words hd
      rw [hturn.toAsked.cfg_eq]
      exact hf.plain s hs (hturn.toAsked.consumer_eq ▸ hdc)
  · have hforward : ∀ {t : Psub}, ¬ op.Purges c → t ∈ b.push.subs → t.SameDelivery t' →
        (b.apply V op).2.store.Reached t' := by
      intro t hp ht hsame
      have htc' : t.consumer = c := hsame.consumer_eq ▸ htc
      have hreach := hf.reach t ht (hsame.live htg) (hsame.inflight_eq ▸ htf) htc'
      refine hreach.onward honward hsame ?_
      rw [htc']
      exact hf.receipt_le ho hg hc hp hreach.subject
    cases hback t' ht' with
    | registered hop hr hnone => simp [Pusher.psubNew] at htf
    | @reregistered req r t hop hr ht hg' hcr =>
      refine hforward ?_ ht (.setCfg t r.cfg)
      rintro ⟨req', hop', -⟩
      rw [hop] at hop'
      contradiction
    | kept ht hsame hcfg =>
      by_cases hp : op.Purges c
      · rw [idle_of_purge ho hp hcond t' ht' htg htc] at htf
        contradiction
      · exact hforward hp ht hsame
    | @turned send now clock t _ l hop ht hturn hl =>
      have hp : ¬ op.Purges c := by
        rintro ⟨req', hop', -⟩
        rw [hop] at hop'
        contradiction
      cases hturn with
      | skipped _ => exact hforward hp ht .refl
      | asked _ _ hf' =>
        rw [hf'] at htf
        contradiction
      | @sent d _ ha _ _ _ hdesc =>
        obtain ⟨-, -, -, -, -, -, -, hpass⟩ :=
          App.sent_apply ho.names hg.words (hl (List.mem_singleton_self d))
        have hbatch := hdesc.batch (ha.cfg_eq ▸ hf.plain t ht (ha.consumer_eq ▸ htc))
        have hbase := hpass.base d.sub.subject
        have hsub := hdesc.subject (ha.cfg_eq ▸ hf.plain t ht (ha.consumer_eq ▸ htc))
        have hrec := hpass.receipt_le (c := d.sub.consumer) hsub
        have hfirst := hbatch.first
        refine ⟨hsub, by omega, ?_, Nat.le_trans hbatch.within (hpass.last_le _)⟩
        dsimp only [pushExec]
        omega
    | replied hop ht hid hg' hrep =>
      rw [hrep.inflight_eq] at htf
      contradiction

theorem advances_step (hf : Following c h b) (ho : Outstanding V h b.push)
    (hg : Subscribing c b op) (hc : bjmConsumerValid c = true) :
    ∀ x ∈ (pushExec V b op).1, Advances c h x ∧ StartsBehind c x := by
  intro x hx
  obtain rfl := List.mem_singleton.mp hx
  refine ⟨fun hop s hs hne => ?_, fun d hd hdc => ?_⟩
  · dsimp only at hop hne ⊢
    rcases hop with ⟨send, now, clock, rfl⟩ | ⟨clock, id, r, now, rfl⟩
    · -- a pass moves a receipt up to where its log begins
      rcases b.pump_cases V send now clock ho.names hg.words
        with ⟨-, heq⟩ | ⟨-, ss', ds, st, p', w, -, happ, -, hpass, -, -⟩
      · simp [App.apply, heq] at hne
      · simp only [App.apply, happ] at hne ⊢
        rcases hpass.receipt s c hs with heq | ⟨hlt, heq⟩
        · exact absurd heq hne
        · rw [heq]
          exact ⟨hlt, fun j _ hj => .inl hj⟩
    · -- a reply moves it over the batch it answers
      simp only [App.apply] at hne ⊢
      rcases hf.receipt_delivered ho hg.words (slash_notMem_of_nameValid hc) clock id now r
        (hg.outstanding _ _ _ _ rfl) hs with
        heq | ⟨t, ht, d, htg, htf, htc, hcar, hd, rfl, hok, hle, hbelow, heq⟩
      · exact absurd heq hne
      · rw [heq] at hne ⊢
        refine ⟨by omega, fun j hj hja => ?_⟩
        by_cases hbase : j ≤ (b.store.logOf d.sub.subject).base
        · exact .inl hbase
        have hreach := (hf.reach t ht htg htf htc).first
        rw [hcar.first, hcar.subject, htc] at hreach
        have hacked : d.acked r ≤ d.sub.last := Nat.min_le_right _ _
        obtain ⟨x, hx, hdx⟩ := lastSent_mem hd
        refine .inr ⟨clock, id, r, now, d, rfl, hd, hcar.consumer.symm.trans htc, rfl,
          hf.sent x hx d hdx (hcar.consumer.symm.trans htc), by omega, by omega, hok,
          fun n hn => ?_⟩
        have : d.acked r ≤ n := by
          rw [Sent.acked, hn]
          exact Nat.min_le_left _ _
        omega
  · obtain ⟨send, now, clock, -, -, ⟨s, hs, hturn⟩, -⟩ := App.sent_apply ho.names hg.words hd
    obtain ⟨-, ha, -, -, -, -, hdesc⟩ := hturn.sent_inv (List.mem_singleton_self d)
    exact hdesc.batch (ha.cfg_eq ▸ hf.plain s hs (ha.consumer_eq ▸ hdc))

end Following

/-- In every run in which `c` stays a subscriber its batches begin right behind its
receipt and the engine skips nothing, as long as no purge of `c` meets a subscription
that is gone while another of its name is being delivered to. -/
theorem delivery_skips_nothing {V : Vendor} {st : Store} {listing : List Bytes} {n : ℕ}
    {ops : List PushOp} {c : Bytes} (hl : ∀ e ∈ listing, slash ∉ e) (hv : st.Enlisted)
    (hc : bjmConsumerValid c = true) (hplain : ∀ cfg, (c, cfg) ∈ st.bjmPushEach → cfg.group = [])
    (hrun : Along (pushExec V) (fun _ b op => Subscribing c b op ∧ PurgesIdle c b op) []
      (App.start st listing n) ops) :
    Each (fun h x => Advances c h x ∧ StartsBehind c x)
      (run (pushExec V) (App.start st listing n) ops).1 := by
  have hstart : Following c [] (App.start st listing n) := by
    refine ⟨fun t ht htc => ?_, fun x hx => absurd hx List.not_mem_nil, fun t ht _ htf => ?_⟩
    · refine hplain t.cfg ?_
      rw [← App.start_pairs _ n hl, ← htc]
      exact List.mem_map.mpr ⟨t, ht, rfl⟩
    · rw [(App.start_rested _ _ hl).idle t ht] at htf
      contradiction
  have hinv := invariant (I := fun h b => (Outstanding V h b.push ∧ Following c h b) ∧
      Each (fun h x => Advances c h x ∧ StartsBehind c x) h)
    ⟨⟨App.start_outstanding hl hv, hstart⟩, each_nil⟩ hrun fun h b op hg hi => by
      obtain ⟨⟨ho, hf⟩, he⟩ := hi
      exact ⟨⟨ho.step hg.1.words hg.1.named, hf.step ho hg.1 hc hg.2⟩,
        he.snoc (hf.advances_step ho hg.1 hc _ (List.mem_singleton_self _))⟩
  simpa using hinv.2

def Vendor.packing : Vendor :=
  { Vendor.silent with batchCount := fun log start _ => log.last + 1 - start }

/-- `billing` unregisters. -/
def deleteBilling (params : List (Bytes × Bytes)) : Request :=
  .plain (ascii "/push") ((ascii "consumer", ascii "billing") :: params)

/-- `billing` starts at the second message and is deleted during the delivery; it
registers again, is sent the message again, and is purged. -/
def purgeTwins : List PushOp :=
  [.publish 1 (ascii "orders") ⟨BJM_ENTRY_PLAIN, [7]⟩,
    .publish 1 (ascii "orders") ⟨BJM_ENTRY_PLAIN, [8]⟩,
    .put (putBilling [(ascii "from", ascii "2")]), .pump (fun _ => true) 2 2,
    .delete (deleteBilling []), .put (putBilling []), .pump (fun _ => true) 3 3,
    .delete (deleteBilling [(ascii "purge", ascii "1")])]

def purgedTwins : List PushOp := purgeTwins ++ [.delivered 4 1 ⟨true, 200, none, [], []⟩ 4]

def plainRun : List PushOp :=
  [.publish 1 (ascii "orders") ⟨BJM_ENTRY_PLAIN, [7]⟩, .put (putBilling []),
    .pump (fun _ => true) 2 2, .delivered 3 0 ⟨true, 200, none, [], []⟩ 3]

theorem subscribing_of_other {c : Bytes} {b : App} {op : PushOp} (hn : op.Named)
    (hw : b.store.Words) (hack : ∀ s c' i, op ≠ .ack s c' i)
    (hun : ∀ s c', op ≠ .unsubscribe s c') (hdel : ∀ clock id r now, op ≠ .delivered clock id r now)
    (hput : ∀ req, op = .put req →
      (registration req).toOption.map (fun r => r.cfg.group) = some []) : Subscribing c b op where
  named := hn
  words := hw
  outstanding clock id r now h := absurd h (hdel _ _ _ _)
  acks s c' i h := absurd h (hack _ _ _)
  kept s c' h := absurd h (hun _ _)
  plain req r h hr _ := by
    have := hput req h
    rw [hr] at this
    simpa [Except.toOption] using this

theorem subscribing_delivered {c : Bytes} {b : App} {clock id now : ℕ} {r : Reply}
    (hw : b.store.Words) (h : (b.push.subs.any fun s => s.id == id && s.inflight) = true) :
    Subscribing c b (.delivered clock id r now) where
  named := trivial
  words := hw
  outstanding _ _ _ _ he := by
    obtain ⟨-, rfl, -, -⟩ := PushOp.delivered.inj he
    exact Pusher.outstanding_of_any h
  acks := nofun
  kept := nofun
  plain := nofun

/-- The reply moves the receipt from 0 to 2, though the first message was never sent
since the receipts were purged. -/
theorem purgedTwins_skip :
    Along (pushExec .packing) (fun _ b op => Subscribing (ascii "billing") b op) []
      (App.start .empty [] 0) purgedTwins ∧
    ¬ Each (fun h x => Advances (ascii "billing") h x ∧ StartsBehind (ascii "billing") x)
      (run (pushExec .packing) (App.start .empty [] 0) purgedTwins).1 := by
  have hnamed : bjmSubjectValid (ascii "orders") = true := by decide
  refine ⟨⟨subscribing_of_other hnamed (words_of_logs ?_) nofun nofun nofun nofun,
    subscribing_of_other hnamed (words_of_logs ?_) nofun nofun nofun nofun,
    subscribing_of_other trivial (words_of_logs ?_) nofun nofun nofun ?_,
    subscribing_of_other trivial (words_of_logs ?_) nofun nofun nofun nofun,
    subscribing_of_other trivial (words_of_logs ?_) nofun nofun nofun nofun,
    subscribing_of_other trivial (words_of_logs ?_) nofun nofun nofun ?_,
    subscribing_of_other trivial (words_of_logs ?_) nofun nofun nofun nofun,
    subscribing_of_other trivial (words_of_logs ?_) nofun nofun nofun nofun,
    subscribing_delivered (words_of_logs ?_) ?_, trivial⟩, fun h => ?_⟩
  · decide +kernel
  · decide +kernel
  · decide +kernel
  · rintro req ⟨rfl⟩
    decide +kernel
  · decide +kernel
  · decide +kernel
  · decide +kernel
  · rintro req ⟨rfl⟩
    decide +kernel
  · decide +kernel
  · decide +kernel
  · decide +kernel
  · decide +kernel
  · have hstep := (h (run (pushExec .packing) (App.start .empty [] 0) purgeTwins).1 _ [] rfl).1
      (.inr ⟨_, _, _, _, rfl⟩) (ascii "orders") (by decide) (by decide +kernel)
    rcases hstep.2 1 (by decide +kernel) (by decide +kernel) with hbase | ⟨clock, id, r, now, d, hop, hd,
      hcov⟩
    · revert hbase
      decide +kernel
    · obtain ⟨-, rfl, -, -⟩ := PushOp.delivered.inj hop
      have hfirst : (lastSent (run (pushExec .packing) (App.start .empty [] 0) purgeTwins).1 1).map
          (fun d => d.sub.first) = some 2 := by decide +kernel
      rw [hd, Option.map_some, Option.some.injEq] at hfirst
      have := hcov.first
      omega

/-- `billing` is deleted during its second delivery, registers again, and is purged while the new
registration is idle. -/
def idleTwins : List PushOp :=
  plainRun ++ [.publish 4 (ascii "orders") ⟨BJM_ENTRY_PLAIN, [8]⟩, .pump (fun _ => true) 4 4,
    .delete (deleteBilling []), .put (putBilling []),
    .delete (deleteBilling [(ascii "purge", ascii "1")]),
    .delivered 5 0 ⟨true, 200, none, [], []⟩ 5, .pump (fun _ => true) 6 6]

theorem purgesIdle_of_other {c : Bytes} {b : App} {op : PushOp} (h : ∀ req, op ≠ .delete req) :
    PurgesIdle c b op := fun ⟨req, hop, _⟩ => absurd hop (h req)

theorem purgesIdle_of_idle {c : Bytes} {b : App} {op : PushOp}
    (h : (b.push.subs.all fun t => t.consumer != c || t.gone || !t.inflight) = true) :
    PurgesIdle c b op := by
  intro _ _ _ _ t ht hc hg
  simpa [hc, hg] using List.all_eq_true.mp h t ht

theorem idleTwins_advance :
    Each (fun h x => Advances (ascii "billing") h x ∧ StartsBehind (ascii "billing") x)
      (run (pushExec .packing) (App.start .empty [] 0) idleTwins).1 := by
  have hnamed : bjmSubjectValid (ascii "orders") = true := by decide
  have hput : ∀ req, PushOp.put (putBilling []) = .put req →
      (registration req).toOption.map (fun r => r.cfg.group) = some [] := by
    rintro req ⟨rfl⟩
    decide +kernel
  refine delivery_skips_nothing (by simp) (fun k r h => by simp [Store.empty] at h) (by decide)
    (fun cfg h => ?_)
    ⟨⟨subscribing_of_other hnamed (words_of_logs ?_) nofun nofun nofun nofun,
      purgesIdle_of_other nofun⟩,
    ⟨subscribing_of_other trivial (words_of_logs ?_) nofun nofun nofun hput,
      purgesIdle_of_other nofun⟩,
    ⟨subscribing_of_other trivial (words_of_logs ?_) nofun nofun nofun nofun,
      purgesIdle_of_other nofun⟩,
    ⟨subscribing_delivered (words_of_logs ?_) ?_, purgesIdle_of_other nofun⟩,
    ⟨subscribing_of_other hnamed (words_of_logs ?_) nofun nofun nofun nofun,
      purgesIdle_of_other nofun⟩,
    ⟨subscribing_of_other trivial (words_of_logs ?_) nofun nofun nofun nofun,
      purgesIdle_of_other nofun⟩,
    ⟨subscribing_of_other trivial (words_of_logs ?_) nofun nofun nofun nofun, ?_⟩,
    ⟨subscribing_of_other trivial (words_of_logs ?_) nofun nofun nofun hput,
      purgesIdle_of_other nofun⟩,
    ⟨subscribing_of_other trivial (words_of_logs ?_) nofun nofun nofun nofun,
      purgesIdle_of_idle ?_⟩,
    ⟨subscribing_delivered (words_of_logs ?_) ?_, purgesIdle_of_other nofun⟩,
    ⟨subscribing_of_other trivial (words_of_logs ?_) nofun nofun nofun nofun,
      purgesIdle_of_other nofun⟩, trivial⟩
  · have hnone : Store.empty.bjmPushEach = [] := by decide +kernel
    rw [hnone] at h
    exact absurd h List.not_mem_nil
  all_goals try decide +kernel
  -- the first deletion purges nothing
  rintro ⟨req, ⟨rfl⟩, -, hpurge⟩
  revert hpurge
  decide +kernel

end SukkalMsg
