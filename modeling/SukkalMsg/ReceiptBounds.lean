import SukkalMsg.IdempotentPublish
import SukkalMsg.PushStart
import SukkalMsg.RequestCalls

/-!
# Receipts and the ends of the logs

A receipt says how far a consumer has read, so it should not pass the end of its
log. A reply acknowledges no more than was sent, and a seed is an end of the log.
An acknowledgement by request is stored as it comes.
-/

namespace SukkalMsg

open Std Names Binjson OrderedScan Store ActionRuns

namespace Store

/-- Every receipt is within its log. -/
def Within (st : Store) : Prop := ∀ s c, slash ∉ s → st.receiptOf s c ≤ (st.logOf s).last

variable {V : Vendor} {st st' : Store}

theorem receiptOf_le {s c : Bytes} {r : Record} (h : st.cursors[pairKey s c]? = some r)
    (h' : st'.cursors[pairKey s c]? = some r) : st'.receiptOf s c = st.receiptOf s c := by
  simp only [receiptOf, h, h']

theorem Within.makes {call : StoreCall} (hw : st.Within) (h : call.Makes V st st')
    (hset : ∀ s c n, call = .cursorSet s c n → slash ∉ s ∧ n ≤ (st.logOf s).last) : st'.Within := by
  intro s c hs
  refine Nat.le_trans ?_ (h.onward.last s)
  cases hr : st'.cursors[pairKey s c]? with
  | none => simp [receiptOf, hr]
  | some r =>
    rcases h.cursors_written hr with hold | ⟨s', c', n, hcall, -, hk, rfl⟩
    · rw [receiptOf_le hold hr]
      exact hw s c hs
    · obtain ⟨hs', hn⟩ := hset s' c' n hcall
      obtain ⟨rfl, rfl⟩ := pairKey_injective hs hs' hk
      have hrec : st'.receiptOf s c = u64 n := by
        simp [receiptOf, hr, ofDouble_toInt64_eq]
      rw [hrec]
      exact Nat.le_trans (Nat.mod_le n _) hn

theorem bjmLastIndex_le (st : Store) (s : Bytes) : st.bjmLastIndex s ≤ (st.logOf s).last := by
  simp only [bjmLastIndex]
  split
  · exact Nat.zero_le _
  · rename_i hget
    rw [(subjectGet_logOf hget).2.2]

end Store

theorem subjectAt_valid {req : Request} {pre subject : Bytes} (h : subjectAt req pre = .ok subject) :
    bjmSubjectValid subject = true := by
  simp only [subjectAt, subjectOf] at h
  split at h
  · contradiction
  · rename_i hs
    split at hs
    · rename_i hvalid
      obtain rfl := Except.ok.inj h
      obtain rfl := Except.ok.inj hs
      exact hvalid
    · contradiction

theorem consumerTarget_valid {req : Request} {pre subject consumer : Bytes}
    (h : consumerTarget req pre = .ok (subject, consumer)) : bjmSubjectValid subject = true := by
  simp only [consumerTarget] at h
  split at h
  · contradiction
  · rename_i hs
    split at h
    · contradiction
    · contradiction
    · obtain rfl := (Prod.mk.inj (Except.ok.inj h)).1
      exact subjectAt_valid hs

theorem ackTarget_valid {req : Request} {subject consumer : Bytes}
    (h : ackTarget req = some (subject, consumer)) : bjmSubjectValid subject = true := by
  simp only [ackTarget] at h
  split at h
  · split at h
    · rename_i hvalid
      obtain ⟨rfl, -⟩ := Prod.mk.inj (Option.some.inj h)
      exact (Bool.and_eq_true _ _ ▸ hvalid).1
    · contradiction
  · contradiction

namespace Handler

variable {H : Host} {b : App} {now : ℕ} {req : Request} {h : Handler} {st : Store}
  {subject consumer : Bytes} {index : ℕ}

theorem Acknowledges.valid (ha : h.Acknowledges H b now req st subject consumer index) :
    bjmSubjectValid subject = true := by
  cases h with
  | hAck => exact consumerTarget_valid ha.2.1
  | hSubscribe => exact subjectAt_valid ha.2.1
  | hPublish =>
    obtain ⟨p, r, -, -, htarget, -⟩ := ha
    exact ackTarget_valid htarget
  | _ => exact ha.elim

theorem Begins.within (hb : h.Begins b req st subject consumer index)
    (hn : ∀ name ∈ b.push.names, slash ∉ name)
    (hfrom : h = hPushPut → req.queryU64 (ascii "from") 0 ≤ 1) :
    slash ∉ subject ∧ index ≤ (st.logOf subject).last := by
  have hend : index = 0 ∨ index = st.bjmLastIndex subject → index ≤ (st.logOf subject).last := by
    rintro (rfl | rfl)
    · exact Nat.zero_le _
    · exact st.bjmLastIndex_le subject
  cases h with
  | hSubscribe => exact ⟨slash_notMem_of_nameValid (subjectAt_valid hb.1), hend hb.2⟩
  | hPushPut =>
    obtain ⟨⟨r, -, -, hplace⟩, hindex⟩ := hb
    refine ⟨hn subject hplace.name, hend ?_⟩
    rcases hindex with hz | hl | ⟨-, hlt, -⟩
    · exact .inl hz
    · exact .inr hl
    · have := hfrom rfl
      omega
  | _ => exact hb.elim

end Handler

/-- No request acknowledges past the end of the log, as the log then is. -/
def ServeOp.AcksWithin (H : Host) (b : App) : ServeOp → Prop
  | .request now method req => ∀ h, sukkalRoute method req.path = some h → ∀ st s c n,
    h.Acknowledges H b now req st s c n → n ≤ (st.logOf s).last
  | _ => True

/-- A registration does not say where to start by an index. -/
def ServeOp.Unplaced : ServeOp → Prop
  | .request _ method req => sukkalRoute method req.path = some .hPushPut →
    req.queryU64 (ascii "from") 0 ≤ 1
  | _ => True

/-- Indexes are words, and a reply answers a delivery that is outstanding. -/
structure Serving (b : App) (op : ServeOp) : Prop where
  words : b.store.Words
  outstanding : ∀ clock id r now, op = .delivered clock id r now →
    ∀ s ∈ b.push.subs, s.id = id → s.inflight = true

/-- Receipts and outstanding deliveries are within the logs. -/
structure App.Within (b : App) : Prop where
  receipts : b.store.Within
  flights : ∀ t ∈ b.push.subs, t.inflight = true →
    slash ∉ t.subject ∧ t.last ≤ (b.store.logOf t.subject).last
  names : ∀ name ∈ b.push.names, slash ∉ name

namespace App.Within

variable {H : Host} {b : App} {st : Store} {p : Pusher}

theorem moved (hw : b.Within) (hst : st.Within) (ho : b.store.Onward st)
    (hn : ∀ name ∈ p.names, slash ∉ name)
    (hsubs : ∀ t' ∈ p.subs, t'.inflight = true → ∃ t ∈ b.push.subs, t.inflight = true ∧
      t.subject = t'.subject ∧ t.last = t'.last) : (⟨st, p⟩ : App).Within := by
  refine ⟨hst, fun t' ht' hf' => ?_, hn⟩
  obtain ⟨t, ht, hf, hs, hl⟩ := hsubs t' ht' hf'
  obtain ⟨hslash, hlast⟩ := hw.flights t ht hf
  rw [← hs, ← hl]
  exact ⟨hslash, Nat.le_trans hlast (ho.last _)⟩

theorem handled (hw : b.Within) {now : ℕ} {req : Request} {h : Handler}
    (hack : ∀ st s c n, h.Acknowledges H b now req st s c n → n ≤ (st.logOf s).last)
    (hfrom : h = .hPushPut → req.queryU64 (ascii "from") 0 ≤ 1) :
    (h.run H b now req).2.store.Within ∧ b.store.Onward (h.run H b now req).2.store := by
  refine (h.calls H b now req).preserves (fun st => st.Within ∧ b.store.Onward st)
    ⟨hw.receipts, .refl⟩ fun st call st' hst hask hm => ?_
  refine ⟨hst.1.makes hm fun s c n hcall => ?_, hst.2.trans hm.onward⟩
  subst hcall
  rcases hask with hask | hask
  · exact ⟨slash_notMem_of_nameValid hask.valid, hack _ _ _ _ hask⟩
  · exact hask.within hw.names hfrom

theorem request (hw : b.Within) {now : ℕ} {method : Bytes} {req : Request}
    (hack : (ServeOp.request now method req).AcksWithin H b)
    (hfrom : (ServeOp.request now method req).Unplaced) :
    (b.dispatch H now method req).2.Within := by
  rcases dispatch_cases H b now method req with
    ⟨h, hroute, heq⟩ | ⟨-, heq⟩
  · rw [heq]
    obtain ⟨hst, ho⟩ := hw.handled (hack h hroute) (fun he => hfrom (he ▸ hroute))
    rcases h.push_cases H b now req with hl | ⟨-, r, p, -, hl, hadd⟩ | ⟨-, c, -, hrem⟩
    · exact hw.moved hst ho (hl.slash_notMem hw.names) fun t ht hf =>
        ⟨t, hl.subs_eq ▸ ht, hf, rfl, rfl⟩
    · refine hw.moved hst ho ?_ fun t' ht' hf' => ?_
      · rw [hadd]
        rcases p.add_cases r.consumer r.cfg with ⟨_, _, _, -, -, -, heq'⟩ | ⟨-, heq'⟩ <;>
          · rw [heq']
            exact hl.slash_notMem hw.names
      · rw [hadd] at ht'
        rcases p.add_cases r.consumer r.cfg with ⟨pre, t, suf, hsubs, -, -, heq'⟩ | ⟨-, heq'⟩
        · rw [heq'] at ht'
          have hmem : ∀ u ∈ pre ++ t :: suf, u ∈ b.push.subs := fun u hu =>
            hl.subs_eq ▸ hsubs ▸ hu
          rcases List.mem_append.mp ht' with hm | hm
          · exact ⟨t', hmem _ (List.mem_append_left _ hm), hf', rfl, rfl⟩
          · rcases List.mem_cons.mp hm with rfl | hm
            · exact ⟨t, hmem _ (by simp), hf', rfl, rfl⟩
            · exact ⟨t', hmem _ (List.mem_append_right _ (List.mem_cons_of_mem _ hm)), hf', rfl, rfl⟩
        · rw [heq'] at ht'
          rcases List.mem_append.mp ht' with hm | hm
          · exact ⟨t', hl.subs_eq ▸ hm, hf', rfl, rfl⟩
          · obtain rfl := List.mem_singleton.mp hm
            contradiction
    · refine hw.moved hst ho ?_ fun t' ht' hf' => ?_
      · rw [hrem]
        rcases b.push.remove_cases c with ⟨heq', -⟩ | ⟨_, _, _, -, -, -, ⟨-, heq'⟩ | ⟨-, _, -, heq'⟩⟩ <;>
          · rw [heq']
            exact hw.names
      · rw [hrem] at ht'
        rcases b.push.remove_cases c with ⟨heq', -⟩ | ⟨pre, t, suf, hsubs, -, -, ⟨hf, heq'⟩ |
          ⟨-, suf', hperm, heq'⟩⟩
        · exact ⟨t', heq' ▸ ht', hf', rfl, rfl⟩
        · rw [heq'] at ht'
          rcases List.mem_append.mp ht' with hm | hm
          · exact ⟨t', by simp [hsubs, hm], hf', rfl, rfl⟩
          · rcases List.mem_cons.mp hm with rfl | hm
            · exact ⟨t, by simp [hsubs], hf, rfl, rfl⟩
            · exact ⟨t', by simp [hsubs, hm], hf', rfl, rfl⟩
        · rw [heq'] at ht'
          rcases List.mem_append.mp ht' with hm | hm
          · exact ⟨t', by simp [hsubs, hm], hf', rfl, rfl⟩
          · exact ⟨t', by simp [hsubs, hperm.mem_iff.mp hm], hf', rfl, rfl⟩
  · rw [heq]
    exact hw

theorem sweep (hw : b.Within) (nowS : ℕ) :
    (⟨(b.store.bjmRetentionRun H.vendor nowS).2.2, b.push⟩ : App).Within := by
  obtain ⟨hst, ho⟩ := (b.store.retentionRun_calls H.vendor nowS).preserves
    (fun st => st.Within ∧ b.store.Onward st) ⟨hw.receipts, .refl⟩
    fun st call st' hst hask hm => ⟨hst.1.makes hm fun s c n hcall => by
      subst hcall
      exact hask.elim, hst.2.trans hm.onward⟩
  exact hw.moved hst ho hw.names fun t ht hf => ⟨t, ht, hf, rfl, rfl⟩

theorem passed {who : Bytes → Prop} {st' : Store} (hst : st.Within) (h : Passed who st st') :
    st'.Within := by
  intro s c hs
  have hlast := h.last_le s
  rcases h.receipt s c hs with hr | ⟨-, hr⟩
  · rw [hr]
    exact Nat.le_trans (hst s c hs) hlast
  · rw [hr]
    simp only [Elog.last] at hlast ⊢
    omega

theorem pump (hV : H.vendor.KeepsNames) (hw : b.Within) (hs : b.store.Words) (send : Psub → Bool)
    (now clock : ℕ) :
    (b.pump H.vendor send now clock).app.Within := by
  rcases b.pump_cases H.vendor send now clock hw.names hs with
    ⟨-, heq⟩ | ⟨-, ss', ds, st, p', w, -, happ, hturns, hpass, hpush, hds⟩
  · rw [heq]
    exact hw
  · rw [happ]
    refine ⟨passed hw.receipts hpass, fun t' ht' hf' => ?_, hpush.slash_notMem hw.names⟩
    obtain ⟨t, ht, l, hturn, hsub⟩ := hturns.turn_of_mem ht'
    cases hturn with
    | skipped h =>
      obtain ⟨hslash, hlast⟩ := hw.flights t' ht hf'
      exact ⟨hslash, Nat.le_trans hlast (hpass.last_le _)⟩
    | asked _ _ hf =>
      rw [hf] at hf'
      contradiction
    | @sent d _ _ _ _ _ hd =>
      obtain ⟨-, hend⟩ := hds d (hsub (List.mem_singleton_self d))
      obtain ⟨hslash, hlast⟩ := hd.within (.inr hV)
      exact ⟨hslash, Nat.le_trans hlast (hend.last_le _)⟩

theorem ackOf_le (s : Psub) : s.ackOf ≤ s.last := by
  simp only [Psub.ackOf]
  split
  · exact Nat.le_refl _
  · exact Nat.min_le_right _ _

theorem delivered (hw : b.Within) (clock id : ℕ) (r : Reply) (now : ℕ)
    (hout : ∀ s ∈ b.push.subs, s.id = id → s.inflight = true) :
    (b.delivered clock id r now).Within := by
  rcases b.delivered_cases clock id r now with ⟨heq, -⟩ | ⟨pre, t, suf, hsubs, hid,
    ⟨-, suf', hperm, heq⟩ | ⟨-, x, hx, heq⟩⟩
  · rw [heq]
    exact hw
  · rw [heq]
    refine hw.moved hw.receipts .refl hw.names fun t' ht' hf' => ⟨t', ?_, hf', rfl, rfl⟩
    rcases List.mem_append.mp ht' with hm | hm
    · simp [hsubs, hm]
    · simp [hsubs, hperm.mem_iff.mp hm]
  · have ht : t ∈ b.push.subs := by simp [hsubs]
    obtain ⟨hslash, hlast⟩ := hw.flights t ht (hout t ht hid)
    have hst : x.store.Within ∧ b.store.Onward x.store := by
      have hcases := Psub.settle_cases clock b.store ({ t.hear r with inflight := false } : Psub) r now
      rw [← hx] at hcases
      rcases hcases with hsame | ⟨-, -, -, hset⟩ | ⟨-, hset⟩
      · rw [hsame]
        exact ⟨hw.receipts, .refl⟩
      · have hmakes : (StoreCall.cursorSet _ _ _).Makes .silent b.store x.store := hset
        refine ⟨hw.receipts.makes hmakes fun s c n hcall => ?_, hmakes.onward⟩
        obtain ⟨rfl, -, rfl⟩ := StoreCall.cursorSet.inj hcall
        have hack := ackOf_le ({ t.hear r with inflight := false } : Psub)
        rw [t.hear_same r] at hack ⊢
        exact ⟨hslash, Nat.le_trans hack hlast⟩
      · have hon : b.store.Onward x.store := .of_logs (by rw [hset.same])
        refine ⟨fun s c hs => ?_, hon⟩
        rw [receiptOf_congr (by rw [hset.same])]
        exact Nat.le_trans (hw.receipts s c hs) (hon.last s)
    rw [heq]
    refine hw.moved hst.1 hst.2 hw.names fun t' ht' hf' => ?_
    rcases List.mem_append.mp ht' with hm | hm
    · exact ⟨t', by simp [hsubs, hm], hf', rfl, rfl⟩
    · rcases List.mem_cons.mp hm with rfl | hm
      · rw [hx, (Psub.replied_settle clock b.store t r now).inflight_eq] at hf'
        contradiction
      · exact ⟨t', by simp [hsubs, hm], hf', rfl, rfl⟩

theorem serve (hV : H.vendor.KeepsNames) (hw : b.Within) {op : ServeOp} (hs : Serving b op)
    (hack : op.AcksWithin H b) (hfrom : op.Unplaced) : (b.serve H op).2.Within := by
  cases op with
  | request now method req => exact hw.request hack hfrom
  | sweep nowS => exact hw.sweep nowS
  | pump send now clock => exact hw.pump hV hs.words send now clock
  | delivered clock id r now => exact hw.delivered clock id r now (hs.outstanding clock id r now rfl)

end App.Within

theorem App.start_within {st : Store} {listing : List Bytes} {n : ℕ} (hst : st.Within)
    (hl : ∀ e ∈ listing, slash ∉ e) : (start st listing n).Within := by
  have hrest := start_rested st n hl
  refine ⟨hst, fun t ht hf => ?_, hrest.names⟩
  rw [hrest.idle t ht] at hf
  contradiction

/-- As long as nobody acknowledges past the end of a log and the names are read as they stand, no
receipt is past it in any state a run reaches, and the next message is above every receipt. -/
theorem receipts_within_logs {H : Host} (hV : H.vendor.KeepsNames) {st : Store}
    {listing : List Bytes} (n : ℕ) {ops : List ServeOp} (hst : st.Within)
    (hl : ∀ e ∈ listing, slash ∉ e)
    (ha : Along (App.serve H) (fun _ b op => Serving b op ∧ op.AcksWithin H b ∧ op.Unplaced) []
      (App.start st listing n) ops) :
    let b := (run (App.serve H) (App.start st listing n) ops).2
    ∀ s c, slash ∉ s → b.store.receiptOf s c ≤ (b.store.logOf s).last ∧
      ∀ now e i st', b.store.bjmPublish now s e = .ok (i, st') → b.store.receiptOf s c < i := by
  intro b s c hs
  have hw : b.Within := invariant (I := fun _ b => b.Within) (App.start_within hst hl) ha
    fun _ _ op hg hw => hw.serve hV hg.1 hg.2.1 hg.2.2
  have hle := hw.receipts s c hs
  refine ⟨hle, fun now e i st' hpub => ?_⟩
  rw [(bjmPublish_eq hpub).1]
  exact Nat.lt_succ_of_le hle

/-- A host without a listing, where no message is an envelope. -/
def plainHost (V : Vendor) : Host where
  vendor := V
  decode := fun _ => .error .verify
  listing := none
  backend := []
  connections := 0
  startedS := 0

/-- One order is published, and the fifth is acknowledged. -/
def ackAhead : List ServeOp :=
  [.request 1 POST (order none),
    .request 2 POST (.plain (ascii "/ack/orders")
      [(ascii "consumer", ascii "billing"), (ascii "index", ascii "5")])]

theorem serving_of_request {b : App} {now : ℕ} {method : Bytes} {req : Request}
    (hw : b.store.Words) : Serving b (.request now method req) := ⟨hw, nofun⟩

/-- Both requests are answered with success, and the receipt is past the log. -/
theorem ackAhead_passes_log :
    Along (App.serve (plainHost wholeBodies)) (fun _ b op => Serving b op ∧ op.Unplaced) []
      (App.start .empty [] 0) ackAhead ∧
    (run (App.serve (plainHost wholeBodies)) (App.start .empty [] 0) ackAhead).1.map
      Response.status = [200, 200] ∧
    ¬ ∀ s c, slash ∉ s →
      (run (App.serve (plainHost wholeBodies)) (App.start .empty [] 0) ackAhead).2.store.receiptOf
        s c ≤
      ((run (App.serve (plainHost wholeBodies)) (App.start .empty [] 0) ackAhead).2.store.logOf
        s).last := by
  refine ⟨⟨⟨serving_of_request (words_of_logs ?_), ?_⟩, ⟨serving_of_request (words_of_logs ?_), ?_⟩,
    trivial⟩, ?_, fun h => ?_⟩
  · decide +kernel
  · exact fun hroute => absurd hroute (by decide +kernel)
  · decide +kernel
  · exact fun hroute => absurd hroute (by decide +kernel)
  · decide +kernel
  · have hle := h (ascii "orders") (ascii "billing") (by decide)
    revert hle
    decide +kernel

/-- An order is published and acknowledged at once, and then swept. -/
def ackOwn : List ServeOp := [.request 1 POST (order (some (ascii "orders"))), .sweep 5]

theorem ackOwn_within :
    (run (App.serve (plainHost wholeBodies)) (App.start .empty [] 0) ackOwn).2.store.receiptOf
        (ascii "orders") (ascii "billing") ≤
      ((run (App.serve (plainHost wholeBodies)) (App.start .empty [] 0) ackOwn).2.store.logOf
        (ascii "orders")).last := by
  have hroute : sukkalRoute POST (order (some (ascii "orders"))).path = some .hPublish := by
    decide +kernel
  have hack : (ServeOp.request 1 POST (order (some (ascii "orders")))).AcksWithin
      (plainHost wholeBodies) (App.start .empty [] 0) := by
    intro h hh st s c n hack
    obtain rfl := Option.some.inj (hroute.symm.trans hh)
    obtain ⟨p, r, hp, hr, htarget, -, rfl⟩ := hack
    obtain rfl := Except.ok.inj ((publication_order _).symm.trans hp)
    have htarget' : ackTarget (order (some (ascii "orders"))) =
        some (ascii "orders", ascii "billing") := by decide +kernel
    obtain ⟨rfl, rfl⟩ := Prod.mk.inj (Option.some.inj (htarget'.symm.trans htarget))
    obtain rfl := (congrArg Prod.snd hr).symm
    decide +kernel
  have ha : Along (App.serve (plainHost wholeBodies))
      (fun _ b op => Serving b op ∧ op.AcksWithin (plainHost wholeBodies) b ∧ op.Unplaced) []
      (App.start .empty [] 0) ackOwn := by
    refine ⟨⟨serving_of_request (words_of_logs ?_), hack, fun h => ?_⟩,
      ⟨⟨words_of_logs ?_, nofun⟩, trivial, trivial⟩, trivial⟩
    · decide +kernel
    · rw [hroute] at h
      contradiction
    · decide +kernel
  have hempty : Store.empty.Within := fun s c _ => by simp [receiptOf, Store.empty]
  exact (receipts_within_logs (H := plainHost wholeBodies) (fun _ _ => rfl) 0 hempty (by simp) ha
    (ascii "orders")
    (ascii "billing") (by decide)).1

end SukkalMsg
