import SukkalMsg.Flights
import SukkalMsg.Legibility
import SukkalMsg.PassRules
import SukkalMsg.PushProgress
import SukkalMsg.ReceiptMap
import SukkalMsg.RepeatedCalls
import SukkalMsg.RetrySafety

/-!
# What a receipt holds

An unforced trim stops at the receipts of its subject. So while a receipt stays where it
is or moves on, the log keeps every message above it: nothing else that the broker does
takes a message away.
-/

namespace SukkalMsg

open Std Names Binjson OrderedScan BoundedTable Store ActionRuns

/-- The consumer has a receipt on the subject, for `n` at least, and the log, which once
began at `k`, has not been trimmed past it. -/
def Store.HeldAt (s c : Bytes) (k n : ℕ) (st : Store) : Prop :=
  ∃ m, n ≤ m ∧ m < 2 ^ 64 ∧ st.cursors[pairKey s c]? = some (indexRecord m) ∧
    (st.logOf s).base ≤ max m k

namespace Store.HeldAt

variable {s c : Bytes} {k n : ℕ} {st st' : Store}

theorem congr (h : HeldAt s c k n st)
    (hc : st'.cursors[pairKey s c]? = st.cursors[pairKey s c]?)
    (hb : (st'.logOf s).base = (st.logOf s).base) : HeldAt s c k n st' := by
  obtain ⟨m, hn, hm, hget, hbase⟩ := h
  exact ⟨m, hn, hm, hc.trans hget, hb ▸ hbase⟩

theorem purge (h : HeldAt s c k n st) {c' : Bytes} (hother : heldBy c' (pairKey s c) = false) :
    HeldAt s c k n (st.bjmCursorDeleteConsumer c').2 := by
  refine h.congr ?_ rfl
  simp only [bjmCursorDeleteConsumer, ExtTreeMap.getElem?_filter', hother, Bool.not_false]
  cases st.cursors[pairKey s c]? <;> rfl

theorem cursorSet (h : HeldAt s c k n st) {s' c' : Bytes} {i : ℕ} (hi : i < 2 ^ 64)
    (hset : st.bjmCursorSet s' c' i = .ok st') : HeldAt s c k n st' := by
  obtain ⟨m, hn, hm, hget, hbase⟩ := h
  rcases bjmCursorSet_eq hset with ⟨rfl, -⟩ | ⟨rfl, hold⟩
  · exact ⟨m, hn, hm, hget, hbase⟩
  · by_cases hkey : pairKey s' c' = pairKey s c
    · have hown : st.receiptOf s' c' = m := by
        simp [receiptOf, hkey, hget, ofDouble_toInt64 hm]
      have hlt : m < i := by
        rcases hold with hold | ⟨-, hold⟩
        · simp only [bjmCursorGet] at hold
          split at hold
          · contradiction
          · rename_i key hk
            obtain rfl := boundedKey_eq hk
            rw [hkey, hget] at hold
            cases hd : decodeIndex (indexRecord m) <;> simp [hd, Except.map] at hold
        · omega
      have hpast : (st.logOf s).base ≤ max i k := by omega
      refine ⟨i, by omega, hi, ?_, hpast⟩
      rw [getElem?_insert, if_pos hkey]
    · refine ⟨m, hn, hm, ?_, hbase⟩
      rw [getElem?_insert, if_neg hkey]
      exact hget

/-- An unforced trim stops at the receipt; one that does not read back is past the log. -/
theorem trim (h : HeldAt s c k n st) (hs : slash ∉ s) (hlast : (st.logOf s).last < 2 ^ 53)
    {s' : Bytes} {before base removed : ℕ} {force : Bool} (hf : s' = s → force = false)
    (htrim : st.bjmTrim s' before force = .ok (base, removed, st')) : HeldAt s c k n st' := by
  have htrees := (bjmTrim_trees htrim).1
  by_cases hne : s' = s
  · subst hne
    rw [hf rfl] at htrim
    obtain ⟨m, hn, hm, hget, hbase⟩ := h
    refine ⟨m, hn, hm, by rw [htrees]; exact hget, ?_⟩
    obtain ⟨heq, -, -⟩ := bjmTrim_eq htrim
    obtain ⟨hbase', -, -, -, -⟩ := bjmTrim_log htrim
    rw [hbase', heq]
    refine Nat.max_le.mpr ⟨hbase, Nat.le_trans ?_ (Nat.le_max_left m k)⟩
    have htarget := st.trimTarget_le s' (st.logOf s').last before false
    by_cases hr : Readable (indexRecord m)
    · have hmem : m ∈ st.acks s' := by
        simp only [acks, List.mem_filterMap]
        refine ⟨(pairKey s' c, indexRecord m), (mem_subjectRange hs hs).mpr ⟨rfl, hget⟩, ?_⟩
        simp [decodeIndex_eq _ hr, ofDouble_toInt64 hm, Except.toOption]
      have hleast := (foldl_min_isLeast (st.acks s' ++ st.queueFloors s') UINT64_MAX).2
        (.inr (List.mem_append_left _ hmem))
      rw [← trimProtect_eq] at hleast
      have hmax : UINT64_MAX = 2 ^ 64 - 1 := rfl
      simp only [trimTarget, Bool.false_eq_true, if_false]
      split <;> omega
    · have hbig : 2 ^ 53 ≤ m := by
        by_contra hsmall
        refine hr (readable_indexRecord ?_)
        simp only [putInt, Item.Safe, toInt64, u64, MAX_SAFE_INT]
        omega
      omega
  · refine h.congr (by rw [htrees]) ?_
    rw [bjmTrim_others htrim (Ne.symm hne)]

end Store.HeldAt

namespace StoreCall

/-- A call that neither deletes the receipt nor trims leaves its log held. -/
theorem Makes.held {V : Vendor} {st st' : Store} {call : StoreCall} (h : call.Makes V st st')
    {s c : Bytes} {k n : ℕ} (hset : ∀ s' c' i, call = .cursorSet s' c' i → i < 2 ^ 64)
    (hdel : ∀ s' c', call = .cursorDelete s' c' → pairKey s' c' ≠ pairKey s c)
    (hpurge : ∀ c', call = .cursorDeleteConsumer c' → heldBy c' (pairKey s c) = false)
    (htrim : ∀ s' before force, call ≠ .trim s' before force)
    (hh : st.HeldAt s c k n) : st'.HeldAt s c k n := by
  have hsame : st'.cursors = st.cursors → st'.logs = st.logs → st'.HeldAt s c k n := fun hc hl =>
    hh.congr (by rw [hc]) (by simp only [logOf, hl])
  cases call with
  | publish now name e =>
    obtain ⟨index, hpub⟩ := h
    obtain ⟨-, hlogs, hmarks⟩ := bjmPublish_eq hpub
    refine hh.congr (by rw [hmarks.cursors_eq]) ?_
    rw [logOf_insert hlogs]
    split
    · rename_i hname
      rw [Elog.append_base, hname]
    · rfl
  | dedup => exact hsame (DedupOnly.cursors_eq h) (DedupOnly.logs_eq h)
  | cursorSet s' c' i => exact hh.cursorSet (hset s' c' i rfl) h
  | cursorDelete s' c' =>
    obtain ⟨deleted, hgone⟩ := h
    simp only [bjmCursorDelete] at hgone
    split at hgone
    · contradiction
    rename_i key hk
    obtain rfl := boundedKey_eq hk
    split at hgone
    · obtain ⟨-, rfl⟩ := Prod.mk.inj (Except.ok.inj hgone)
      refine hh.congr ?_ rfl
      rw [getElem?_erase, if_neg (hdel s' c' rfl)]
    · obtain ⟨-, rfl⟩ := Prod.mk.inj (Except.ok.inj hgone)
      exact hh
  | cursorDeleteConsumer c' =>
    obtain rfl := h
    exact hh.purge (hpurge c' rfl)
  | trim s' before force => exact absurd rfl (htrim s' before force)
  | take now s' g max lease =>
    obtain ⟨t, htake, rfl⟩ := h
    have hpass := passed_take htake
    exact hh.congr (passed_cursors hpass _) (hpass.base s)
  | release now s' g i drop delay =>
    obtain ⟨x, hx, rfl⟩ := h
    refine hsame (release_cursors hx) ?_
    obtain ⟨q, existed, -, ⟨heq, -⟩ | ⟨pre, e, suf, q', -, -, -, -, heq, -⟩⟩ := queueRelease_eq hx
    · rw [heq]
    · rw [heq]
  | queueConfig s' g l a b m =>
    obtain ⟨q, existed, -, rfl⟩ := bjmQueueConfig_eq h
    exact hsame rfl rfl
  | queueDelete s' g =>
    obtain ⟨deleted, hgone⟩ := h
    have heq := (bjmQueueDelete_eq hgone).1
    exact hsame (by rw [heq]) (by rw [heq])
  | policySet s' p =>
    obtain ⟨key, -, heq⟩ := bjmPolicySet_eq h
    exact hsame (by rw [heq]) (by rw [heq])
  | policyClear s' =>
    obtain ⟨cleared, hclear⟩ := h
    have heq := (bjmPolicyClear_eq hclear).1
    exact hsame (by rw [heq]) (by rw [heq])
  | policyOpen | pushSet | pushDelete =>
    obtain rfl := h
    exact hsame rfl rfl

end StoreCall

namespace Handler

/-- The request deletes the receipt, or trims its log whatever it holds. -/
def Frees (req : Request) (s c : Bytes) : Handler → Prop
  | hUnsubscribe => consumerTarget req (ascii "/consumers/") = .ok (s, c)
  | hTrim => subjectAt req (ascii "/trim/") = .ok s ∧ req.queryU64 (ascii "force") 0 ≠ 0
  | hPushDelete => App.unregistration req = .ok c ∧ App.purges req = true
  | _ => False

variable {H : Host} {b : App} {now : ℕ} {req : Request} {h : Handler} {st : Store} {s c : Bytes}
  {k n : ℕ}

theorem Asks.index_lt {i : ℕ} (ha : h.Asks H b now req st (.cursorSet s c i))
    (hw : b.store.Words) (hlogs : h.Starts → st.logs = b.store.logs) : i < 2 ^ 64 := by
  have hbegin : h.Starts → st.bjmLastIndex s < 2 ^ 64 := fun hh => by
    refine Nat.lt_of_le_of_lt (st.bjmLastIndex_le s) ?_
    simp only [logOf, hlogs hh]
    exact hw s
  rcases ha with ha | ha
  · cases h with
    | hAck =>
      obtain ⟨-, -, -, rfl⟩ := ha
      exact req.queryU64_lt _ (by decide)
    | hSubscribe =>
      obtain ⟨-, -, -, -, -, rfl⟩ := ha
      exact req.queryU64_lt _ (by decide)
    | hPublish =>
      obtain ⟨-, -, -, -, -, -, rfl⟩ := ha
      exact req.queryU64_lt _ (by decide)
    | _ => exact ha.elim
  · cases h with
    | hSubscribe =>
      rcases ha.2 with rfl | rfl
      · decide
      · exact hbegin (.inl rfl)
    | hPushPut =>
      rcases ha.2 with rfl | rfl | ⟨-, -, rfl⟩
      · decide
      · exact hbegin (.inr rfl)
      · have hfrom : req.queryU64 (ascii "from") 0 < 2 ^ 64 := req.queryU64_lt _ (by decide)
        omega
    | _ => exact ha.elim

variable (H now) in
theorem held_trim (hs : slash ∉ s) (hlast : (b.store.logOf s).last < 2 ^ 53)
    (hf : ¬ hTrim.Frees req s c) (hh : b.store.HeldAt s c k n) :
    (hTrim.run H b now req).2.store.HeldAt s c k n := by
  simp only [run, App.hTrim]
  cases hsub : subjectAt req (ascii "/trim/") with
  | error a => exact hh
  | ok s' =>
    dsimp only
    split
    · exact hh
    · split
      · exact hh
      · rename_i base removed st' htrim
        refine hh.trim hs hlast (fun he => ?_) htrim
        subst he
        simpa [Frees, hsub] using hf

variable (H now) in
theorem held_pushDelete (hs : bjmSubjectValid s = true) (hc : bjmConsumerValid c = true)
    (hf : ¬ hPushDelete.Frees req s c) (hh : b.store.HeldAt s c k n) :
    (hPushDelete.run H b now req).2.store.HeldAt s c k n := by
  simp only [run]
  rcases b.hPushDelete_push req with heq | ⟨c', hun, -, heq⟩
  · rw [heq]
    exact hh
  · rw [heq]
    split
    · rename_i hpurge
      have hother : heldBy c' (pairKey s c) = false := by
        rw [Maps.heldBy_pairKey hs hc (unregistration_valid hun), decide_eq_false_iff_not]
        rintro rfl
        exact hf ⟨hun, hpurge⟩
      have hgone : (b.unregister c').store.HeldAt s c k n := hh.congr rfl rfl
      exact hgone.purge hother
    · exact hh.congr rfl rfl

theorem held (hs : bjmSubjectValid s = true) (hc : bjmConsumerValid c = true)
    (hw : b.store.Words) (hsmall : (b.store.logOf s).last < 2 ^ 53)
    (hf : ¬ h.Frees req s c) (hh : b.store.HeldAt s c k n) :
    (h.run H b now req).2.store.HeldAt s c k n := by
  have hslash := slash_notMem_of_nameValid hs
  by_cases htrim : h = hTrim
  · subst htrim
    exact held_trim H now hslash hsmall hf hh
  by_cases hdel : h = hPushDelete
  · subst hdel
    exact held_pushDelete H now hs hc hf hh
  refine ((h.calls H b now req).preserves
    (fun st => st.HeldAt s c k n ∧ (h.Starts → st.logs = b.store.logs)) ⟨hh, fun _ => rfl⟩ ?_).1
  intro st call st' ⟨hst, hlogs⟩ ha hm
  refine ⟨hm.held ?_ ?_ ?_ ?_ hst, fun hstart => (ha.logs hm hstart).trans (hlogs hstart)⟩
  · rintro s' c' i rfl
    exact ha.index_lt hw hlogs
  · rintro s' c' rfl hkey
    obtain ⟨rfl, htarget⟩ := ha
    obtain ⟨rfl, rfl⟩ := pairKey_injective
      (slash_notMem_of_nameValid (consumerTarget_valid htarget)) hslash hkey
    exact hf htarget
  · rintro c' rfl
    exact absurd ha.1 hdel
  · rintro s' before force rfl
    exact htrim ha.1

end Handler

/-- The step deletes the consumer's receipt, or trims the log whatever it holds. -/
def ServeOp.Frees (b : App) (s c : Bytes) : ServeOp → Prop
  | .request _ method req => ∃ h, sukkalRoute method req.path = some h ∧ h.Frees req s c
  | .sweep _ => ∃ p, b.store.bjmPolicyGet s = .ok (true, p) ∧ p.ignoreConsumers = true
  | _ => False

namespace App

variable {H : Host} {b : App} {s c : Bytes} {k n : ℕ}

theorem held_sweep (V : Vendor) (nowS : ℕ) (hs : slash ∉ s)
    (hsmall : (b.store.logOf s).last < 2 ^ 53)
    (hp : ∀ p, b.store.bjmPolicyGet s = .ok (true, p) → p.ignoreConsumers = false)
    (hh : b.store.HeldAt s c k n) : (b.store.bjmRetentionRun V nowS).2.2.HeldAt s c k n := by
  refine ((b.store.retentionRun_calls V nowS).preserves (fun st => st.HeldAt s c k n ∧
    (st.logOf s).last = (b.store.logOf s).last ∧ st.bjmPolicyGet s = b.store.bjmPolicyGet s)
    ⟨hh, rfl, rfl⟩ ?_).1
  intro st call st' ⟨hst, hlast, hpolicy⟩ ha hm
  cases call with
  | trim s' before force =>
    obtain ⟨p, hget, hforce⟩ := ha
    obtain ⟨base, removed, htrim⟩ := hm
    refine ⟨hst.trim hs (hlast ▸ hsmall) (fun he => ?_) htrim, ?_, ?_⟩
    · subst he
      rw [hforce]
      exact hp p (hpolicy.symm.trans hget)
    · by_cases he : s = s'
      · subst he
        exact (bjmTrim_log htrim).2.1.trans hlast
      · rw [bjmTrim_others htrim he, hlast]
    · rcases bjmTrim_store htrim with rfl | hmarks
      · exact hpolicy
      · exact (hmarks.sameFiles.policies s).trans hpolicy
  | policyOpen =>
    obtain rfl := hm
    exact ⟨hst.congr rfl rfl, hlast, hpolicy⟩
  | _ => exact ha.elim

variable (s c k n) in
theorem held_rule (V : Vendor) :
    PassRule V fun b b' => b.store.HeldAt s c k n → b'.store.HeldAt s c k n where
  same _ _ heq _ hh := heq ▸ hh
  trans _ _ _ h h' hh := h' (h hh)
  take _ _ _ _ _ _ _ _ htake hh :=
    hh.congr (passed_cursors (passed_take htake) _) ((passed_take htake).base s)
  skip _ _ _ _ _ _ hb _ _ hset hh := hh.cursorSet hb hset

theorem held_delivered {V : Vendor} (hf : b.Flying V) (hw : b.store.Words) (clock id : ℕ)
    (r : Reply) (now : ℕ)
    (hout : ∀ t ∈ b.push.subs, t.id = id → t.inflight = true) (hh : b.store.HeldAt s c k n) :
    (b.delivered clock id r now).store.HeldAt s c k n := by
  rcases b.delivered_cases clock id r now with ⟨heq, -⟩ | ⟨pre, t, suf, hsubs, hid,
    ⟨-, suf', -, heq⟩ | ⟨-, y, hy, heq⟩⟩
  · rw [heq]
    exact hh
  · rw [heq]
    exact hh
  · have ht : t ∈ b.push.subs := by simp [hsubs]
    have hend : t.last < 2 ^ 64 := by
      rcases hf.ends t ht (hout t ht hid) with hword | hlast
      · exact hword
      · exact Nat.lt_of_le_of_lt hlast (hw t.subject)
    have hcases :=
      Psub.settle_cases clock b.store ({ t.hear r with inflight := false } : Psub) r now
    have hack : ({ t.hear r with inflight := false } : Psub).ackOf < 2 ^ 64 := by
      refine Nat.lt_of_le_of_lt (App.Within.ackOf_le _) ?_
      rw [t.hear_same r]
      exact hend
    rw [← hy] at hcases
    rw [heq]
    rcases hcases with hstay | ⟨-, -, -, hset⟩ | ⟨-, hset⟩
    · rw [hstay]
      exact hh
    · exact hh.cursorSet hack hset
    · rw [hset.same]
      exact hh.congr rfl rfl

theorem held_serve (hf : b.Flying H.vendor) (hs : bjmSubjectValid s = true)
    (hc : bjmConsumerValid c = true) (hsmall : (b.store.logOf s).last < 2 ^ 53) {op : ServeOp}
    (hop : Serving b op)
    (hfree : ¬ op.Frees b s c) (hh : b.store.HeldAt s c k n) :
    (b.serve H op).2.store.HeldAt s c k n := by
  cases op with
  | request now method req =>
    rcases dispatch_cases H b now method req with ⟨hd, hroute, heq⟩ | ⟨-, heq⟩
    · simp only [serve, heq]
      exact Handler.held hs hc hop.words hsmall (fun hf => hfree ⟨hd, hroute, hf⟩) hh
    · simp only [serve, heq]
      exact hh
  | sweep nowS =>
    refine held_sweep H.vendor nowS (slash_notMem_of_nameValid hs) hsmall (fun p hp => ?_) hh
    by_contra hignore
    exact hfree ⟨p, hp, by simpa using hignore⟩
  | pump send now clock =>
    exact ((held_rule s c k n H.vendor).pump send now clock hf.names hop.words).1 hh
  | delivered clock id r now =>
    exact held_delivered hf hop.words clock id r now (hop.outstanding clock id r now rfl) hh

end App

/-- A consumer with a receipt loses no message: in a run that neither deletes the receipt
nor trims the log by force, each message that was in the log either is one the consumer
has acknowledged by then, or is still there. -/
theorem receipt_holds (H : Host) {st : Store} {listing : List Bytes} (n : ℕ) {s c : Bytes} {m : ℕ}
    {before later : List ServeOp} (hs : bjmSubjectValid s = true) (hc : bjmConsumerValid c = true)
    (hl : ∀ e ∈ listing, slash ∉ e) (hm : m < 2 ^ 64)
    (hb : Along (App.serve H) (fun _ b op => Serving b op) [] (App.start st listing n) before)
    (hf : Along (App.serve H) (fun _ b op => Serving b op ∧ (b.store.logOf s).last < 2 ^ 53 ∧
      ¬ op.Frees b s c) [] (run (App.serve H) (App.start st listing n) before).2 later)
    (hget : (run (App.serve H) (App.start st listing n) before).2.store.cursors[pairKey s c]? =
      some (indexRecord m)) :
    let old := (run (App.serve H) (App.start st listing n) before).2.store
    let new := (run (App.serve H) (App.start st listing n) (before ++ later)).2.store
    ∃ m', m ≤ m' ∧ new.cursors[pairKey s c]? = some (indexRecord m') ∧
      ∀ i, (old.logOf s).base < i → m' < i → i ≤ (old.logOf s).last →
        (new.logOf s).get i = (old.logOf s).get i := by
  have hfly := invariant (I := fun _ b => App.Flying H.vendor b)
    (App.start_flying H.vendor n hl) hb
    fun _ _ _ hs h => h.serve hs
  generalize hold : (run (App.serve H) (App.start st listing n) before).2 = b at *
  obtain ⟨⟨m', hle, -, hget', hbase⟩, -, hgo⟩ := invariant (I := fun _ b' =>
      b'.store.HeldAt s c (b.store.logOf s).base m ∧ App.Flying H.vendor b' ∧
        b.store.GoesOn b'.store)
    ⟨⟨m, le_rfl, hm, hget, Nat.le_max_right _ _⟩, hfly, .refl⟩ hf
    fun _ _ _ hop ⟨hh, hfly, hgo⟩ => ⟨App.held_serve hfly hs hc hop.2.1 hop.1 hop.2.2 hh,
      hfly.serve hop.1, hgo.trans (App.serve_goesOn hfly.names hop.1)⟩
  dsimp only
  rw [run_append, hold]
  exact ⟨m', hle, hget', fun i hi hpast hlast => hgo.get (by omega) hlast⟩

/-- Two orders are published, and the first is acknowledged; then all are trimmed that
may be, and the broker sweeps. -/
def ackFirst : List ServeOp :=
  [.request 1 POST (order none), .request 2 POST { order none with query := fun _ => none },
    .request 3 POST (.plain (ascii "/ack/orders")
      [(ascii "consumer", ascii "billing"), (ascii "index", ascii "1")])]

def trimAll : List ServeOp :=
  [.request 4 POST (.plain (ascii "/trim/orders") [(ascii "before", ascii "3")]), .sweep 5]

theorem ackFirst_holds :
    let old := (run (App.serve (plainHost wholeBodies)) (App.start .empty [] 0) ackFirst).2.store
    let new := (run (App.serve (plainHost wholeBodies)) (App.start .empty [] 0)
      (ackFirst ++ trimAll)).2.store
    ∃ m', 1 ≤ m' ∧
      new.cursors[pairKey (ascii "orders") (ascii "billing")]? = some (indexRecord m') ∧
      ∀ i, (old.logOf (ascii "orders")).base < i → m' < i → i ≤ (old.logOf (ascii "orders")).last →
        (new.logOf (ascii "orders")).get i = (old.logOf (ascii "orders")).get i := by
  refine receipt_holds (plainHost wholeBodies) 0 (by decide) (by decide) (by simp) (by decide)
    ⟨serving_of_request (words_of_logs ?_), serving_of_request (words_of_logs ?_),
      serving_of_request (words_of_logs ?_), trivial⟩
    ⟨⟨serving_of_request (words_of_logs ?_), ?_, ?_⟩, ⟨⟨words_of_logs ?_, nofun⟩, ?_, ?_⟩, trivial⟩ ?_
  · decide +kernel
  · decide +kernel
  · decide +kernel
  · decide +kernel
  · decide +kernel
  · rintro ⟨h, hroute, hfree⟩
    obtain rfl : h = .hTrim := Option.some.inj (hroute.symm.trans (by decide +kernel))
    exact hfree.2 (by decide +kernel)
  · decide +kernel
  · decide +kernel
  · rintro ⟨p, hget, -⟩
    have hzero : (run (App.serve (plainHost wholeBodies)) (App.start .empty [] 0) (ackFirst ++
        trimAll.take 1)).2.store.bjmPolicyGet (ascii "orders") = .ok (false, .zero) := by
      decide +kernel
    exact absurd (hzero.symm.trans hget) nofun
  · decide +kernel

end SukkalMsg
