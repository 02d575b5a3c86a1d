import SukkalMsg.EngineNames
import SukkalMsg.GuardedHeaders
import SukkalMsg.RegistryAgreement
import SukkalMsg.RetrySafety

/-!
# Where a subscription begins

A registration writes the receipts a new consumer would otherwise have, for the subjects
the engine knows at that moment. Until something is delivered from a subject its receipt
stands: a pass moves it only up to where the log begins, and an unforced trim does not go
beyond it. So the first batch of a subject begins where the registration has put the
receipt, or at the oldest message that is left.
-/

namespace SukkalMsg

open Std Names Binjson OrderedScan BoundedTable Store ActionRuns

namespace Store

variable {V : Vendor} {st st' st'' : Store} {s c : Bytes}

/-- Nothing was delivered in between: the receipt is where it was, or where the log begins,
and a record that stood at the log's base or above is the same and stands there still. -/
structure Stands (s c : Bytes) (st st' : Store) : Prop where
  base : (st.logOf s).base ≤ (st'.logOf s).base
  receipt : st'.receiptOf s c = st.receiptOf s c ∨
    st.receiptOf s c < st'.receiptOf s c ∧ st'.receiptOf s c ≤ (st'.logOf s).base
  record : ∀ r, st.cursors[pairKey s c]? = some r →
    (∀ n, decodeIndex r = .ok n → (st.logOf s).base ≤ n) →
      st'.cursors[pairKey s c]? = some r ∧ ∀ n, decodeIndex r = .ok n → (st'.logOf s).base ≤ n

namespace Stands

theorem refl : Stands s c st st := ⟨Nat.le_refl _, .inl rfl, fun _ hr hn => ⟨hr, hn⟩⟩

theorem trans (h : Stands s c st st') (h' : Stands s c st' st'') : Stands s c st st'' := by
  refine ⟨Nat.le_trans h.base h'.base, ?_, fun r hr hn => ?_⟩
  · have hbase := h'.base
    rcases h.receipt with heq | ⟨hlt, hle⟩ <;> rcases h'.receipt with heq' | ⟨hlt', hle'⟩
    · exact .inl (heq'.trans heq)
    · exact .inr ⟨by omega, hle'⟩
    · exact .inr ⟨by omega, by omega⟩
    · exact .inr ⟨by omega, hle'⟩
  · obtain ⟨hr', hn'⟩ := h.record r hr hn
    exact h'.record r hr' hn'

theorem of_same (hc : st'.cursors[pairKey s c]? = st.cursors[pairKey s c]?)
    (hb : (st'.logOf s).base = (st.logOf s).base) : Stands s c st st' := by
  refine ⟨Nat.le_of_eq hb.symm, .inl ?_, fun r hr hn => ⟨hc.trans hr, ?_⟩⟩
  · simp only [receiptOf, hc]
  · rwa [hb]

theorem max_eq (h : Stands s c st st') :
    max (st'.receiptOf s c) (st'.logOf s).base = max (st.receiptOf s c) (st'.logOf s).base := by
  rcases h.receipt with heq | ⟨hlt, hle⟩
  · rw [heq]
  · omega

end Stands

theorem trimTarget_le_receipt {r : Record} {n last : ℕ} (hs : slash ∉ s) (hlast : last < 2 ^ 64)
    (hr : st.cursors[pairKey s c]? = some r) (hn : decodeIndex r = .ok n) (before : ℕ) :
    st.trimTarget s last before false ≤ n := by
  have hmem : n ∈ st.acks s := by
    refine List.mem_filterMap.mpr ⟨(pairKey s c, r), (mem_subjectRange hs hs).mpr ⟨rfl, hr⟩, ?_⟩
    simp only [hn, Except.toOption]
  have hprotect : st.trimProtect s ≤ n := by
    rw [trimProtect_eq]
    exact (foldl_min_isLeast _ _).2 (.inr (List.mem_append_left _ hmem))
  simp only [trimTarget, Bool.false_eq_true, if_false]
  split
  · exact hprotect
  · rename_i hfree
    simp only [UINT64_MAX] at hfree
    omega

theorem stands_trim {name : Bytes} {before base removed : ℕ} (hw : st.Words) (hs : slash ∉ s)
    (h : st.bjmTrim name before false = .ok (base, removed, st')) : Stands s c st st' := by
  have hcursors := (bjmTrim_trees h).1
  by_cases hname : s = name
  · subst hname
    obtain ⟨hbase, -, hle, -⟩ := bjmTrim_log h
    refine ⟨hbase ▸ hle, .inl (receiptOf_congr hcursors s c), fun r hr hn => ?_⟩
    refine ⟨by rwa [hcursors], fun n hdec => ?_⟩
    have htarget := trimTarget_le_receipt hs (hw s) hr hdec before
    rw [hbase, (bjmTrim_eq h).1]
    exact Nat.max_le.mpr ⟨hn n hdec, htarget⟩
  · exact .of_same (by rw [hcursors]) (by rw [bjmTrim_others h hname])

/-- What a pass does to the records that are not below their log's base: nothing. -/
structure Spares (st st' : Store) : Prop where
  base : ∀ s, (st'.logOf s).base = (st.logOf s).base
  record : ∀ s c r, slash ∉ s → st.cursors[pairKey s c]? = some r →
    (∀ n, decodeIndex r = .ok n → (st.logOf s).base ≤ n) → st'.cursors[pairKey s c]? = some r

theorem decodes_of_get {found : Option ℕ} {r : Record} (hget : st.bjmCursorGet s c = .ok found)
    (hr : st.cursors[pairKey s c]? = some r) : ∃ n, decodeIndex r = .ok n ∧ found = some n := by
  simp only [bjmCursorGet] at hget
  split at hget
  · contradiction
  · rename_i key hkey
    obtain rfl := boundedKey_eq hkey
    simp only [hr] at hget
    cases hd : decodeIndex r with
    | error e => simp [hd, Except.map] at hget
    | ok n => exact ⟨n, rfl, by simpa [hd, Except.map, eq_comm] using hget⟩

theorem spares_rule (V : Vendor) : PassRule V fun b b' => b.store.Spares b'.store where
  same b b' hs _ := by
    rw [hs]
    exact ⟨fun _ => rfl, fun _ _ _ _ hr _ => hr⟩
  trans b b' b'' h h' := by
    refine ⟨fun s => (h'.base s).trans (h.base s), fun s c r hs hr hn => ?_⟩
    refine h'.record s c r hs (h.record s c r hs hr hn) ?_
    rwa [h.base]
  take b again now s g max lease t ht := by
    have hpass := passed_take ht
    refine ⟨hpass.base, fun s c r _ hr _ => ?_⟩
    rw [hpass.others _ fun _ _ h => h.elim]
    exact hr
  skip b name consumer found st hname _ hget hlow hset := by
    rcases bjmCursorSet_eq hset with ⟨rfl, -⟩ | ⟨rfl, -⟩
    · exact ⟨fun _ => rfl, fun _ _ _ _ hr _ => hr⟩
    · refine ⟨fun _ => rfl, fun s c r hs hr hn => ?_⟩
      rw [getElem?_insert, if_neg]
      · exact hr
      · intro hkey
        obtain ⟨rfl, rfl⟩ := pairKey_injective hname hs hkey
        obtain ⟨n, hdec, rfl⟩ := decodes_of_get hget hr
        exact absurd (hn n hdec) (Nat.not_le.mpr hlow)

theorem Spares.stands {who : Bytes → Prop} (h : st.Spares st') (hp : Passed who st st')
    (hs : slash ∉ s) : Stands s c st st' := by
  have hbase := h.base s
  refine ⟨Nat.le_of_eq hbase.symm, ?_, fun r hr hn => ⟨h.record s c r hs hr hn, ?_⟩⟩
  · rcases hp.receipt s c hs with heq | ⟨hlt, heq⟩
    · exact .inl heq
    · exact .inr ⟨by omega, by omega⟩
  · rwa [hbase]

/-! ### Seeding -/

def seedAt (st : Store) (atEnd : Bool) (start : ℕ) (name : Bytes) : ℕ :=
  if atEnd then st.bjmLastIndex name else start - 1

theorem seedOne_of_none {name : Bytes} (hget : st.bjmCursorGet name c = .ok none) (atEnd : Bool)
    (start : ℕ) : st.seedOne c atEnd start name = { st with
      cursors := st.cursors.insert (pairKey name c)
        (indexRecord (st.seedAt atEnd start name)) } := by
  have hkey : cursorKey name c = some (pairKey name c) := by
    cases hk : cursorKey name c with
    | none => simp [bjmCursorGet, hk] at hget
    | some key =>
      obtain rfl := boundedKey_eq hk
      rfl
  have hat : (if atEnd = true then st.bjmLastIndex name
      else if start > 1 then start - 1 else 0) = st.seedAt atEnd start name := by
    simp only [seedAt]
    split
    · rfl
    · split <;> omega
  simp only [seedOne, hget, bjmCursorSet, hkey, hat, Option.any_none, Bool.false_eq_true, if_false]

theorem seedOne_of_found {name : Bytes} (hget : st.bjmCursorGet name c ≠ .ok none) (atEnd : Bool)
    (start : ℕ) : st.seedOne c atEnd start name = st := by
  cases hc : st.bjmCursorGet name c with
  | error e => simp only [seedOne, hc]
  | ok found =>
    cases found with
    | none => exact absurd hc hget
    | some n => simp only [seedOne, hc]

theorem bjmCursorGet_congr (h : st'.cursors[pairKey s c]? = st.cursors[pairKey s c]?) :
    st'.bjmCursorGet s c = st.bjmCursorGet s c := by
  simp only [bjmCursorGet]
  cases hk : cursorKey s c with
  | none => rfl
  | some key =>
    obtain rfl := boundedKey_eq hk
    simp only [h]

variable (st c) in
theorem foldl_seedOne_record {names : List Bytes} (hnames : ∀ name ∈ names, slash ∉ name)
    (hs : slash ∉ s) (atEnd : Bool) (start : ℕ) :
    let seeded := names.foldl (fun st name => st.seedOne c atEnd start name) st
    (s ∈ names → st.bjmCursorGet s c = .ok none →
        seeded.cursors[pairKey s c]? = some (indexRecord (st.seedAt atEnd start s))) ∧
      ((s ∈ names → st.bjmCursorGet s c ≠ .ok none) →
        seeded.cursors[pairKey s c]? = st.cursors[pairKey s c]?) := by
  induction names generalizing st with
  | nil => exact ⟨fun h => absurd h List.not_mem_nil, fun _ => rfl⟩
  | cons name names ih =>
    have hrest := fun x (hx : x ∈ names) => hnames x (List.mem_cons_of_mem name hx)
    obtain ⟨hnew, hold⟩ := @ih (st.seedOne c atEnd start name) hrest
    simp only [List.foldl_cons]
    by_cases hname : s = name
    · subst hname
      by_cases hget : st.bjmCursorGet s c = .ok none
      · refine ⟨fun _ _ => ?_, fun h => absurd hget (h List.mem_cons_self)⟩
        -- the receipt is there from now on, so a second turn leaves it
        rw [seedOne_of_none hget] at hold ⊢
        rw [hold fun _ hnone => ?_]
        · simp
        · obtain ⟨n, -, hsome⟩ := decodes_of_get hnone (ExtTreeMap.getElem?_insert_self ..)
          contradiction
      · rw [seedOne_of_found hget] at hold ⊢
        exact ⟨fun _ hnone => absurd hnone hget, fun _ => hold fun _ => hget⟩
    · have hother : (st.seedOne c atEnd start name).cursors[pairKey s c]? =
          st.cursors[pairKey s c]? := by
        by_cases hget : st.bjmCursorGet name c = .ok none
        · rw [seedOne_of_none hget, getElem?_insert, if_neg]
          intro hkey
          exact hname (pairKey_injective (hnames name List.mem_cons_self) hs hkey).1.symm
        · rw [seedOne_of_found hget]
      have hat : (st.seedOne c atEnd start name).seedAt atEnd start s =
          st.seedAt atEnd start s := by
        rw [(Seeded.seedOne atEnd start name).same]
        rfl
      rw [bjmCursorGet_congr hother, hat] at hnew
      rw [bjmCursorGet_congr hother, hother] at hold
      simp only [List.mem_cons, hname, false_or]
      exact ⟨hnew, hold⟩

end Store

/-- Neither the registry nor the engine has the consumer. -/
structure App.Absent (b : App) (c : Bytes) : Prop where
  unlisted : b.store.bjmPushGet c = .ok none
  gone : ∀ t ∈ b.push.subs, t.gone = false → t.consumer ≠ c

def Undelivered (c s : Bytes) (h : List PushStep) : Prop :=
  ∀ x ∈ h, ∀ d ∈ x.sent, d.sub.consumer = c → d.sub.subject ≠ s

/-- A step under which `c` stays registered, without a group, and nobody but the engine
moves its receipts; trims ask for no force. -/
structure Renewing (c : Bytes) (b : App) (op : PushOp) : Prop extends Answered b op where
  acks : ∀ s c' i, op = .ack s c' i → bjmConsumerValid c' = true ∧ c' ≠ c
  kept : ∀ s c', op = .unsubscribe s c' → bjmConsumerValid c' = true ∧ c' ≠ c
  unforced : ∀ s before force, op = .trim s before force → force = false
  stays : ¬ op.Unregisters c
  plain : ∀ req r, op = .put req → registration req = .ok r → r.consumer = c → r.cfg.group = []

/-- What holds of a consumer from its registration on, with the steps before it and
those since. -/
structure Enrolled (V : Vendor) (c : Bytes) (before h : List PushStep) (b : App) : Prop where
  outstanding : Outstanding V (before ++ h) b.push
  listed : ∃ r, b.store.push[c]? = some r
  plain : ∀ t ∈ b.push.subs, t.gone = false → t.consumer = c → t.cfg.group = []
  answers : ∀ t ∈ b.push.subs, t.gone = false → t.inflight = true → t.consumer = c →
    ∃ x ∈ h, ∃ d ∈ x.sent, d.sub.consumer = c ∧ d.sub.subject = t.subject

namespace App

variable {V : Vendor} {b : App} {req : Request} {r : Registration} {s : Bytes}

theorem put_new (hr : registration req = .ok r) (habs : b.Absent r.consumer) :
    (b.apply V (.put req)).2 = (b.seedFor req r).register r := by
  simp only [App.apply, hPushPut, hr, habs.unlisted, Option.isNone_none, if_true]

theorem pattern_cut (hr : registration req = .ok r) :
    cut (BJM_SUBJECT_MAX + 1) r.cfg.pattern = r.cfg.pattern := by
  simp only [registration] at hr
  split at hr
  · contradiction
  split at hr
  · contradiction
  · contradiction
  split at hr
  · contradiction
  split at hr
  · contradiction
  split at hr
  · contradiction
  obtain rfl := Except.ok.inj hr
  simp only [cut, List.take_take, Nat.min_self]

theorem put_record (hr : registration req = .ok r) (habs : b.Absent r.consumer)
    (hg : r.cfg.group = []) (hn : ∀ name ∈ b.push.names, slash ∉ name) (hs : slash ∉ s)
    (hmatch : (b.push.psubNew r.consumer r.cfg).isMatch s = true) :
    let st := (b.apply V (.put req)).2.store
    (s ∈ b.push.names → b.store.bjmCursorGet s r.consumer = .ok none →
        st.cursors[pairKey s r.consumer]? = some (indexRecord
          (b.store.seedAt req.startsLast (req.queryU64 (ascii "from") 0) s))) ∧
      ((s ∈ b.push.names → b.store.bjmCursorGet s r.consumer ≠ .ok none) →
        st.cursors[pairKey s r.consumer]? = b.store.cursors[pairKey s r.consumer]?) ∧
      st.logs = b.store.logs := by
  have hprobe : (b.push.psubNew r.consumer { PushSub.zero with
      pattern := cut (BJM_SUBJECT_MAX + 1) r.cfg.pattern }).isMatch s = true := by
    rw [pattern_cut hr]
    exact hmatch
  rw [put_new hr habs]
  simp only [register, bjmPushSet, seedFor, hg, if_true, seed]
  set names := b.push.names.filter (b.push.psubNew r.consumer { PushSub.zero with
    pattern := cut (BJM_SUBJECT_MAX + 1) r.cfg.pattern }).isMatch with hnames
  have hiff : s ∈ names ↔ s ∈ b.push.names := by
    rw [hnames, List.mem_filter]
    exact ⟨And.left, fun h => ⟨h, hprobe⟩⟩
  have hplain : ∀ name ∈ names, slash ∉ name := fun name hname =>
    hn name (List.mem_filter.mp hname).1
  obtain ⟨hnew, hold⟩ := foldl_seedOne_record b.store r.consumer hplain hs req.startsLast
    (req.queryU64 (ascii "from") 0)
  refine ⟨fun h => hnew (hiff.mpr h), fun h => hold fun hm => h (hiff.mp hm), ?_⟩
  rw [(Seeded.foldl_seedOne req.startsLast (req.queryU64 (ascii "from") 0) names).same]

theorem base_apply (hn : ∀ name ∈ b.push.names, slash ∉ name) (hw : b.store.Words) {op : PushOp}
    (hop : ∀ s before force, op ≠ .trim s before force) (s : Bytes) :
    ((b.apply V op).2.store.logOf s).base = (b.store.logOf s).base := by
  by_cases hq : op.Logging
  · cases op with
    | publish now subject e =>
      simp only [App.apply, App.publish]
      split
      · rfl
      · rename_i index st hpub
        rw [logOf_insert (bjmPublish_eq hpub).2.1]
        split
        · rename_i hs
          rw [hs, Elog.append_base]
        · rfl
    | take now subject group max lease =>
      simp only [App.apply, App.take]
      split
      · rfl
      · exact (passed_take ‹_›).base s
    | trim subject before force => exact absurd rfl (hop subject before force)
    | pump send now clock => exact ((spares_rule V).pump send now clock hn hw).1.base s
    | ack => exact hq.elim
    | unsubscribe => exact hq.elim
    | done => exact hq.elim
    | fail => exact hq.elim
    | put => exact hq.elim
    | delete => exact hq.elim
    | delivered => exact hq.elim
  · simp only [logOf, logs_apply hq]

theorem enrolled_put {h : List PushStep} (ho : Outstanding V h b.push) (hw : b.store.Words)
    (hr : registration req = .ok r) (habs : b.Absent r.consumer) (hg : r.cfg.group = []) :
    Enrolled V r.consumer (h ++ (pushExec V b (.put req)).1) [] (b.apply V (.put req)).2 := by
  have hrow : ∀ t ∈ (b.apply V (.put req)).2.push.subs, t.gone = false →
      t.consumer = r.consumer → t.cfg.group = [] ∧ t.inflight = false := by
    intro t ht htg htc
    cases became_apply (V := V) (.put req) ho.names hw trivial ht with
    | registered hop hr' hnone =>
      obtain rfl := PushOp.put.inj hop
      obtain rfl := Except.ok.inj (hr.symm.trans hr')
      exact ⟨hg, rfl⟩
    | reregistered hop hr' ht' hg' hc' =>
      obtain rfl := PushOp.put.inj hop
      obtain rfl := Except.ok.inj (hr.symm.trans hr')
      exact absurd hc' (habs.gone _ ht' hg')
    | kept ht' hsame hcfg =>
      exact absurd (hsame.consumer_eq ▸ htc) (habs.gone _ ht' (hsame.live htg))
    | turned hop => contradiction
    | replied hop => contradiction
  refine ⟨?_, ?_, fun t ht htg htc => (hrow t ht htg htc).1, fun t ht htg htf htc => ?_⟩
  · rw [List.append_nil]
    exact ho.step hw trivial
  · rw [put_new hr habs]
    exact ⟨pushRecord r.cfg, ExtTreeMap.getElem?_insert_self ..⟩
  · rw [(hrow t ht htg htc).2] at htf
    contradiction

end App

namespace Enrolled

variable {V : Vendor} {c s : Bytes} {before h : List PushStep} {b : App} {op : PushOp}

theorem put_again (he : Enrolled V c before h b) {req : Request} {r : Registration}
    (hr : registration req = .ok r) (hc : r.consumer = c) :
    (b.apply V (.put req)).2.store.cursors = b.store.cursors := by
  simp only [App.apply]
  rcases b.hPushPut_push req with heq | ⟨r', found, hr', hfound, heq⟩
  · rw [heq]
  · obtain rfl := Except.ok.inj (hr.symm.trans hr')
    obtain ⟨rec, hrec⟩ := he.listed
    have hsome : found.isNone = false := by
      simp only [bjmPushGet, hc, hrec] at hfound
      cases hd : pushDecode rec with
      | error e => simp [hd, Except.map] at hfound
      | ok cfg =>
        simp only [hd, Except.map, Except.ok.injEq] at hfound
        rw [← hfound]
        rfl
    rw [heq, hsome]
    rfl

theorem listed_apply (he : Enrolled V c before h b) (hg : Renewing c b op) :
    ∃ r, (b.apply V op).2.store.push[c]? = some r := by
  obtain ⟨rec, hrec⟩ := he.listed
  by_cases hq : op.Elsewhere
  · exact ⟨rec, by rw [App.registry_elsewhere hq, hrec]⟩
  cases op with
  | put req =>
    simp only [App.apply]
    rcases b.hPushPut_store req with heq | ⟨r, st₁, -, hseed, heq⟩
    · exact ⟨rec, by rw [heq, hrec]⟩
    · rw [heq, hseed.same]
      simp only [bjmPushSet, getElem?_insert]
      split
      · exact ⟨_, rfl⟩
      · exact ⟨rec, hrec⟩
  | delete req =>
    simp only [App.apply]
    rcases b.hPushDelete_push req with heq | ⟨c', hc', -, heq⟩
    · exact ⟨rec, by rw [heq, hrec]⟩
    · have hne : c' ≠ c := fun h => hg.stays ⟨req, rfl, h ▸ hc'⟩
      have herase : (b.hPushDelete req).2.store.push = b.store.push.erase c' := by
        rw [heq]
        split <;> rfl
      refine ⟨rec, ?_⟩
      rw [herase, getElem?_erase, if_neg hne, hrec]
  | pump send now clock =>
    refine ⟨rec, ?_⟩
    rcases b.pump_cases V send now clock he.outstanding.names hg.words with
      ⟨-, heq⟩ | ⟨-, ss', ds, st, p', w, -, happ, -, hpass, -, -⟩
    · simp only [App.apply, heq, hrec]
    · simp only [App.apply, happ, hpass.push_eq, hrec]
  | delivered clock id r now =>
    refine ⟨rec, ?_⟩
    simp only [App.apply, (b.delivered_lists clock id r now).2, hrec]
  | publish => exact absurd trivial hq
  | ack => exact absurd trivial hq
  | unsubscribe => exact absurd trivial hq
  | take => exact absurd trivial hq
  | done => exact absurd trivial hq
  | fail => exact absurd trivial hq
  | trim => exact absurd trivial hq

theorem step (he : Enrolled V c before h b) (hg : Renewing c b op) :
    Enrolled V c before (h ++ (pushExec V b op).1) (pushExec V b op).2 := by
  have hback := fun (t' : Psub) (ht' : t' ∈ (b.apply V op).2.push.subs) =>
    App.became_apply (V := V) op he.outstanding.names hg.words hg.named ht'
  refine ⟨?_, he.listed_apply hg, fun t' ht' htg htc => ?_, fun t' ht' htg htf htc => ?_⟩
  · rw [← List.append_assoc]
    exact he.outstanding.step hg.words hg.named
  · cases hback t' ht' with
    | @registered req r hop hr hnone => exact hg.plain req r hop hr htc
    | @reregistered req r t hop hr ht hg' hcr => exact hg.plain req r hop hr (hcr ▸ htc)
    | @kept t _ ht hsame hcfg =>
      rw [hcfg]
      exact he.plain t ht (hsame.live htg) (hsame.consumer_eq ▸ htc)
    | @turned _ _ _ t _ _ hop ht hturn hl =>
      have ha := hturn.toAsked
      rw [ha.cfg_eq]
      exact he.plain t ht (ha.gone_eq ▸ htg) (ha.consumer_eq ▸ htc)
    | @replied _ _ _ _ t _ hop ht hid hg' hrep =>
      rw [hrep.cfg_eq]
      exact he.plain t ht hg' (hrep.consumer_eq ▸ htc)
  · have hold : ∀ {t : Psub}, t ∈ b.push.subs → t.SameDelivery t' →
        ∃ x ∈ h ++ (pushExec V b op).1, ∃ d ∈ x.sent, d.sub.consumer = c ∧
          d.sub.subject = t'.subject := by
      intro t ht hsame
      obtain ⟨x, hx, d, hd, hdc, hds⟩ := he.answers t ht (hsame.live htg)
        (hsame.inflight_eq ▸ htf) (hsame.consumer_eq ▸ htc)
      exact ⟨x, List.mem_append_left _ hx, d, hd, hdc, hds.trans hsame.subject_eq.symm⟩
    cases hback t' ht' with
    | registered hop hr hnone => simp [Pusher.psubNew] at htf
    | @reregistered req r t hop hr ht hg' hcr => exact hold ht (.setCfg t r.cfg)
    | kept ht hsame hcfg => exact hold ht hsame
    | @turned send now clock t _ l hop ht hturn hl =>
      cases hturn with
      | skipped _ => exact hold ht .refl
      | asked _ _ hf' =>
        rw [hf'] at htf
        contradiction
      | @sent d _ _ _ _ _ _ =>
        refine ⟨_, List.mem_append_right _ (List.mem_singleton_self _), d, ?_, htc, rfl⟩
        exact hl (List.mem_singleton_self d)
    | replied hop ht hid hg' hrep =>
      rw [hrep.inflight_eq] at htf
      contradiction

/-- Outside a pass only a reply to a batch of the subject moves the receipt. -/
theorem record_apply (he : Enrolled V c before h b) (hg : Renewing c b op)
    (hc : bjmConsumerValid c = true) (hs : slash ∉ s) (hnone : Undelivered c s h) (hq : op.Quiet) :
    (b.apply V op).2.store.cursors[pairKey s c]? = b.store.cursors[pairKey s c]? := by
  have hslash := slash_notMem_of_nameValid hc
  have hother : ∀ {s' c' : Bytes}, bjmConsumerValid c' = true → c' ≠ c →
      pairKey s' c' ≠ pairKey s c := fun hv hne hkey =>
    hne (pairKey_right (slash_notMem_of_nameValid hv) hslash hkey)
  have hset : ∀ {st : Store} {s' c' : Bytes} {i : ℕ}, pairKey s' c' ≠ pairKey s c →
      b.store.bjmCursorSet s' c' i = .ok st →
        st.cursors[pairKey s c]? = b.store.cursors[pairKey s c]? := by
    intro st s' c' i hne hst
    rcases bjmCursorSet_eq hst with ⟨rfl, -⟩ | ⟨rfl, -⟩
    · rfl
    · rw [getElem?_insert, if_neg hne]
  have hrelease : ∀ {now : ℕ} {s' g : Bytes} {i delay : ℕ} {drop : Bool},
      (b.stored ((b.store.queueRelease now s' g i drop delay).map
        Released.store)).store.cursors[pairKey s c]? = b.store.cursors[pairKey s c]? := by
    intro now s' g i delay drop
    cases hr : b.store.queueRelease now s' g i drop delay with
    | error e => rfl
    | ok r =>
      have hcursors := release_cursors hr
      simp only [Except.map, App.stored, hcursors]
  cases op with
  | publish now subject e =>
    simp only [App.apply, App.publish]
    split
    · rfl
    · rw [(bjmPublish_eq ‹_›).2.2.cursors_eq]
  | ack subject consumer index =>
    obtain ⟨hv, hne⟩ := hg.acks _ _ _ rfl
    simp only [App.apply]
    cases hst : b.store.bjmCursorSet subject consumer index with
    | error e => rfl
    | ok st => exact hset (hother hv hne) hst
  | unsubscribe subject consumer =>
    obtain ⟨hv, hne⟩ := hg.kept _ _ rfl
    simp only [App.apply, bjmCursorDelete]
    split
    · rfl
    · rename_i key hkey
      obtain rfl := boundedKey_eq hkey
      split
      · simp only [Except.map, App.stored]
        rw [getElem?_erase, if_neg (hother hv hne)]
      · rfl
  | take now subject group max lease =>
    simp only [App.apply, App.take]
    split
    · rfl
    · exact (passed_take ‹_›).others _ fun _ _ h => h.elim
  | done now subject group index => exact hrelease
  | fail now subject group index delay => exact hrelease
  | trim subject before force =>
    simp only [App.apply]
    cases hr : b.store.bjmTrim subject before force with
    | error e => rfl
    | ok r =>
      simp only [Except.map, App.stored, (bjmTrim_trees hr).1]
  | put req =>
    cases hr : registration req with
    | error e => simp only [App.apply, App.hPushPut, hr]
    | ok r =>
      by_cases hcr : r.consumer = c
      · rw [he.put_again hr hcr]
      · simp only [App.apply]
        rcases b.hPushPut_store req with heq | ⟨r', st₁, hr', hseed, heq⟩
        · rw [heq]
        · obtain rfl := Except.ok.inj (hr.symm.trans hr')
          rw [heq]
          exact hseed.others _ fun s' hkey =>
            hother (registration_checked hr).consumer hcr hkey.symm
  | delete req =>
    simp only [App.apply]
    rcases b.hPushDelete_push req with heq | ⟨c', hc', -, heq⟩
    · rw [heq]
    · have hne : c ≠ c' := fun h => hg.stays ⟨req, rfl, h ▸ hc'⟩
      rw [heq]
      split
      · rw [purge_others hslash (slash_notMem_of_nameValid (unregistration_valid hc')) hne]
        rfl
      · rfl
  | pump send now clock => exact hq.elim
  | delivered clock id r now =>
    simp only [App.apply]
    rcases App.delivered_store he.outstanding clock id now r (hg.outstanding _ _ _ _ rfl) with
      heq | ⟨t, ht, d, -, htg, htf, hd, hcar, ⟨-, -, -, hst⟩ | ⟨-, hst⟩⟩
    · rw [heq]
    · refine hset (fun hkey => ?_) hst
      obtain ⟨hsubj, hcons⟩ := pairKey_plain hs (slash_notMem_of_nameValid hc) hkey
      obtain ⟨x, hx, d', hd', hdc, hds⟩ := he.answers t ht htg htf (hcar.consumer.trans hcons)
      exact hnone x hx d' hd' hdc (hds.trans (hcar.subject.trans hsubj))
    · rw [hst.same]

theorem stands (he : Enrolled V c before h b) (hg : Renewing c b op)
    (hc : bjmConsumerValid c = true) (hs : slash ∉ s) (hnone : Undelivered c s h) :
    Stands s c b.store (b.apply V op).2.store := by
  by_cases hq : op.Quiet
  · have hrecord := he.record_apply (V := V) hg hc hs hnone hq
    by_cases htrim : ∀ s before force, op ≠ .trim s before force
    · exact .of_same hrecord (App.base_apply he.outstanding.names hg.words htrim s)
    · push Not at htrim
      obtain ⟨subject, before, force, rfl⟩ := htrim
      obtain rfl := hg.unforced _ _ _ rfl
      simp only [App.apply]
      cases hr : b.store.bjmTrim subject before false with
      | error e => exact .refl
      | ok r => exact stands_trim hg.words hs hr
  · cases op with
    | pump send now clock =>
      have hspares := ((spares_rule V).pump send now clock he.outstanding.names hg.words).1
      rcases b.pump_cases V send now clock he.outstanding.names hg.words with
        ⟨-, heq⟩ | ⟨-, ss', ds, st, p', w, -, happ, -, hpass, -, -⟩
      · simp only [App.apply, heq]
        exact .refl
      · rw [happ] at hspares
        simp only [App.apply, happ]
        exact hspares.stands hpass hs
    | publish => exact absurd trivial hq
    | ack => exact absurd trivial hq
    | unsubscribe => exact absurd trivial hq
    | take => exact absurd trivial hq
    | done => exact absurd trivial hq
    | fail => exact absurd trivial hq
    | trim => exact absurd trivial hq
    | put => exact absurd trivial hq
    | delete => exact absurd trivial hq
    | delivered => exact absurd trivial hq

end Enrolled

/-- The batch begins with the oldest message there is from an index on. -/
def Sent.OldestFrom (d : Sent) (n : ℕ) : Prop :=
  IsLeast {j | n ≤ j ∧ ((d.store.logOf d.sub.subject).get j).isSome = true} d.sub.first

/-- Where the first batch of a subject begins for a consumer that registers: above its
receipt, at the index asked for, at the first message that is yet to come, or at the
beginning of a log that does not exist yet. -/
structure App.Opens (b : App) (req : Request) (c : Bytes) (d : Sent) : Prop where
  batch : ∃ es, d.sub.body = .batch es ∧
    es[0]? = (d.store.logOf d.sub.subject).get d.sub.first
  readable : b.store.Reads d.sub.subject c
  read : ∀ n, b.store.bjmCursorGet d.sub.subject c = .ok (some n) → d.OldestFrom (n + 1)
  listed : d.sub.subject ∈ b.store.logs → b.store.bjmCursorGet d.sub.subject c = .ok none →
    req.startsLast = false → d.OldestFrom (req.queryU64 (ascii "from") 0)
  last : d.sub.subject ∈ b.store.logs → b.store.bjmCursorGet d.sub.subject c = .ok none →
    req.startsLast = true → d.sub.first = (b.store.logOf d.sub.subject).last + 1
  later : d.sub.subject ∉ b.store.logs → b.store.bjmCursorGet d.sub.subject c = .ok none →
    d.OldestFrom 1

/-- A batch that begins right behind an index and the log's base begins with the oldest
message above that index. -/
theorem Sent.oldestFrom {d : Sent} {n receipt : ℕ} (hb : d.store.Behind d.sub)
    (hfirst : d.sub.first = max receipt (d.store.logOf d.sub.subject).base + 1)
    (hn : n - 1 = receipt) : d.OldestFrom n := by
  have hnonempty := hb.nonempty
  have hwithin := hb.within
  refine ⟨⟨by omega, Elog.get_isSome_iff.mpr ⟨by omega, by omega⟩⟩, ?_⟩
  rintro j ⟨hj, hsome⟩
  have hbase := (Elog.get_isSome_iff.mp hsome).1
  omega

namespace Enrolled

variable {V : Vendor} {c : Bytes} {before h : List PushStep} {b : App} {op : PushOp} {st : Store}
  {d : Sent}

theorem behind_of_stands (he : Enrolled V c before h b) (hg : Renewing c b op)
    (hd : d ∈ (b.apply V op).1) (hdc : d.sub.consumer = c)
    (hst : Stands d.sub.subject c st b.store) :
    d.store.Behind d.sub ∧
      (d.store.logOf d.sub.subject).base = (b.store.logOf d.sub.subject).base ∧
      d.sub.first =
        max (st.receiptOf d.sub.subject c) (d.store.logOf d.sub.subject).base + 1 := by
  obtain ⟨send, now, clock, -, -, ⟨t, ht, hturn⟩, hpass, -⟩ :=
    App.sent_apply he.outstanding.names hg.words hd
  obtain ⟨helig, ha, -, -, -, -, hdesc⟩ := hturn.sent_inv (List.mem_singleton_self d)
  have hplain := he.plain t ht helig.here (ha.consumer_eq ▸ hdc)
  have hb := hdesc.batch (ha.cfg_eq ▸ hplain)
  have hmax := hst.max_eq
  have hbase := hpass.base d.sub.subject
  refine ⟨hb, hbase, ?_⟩
  rw [hb.first, hdc]
  have hs := hdesc.subject (ha.cfg_eq ▸ hplain)
  rcases hpass.receipt d.sub.subject c hs with heq | ⟨hlt, heq⟩ <;> omega

theorem reads_of_stands (he : Enrolled V c before h b) (hg : Renewing c b op)
    (hd : d ∈ (b.apply V op).1) (hdc : d.sub.consumer = c)
    (hst : Stands d.sub.subject c st b.store) : st.Reads d.sub.subject c := by
  obtain ⟨send, now, clock, rfl, -, ⟨t, ht, hturn⟩, -⟩ :=
    App.sent_apply he.outstanding.names hg.words hd
  obtain ⟨helig, ha, -, -, -, -, hdesc⟩ := hturn.sent_inv (List.mem_singleton_self d)
  have hplain := he.plain t ht helig.here (ha.consumer_eq ▸ hdc)
  have hread := ((spares_rule V).pump send now clock he.outstanding.names hg.words).2 d hd
  obtain ⟨b', hspares, found, hget⟩ := hread (ha.cfg_eq ▸ hplain)
  rw [hdc] at hget
  simp only [Store.Reads, bjmCursorGet] at hget ⊢
  cases hk : cursorKey d.sub.subject c with
  | none => simp [hk] at hget
  | some key =>
    obtain rfl := boundedKey_eq hk
    cases hr : st.cursors[pairKey d.sub.subject c]? with
    | none => exact ⟨none, by simp only [hr]⟩
    | some r =>
      cases hdec : decodeIndex r with
      | ok n => exact ⟨some n, by simp only [hr, hdec, Except.map]⟩
      | error e =>
        -- a record that does not decode is left alone by everyone
        have hbad : ∀ {base : ℕ}, ∀ n, decodeIndex r = .ok n → base ≤ n := by simp [hdec]
        have hs := hdesc.subject (ha.cfg_eq ▸ hplain)
        have hkept := hspares.record _ c r hs (hst.record r hr hbad).1 hbad
        simp [hk, hkept, hdec, Except.map] at hget

end Enrolled

namespace App

variable {V : Vendor} {before h : List PushStep} {b₀ b : App} {op : PushOp} {req : Request}
  {r : Registration} {d : Sent}

theorem opens_of_stands (he : Enrolled V r.consumer before h b) (hg : Renewing r.consumer b op)
    (hr : registration req = .ok r) (hplain : r.cfg.group = []) (habs : b₀.Absent r.consumer)
    (hnames : ∀ name ∈ b₀.push.names, slash ∉ name) (hcount : b₀.Counts) (hw : b₀.store.Words)
    (hd : d ∈ (b.apply V op).1) (hdc : d.sub.consumer = r.consumer)
    (hv : bjmSubjectValid d.sub.subject = true)
    (hmatch : (b₀.push.psubNew r.consumer r.cfg).isMatch d.sub.subject = true)
    (hst : Stands d.sub.subject r.consumer (b₀.apply V (.put req)).2.store b.store) :
    b₀.Opens req r.consumer d := by
  have hs := slash_notMem_of_nameValid hv
  obtain ⟨hnew, hold, hlogs⟩ := put_record (V := V) hr habs hplain hnames hs hmatch
  obtain ⟨hb, hbase, hfirst⟩ := he.behind_of_stands hg hd hdc hst
  have hreads := he.reads_of_stands hg hd hdc hst
  have hknown := hcount d.sub.subject hv
  -- without a seed the receipt is the one there was
  have hsame := fun hunset => bjmCursorGet_congr (hold hunset)
  have hseeded : d.sub.subject ∈ b₀.store.logs →
      b₀.store.bjmCursorGet d.sub.subject r.consumer = .ok none → ∀ n, n < 2 ^ 64 →
        b₀.store.seedAt req.startsLast (req.queryU64 (ascii "from") 0) d.sub.subject = n →
          (b₀.apply V (.put req)).2.store.receiptOf d.sub.subject r.consumer = n := by
    intro hlog hget n hn hat
    have hrec := hnew (hknown.mpr hlog) hget
    simp only [receiptOf, hrec, hat, Option.bind_some, foldl_grabInt_indexRecord,
      ofDouble_toInt64 hn, Option.getD_some]
  refine ⟨?_, ?_, fun n hget => ?_, fun hlog hget hend => ?_, fun hlog hget hend => ?_,
    fun hlog hget => ?_⟩
  · obtain ⟨es, hbody, hlen, hes⟩ := hb.contiguous
    have hnonempty := hb.nonempty
    exact ⟨es, hbody, by simpa using hes 0 (by omega)⟩
  · by_cases hget : b₀.store.bjmCursorGet d.sub.subject r.consumer = .ok none
    · exact ⟨none, hget⟩
    · obtain ⟨found, hfound⟩ := hreads
      exact ⟨found, (hsame fun _ => hget).symm.trans hfound⟩
  · have hset : b₀.store.bjmCursorGet d.sub.subject r.consumer ≠ .ok none := by
      rw [hget]
      simp
    refine d.oldestFrom hb hfirst ?_
    rw [Nat.add_sub_cancel]
    exact (receiptOf_of_get ((hsame fun _ => hset).trans hget)).symm
  · refine d.oldestFrom hb hfirst ?_
    have hfrom : req.queryU64 (ascii "from") 0 < 2 ^ 64 :=
      req.queryU64_lt (ascii "from") (by decide)
    refine (hseeded hlog hget _ (by omega) ?_).symm
    simp [seedAt, hend]
  · have hlast : b₀.store.bjmLastIndex d.sub.subject = (b₀.store.logOf d.sub.subject).last := by
      have hsome := ExtTreeMap.isSome_getElem?_iff_mem.mpr hlog
      obtain ⟨log, hlog⟩ := Option.isSome_iff_exists.mp hsome
      simp only [bjmLastIndex, subjectGet_of_log _ (fileFits_of_valid hv) hlog, logOf, hlog,
        Option.getD_some]
    have hat : b₀.store.seedAt req.startsLast (req.queryU64 (ascii "from") 0) d.sub.subject =
        (b₀.store.logOf d.sub.subject).last := by
      simp [seedAt, hend, hlast]
    have hreceipt := hseeded hlog hget _ (hw _) hat
    have hrec := hnew (hknown.mpr hlog) hget
    rw [hat] at hrec
    -- the receipt can be read, so no trim has gone beyond it
    obtain ⟨found, hfound⟩ := hreads
    obtain ⟨m, hdec, -⟩ := decodes_of_get hfound hrec
    have hm : ∀ {m}, decodeIndex (indexRecord (b₀.store.logOf d.sub.subject).last) = .ok m →
        m = (b₀.store.logOf d.sub.subject).last := by
      intro m hdec
      have hfold := foldl_of_decodeIndex hdec
      rw [foldl_grabInt_indexRecord, ofDouble_toInt64 (hw _)] at hfold
      exact (Option.some.inj hfold).symm
    have hbefore : ((b₀.apply V (.put req)).2.store.logOf d.sub.subject).base ≤
        (b₀.store.logOf d.sub.subject).last := by
      simp only [logOf, hlogs]
      exact Nat.le_add_right _ _
    have habove := (hst.record _ hrec fun m hdec => hm hdec ▸ hbefore).2 m hdec
    rw [hm hdec] at habove
    rw [hfirst, hreceipt, hbase, Nat.max_eq_left habove]
  · refine d.oldestFrom hb hfirst ?_
    have hunset : d.sub.subject ∈ b₀.push.names →
        b₀.store.bjmCursorGet d.sub.subject r.consumer ≠ .ok none :=
      fun hname => absurd (hknown.mp hname) hlog
    exact (receiptOf_of_get_none ((hsame hunset).trans hget)).symm

end App

/-- What the engine owes a consumer that has registered at this state, after these steps:
the first batch of every subject its pattern takes begins where it should, and to register
once more moves no receipt. -/
structure App.Honours (b : App) (req : Request) (r : Registration) (h : List PushStep)
    (x : PushStep) : Prop where
  first : ∀ d ∈ x.sent, d.sub.consumer = r.consumer → Undelivered r.consumer d.sub.subject h →
    bjmSubjectValid d.sub.subject = true →
      (b.push.psubNew r.consumer r.cfg).isMatch d.sub.subject = true → b.Opens req r.consumer d
  again : ∀ req' r', x.op = .put req' → registration req' = .ok r' → r'.consumer = r.consumer →
    x.after.store.cursors = x.before.store.cursors

/-- Wherever a consumer without a registration registers, and whatever happens from then on
while it stays registered, the first batch of each subject begins as documented. -/
theorem subscription_starts {V : Vendor} {st : Store} {listing : List Bytes} {n : ℕ}
    {pre post : List PushOp} {req : Request} {r : Registration} (hl : st.Directory listing)
    (hv : st.Enlisted) (hr : registration req = .ok r) (hg : r.cfg.group = [])
    (hpre : Along (pushExec V) (fun _ b op => b.store.Words ∧ op.Named) []
      (App.start st listing n) (pre ++ [.put req]))
    (habs : (run (pushExec V) (App.start st listing n) pre).2.Absent r.consumer)
    (hpost : Along (pushExec V) (fun _ b op => Renewing r.consumer b op) []
      ((run (pushExec V) (App.start st listing n) pre).2.apply V (.put req)).2 post) :
    let b := (run (pushExec V) (App.start st listing n) pre).2
    Each (b.Honours req r) (run (pushExec V) (b.apply V (.put req)).2 post).1 := by
  obtain ⟨hbefore, ⟨hw, -⟩, -⟩ := along_append.mp hpre
  obtain ⟨ho, hcount⟩ := invariant (I := fun h b => Outstanding V h b.push ∧ b.Counts)
    ⟨App.start_outstanding hl.plain hv, App.start_counts hl n⟩ hbefore fun h b op hg hi =>
      ⟨hi.1.step hg.1 hg.2, hi.2.apply hi.1.names hg.1 hg.2⟩
  intro b
  have hc := (registration_checked hr).consumer
  have hinv := invariant (I := fun h b' =>
      (Enrolled V r.consumer ([] ++ (run (pushExec V) (App.start st listing n) pre).1 ++
          (pushExec V b (.put req)).1) h b' ∧
        ∀ s, slash ∉ s → Undelivered r.consumer s h →
          Stands s r.consumer (b.apply V (.put req)).2.store b'.store) ∧
      Each (b.Honours req r) h)
    ⟨⟨App.enrolled_put ho hw hr habs hg, fun _ _ _ => .refl⟩, each_nil⟩ hpost
    fun h b' op hop hi => by
      obtain ⟨⟨he, hstands⟩, heach⟩ := hi
      refine ⟨⟨he.step hop, fun s hs hnone => ?_⟩, heach.snoc ⟨?_, ?_⟩⟩
      · have hearlier : Undelivered r.consumer s h := fun x hx =>
          hnone x (List.mem_append_left _ hx)
        exact (hstands s hs hearlier).trans (he.stands hop hc hs hearlier)
      · intro d hd hdc hnone hvalid hmatch
        exact App.opens_of_stands he hop hr hg habs ho.names hcount hw hd hdc hvalid hmatch
          (hstands _ (slash_notMem_of_nameValid hvalid) hnone)
      · rintro req' r' rfl hr' hc'
        exact he.put_again (V := V) hr' hc'
  simpa using hinv.2

/-- `billing` asks for what is published from now on, when `orders` has two messages. -/
def startLast : Request := putBilling [(ascii "start", ascii "last")]

def twoOrders : List PushOp :=
  [.publish 1 (ascii "orders") ⟨BJM_ENTRY_PLAIN, [7]⟩,
    .publish 1 (ascii "orders") ⟨BJM_ENTRY_PLAIN, [8]⟩]

/-- A third message comes, a trim asks for everything, and `billing` registers once more. -/
def thirdOrder : List PushOp :=
  [.publish 2 (ascii "orders") ⟨BJM_ENTRY_PLAIN, [9]⟩, .trim (ascii "orders") 9 false,
    .put (putBilling []), .pump (fun _ => true) 3 3]

/-- A publish, an unforced trim, a registration without a group, or a pass. -/
def PushOp.Everyday : PushOp → Prop
  | .publish _ subject _ => bjmSubjectValid subject = true
  | .trim _ _ force => force = false
  | .put req => (registration req).toOption.map (fun r => r.cfg.group) = some []
  | .pump .. => True
  | _ => False

theorem renewing_of_everyday {c : Bytes} {b : App} {op : PushOp} (hw : b.store.Words)
    (h : op.Everyday) : Renewing c b op := by
  have hput : ∀ req r, op = .put req → registration req = .ok r → r.cfg.group = [] := by
    rintro req r rfl hr
    simp only [PushOp.Everyday, hr] at h
    simpa [Except.toOption] using h
  refine ⟨⟨?_, hw, ?_⟩, ?_, ?_, ?_, ?_, fun req r hop hr _ => hput req r hop hr⟩
  · cases op with
    | publish now subject e => exact h
    | _ => trivial
  · rintro clock id r now rfl
    exact h.elim
  · rintro s c' i rfl
    exact h.elim
  · rintro s c' rfl
    exact h.elim
  · rintro s before force rfl
    exact h
  · rintro ⟨req, rfl, -⟩
    exact h.elim

/-- It is sent the third one first. -/
theorem startLast_opens :
    let b := (run (pushExec .packing) (App.start .empty [] 0) twoOrders).2
    let h := (run (pushExec .packing) (b.apply .packing (.put startLast)).2 thirdOrder).1
    (h.flatMap PushStep.sent).map (·.sub.first) = [3] ∧
      ∃ r, registration startLast = .ok r ∧ Each (b.Honours startLast r) h := by
  have hvalid : bjmSubjectValid (ascii "orders") = true := by decide
  have hlisted : Store.empty.Directory [] := by
    refine ⟨by simp, fun x _ => ?_⟩
    simp [Store.empty]
  have hfields : (registration startLast).toOption.map (fun r => (r.consumer, r.cfg.group)) =
      some (ascii "billing", []) := by decide +kernel
  cases hr : registration startLast with
  | error a => simp [hr, Except.toOption] at hfields
  | ok r =>
    simp only [hr, Except.toOption, Option.map_some, Option.some.injEq, Prod.mk.injEq] at hfields
    refine ⟨by decide +kernel, r, rfl, subscription_starts (n := 0) hlisted ?_ hr hfields.2
      ⟨⟨words_of_logs ?_, hvalid⟩, ⟨words_of_logs ?_, hvalid⟩, ⟨words_of_logs ?_, trivial⟩, trivial⟩
      ⟨?_, fun t ht => ?_⟩ ⟨renewing_of_everyday (words_of_logs ?_) hvalid,
        renewing_of_everyday (words_of_logs ?_) rfl, renewing_of_everyday (words_of_logs ?_) ?_,
        renewing_of_everyday (words_of_logs ?_) trivial, trivial⟩⟩
    · intro k r hr
      simp [Store.empty] at hr
    · decide +kernel
    · decide +kernel
    · decide +kernel
    · rw [hfields.1]
      rfl
    · have hnone :
          (run (pushExec .packing) (App.start .empty [] 0) twoOrders).2.push.subs = [] := by
        decide +kernel
      rw [hnone] at ht
      exact absurd ht List.not_mem_nil
    · decide +kernel
    · decide +kernel
    · decide +kernel
    · exact (by decide +kernel : (registration (putBilling [])).toOption.map
        (fun r => r.cfg.group) = some [])
    · decide +kernel

end SukkalMsg
