import SukkalMsg.ReplySettlement

/-!
# What a step does to the store

Logs are appended to and trimmed. Receipts come from acknowledgements, from the
seeding of a registration, from replies, and from a pass that finds one below the
base of its log. They move forward, unless somebody deletes them.
-/

namespace SukkalMsg

open Std Names Binjson OrderedScan BoundedTable Store ActionRuns

namespace Store

/-- A trim leaves the store, or compacts the one log and prunes its marks. -/
theorem bjmTrim_store {st st' : Store} {name : Bytes} {before base removed : ℕ} {force : Bool}
    (h : st.bjmTrim name before force = .ok (base, removed, st')) :
    st' = st ∨
      MarksOnly name { st with logs := st.logs.insert name ((st.logOf name).compact base) } st' := by
  simp only [bjmTrim] at h
  split at h
  · contradiction
  split at h
  · contradiction
  rename_i log hget
  obtain ⟨-, -, rfl⟩ := subjectGet_logOf hget
  split at h
  · obtain ⟨-, -, rfl⟩ := by simpa using h
    exact .inl rfl
  · obtain ⟨rfl, -, rfl⟩ := by simpa using h
    refine .inr ?_
    split
    · exact marksPrune_marksOnly _ _ _
    · exact .refl

theorem bjmTrim_others {st st' : Store} {name s : Bytes} {before base removed : ℕ} {force : Bool}
    (h : st.bjmTrim name before force = .ok (base, removed, st')) (hs : s ≠ name) :
    st'.logOf s = st.logOf s := by
  rcases bjmTrim_store h with rfl | hm
  · rfl
  · rw [logOf_insert hm.logs_eq, if_neg (Ne.symm hs)]
    rfl

theorem bjmTrim_trees {st st' : Store} {name : Bytes} {before base removed : ℕ} {force : Bool}
    (h : st.bjmTrim name before force = .ok (base, removed, st')) :
    st'.cursors = st.cursors ∧ st'.queues = st.queues ∧ st'.push = st.push := by
  rcases bjmTrim_store h with rfl | hm
  · exact ⟨rfl, rfl, rfl⟩
  · exact ⟨hm.cursors_eq, hm.queues_eq, hm.push_eq⟩

/-- Logs only go on: nothing is taken off their end, nor put back at their front. -/
structure Onward (st st' : Store) : Prop where
  base : ∀ s, (st.logOf s).base ≤ (st'.logOf s).base
  last : ∀ s, (st.logOf s).last ≤ (st'.logOf s).last

namespace Onward

variable {st st' st'' : Store} {who : Bytes → Prop}

theorem refl : Onward st st := ⟨fun _ => Nat.le_refl _, fun _ => Nat.le_refl _⟩

theorem trans (h : Onward st st') (h' : Onward st' st'') : Onward st st'' :=
  ⟨fun s => Nat.le_trans (h.base s) (h'.base s), fun s => Nat.le_trans (h.last s) (h'.last s)⟩

theorem of_logs (h : st'.logs = st.logs) : Onward st st' := by
  have hlog : ∀ s, st'.logOf s = st.logOf s := fun s => by simp only [logOf, h]
  constructor <;> intro s <;> rw [hlog]

theorem of_passed (h : Passed who st st') : Onward st st' :=
  ⟨fun s => Nat.le_of_eq (h.base s).symm, h.last_le⟩

theorem of_publish {now n : ℕ} {name : Bytes} {e : Entry}
    (h : st.bjmPublish now name e = .ok (n, st')) : Onward st st' := by
  obtain ⟨-, hlogs, -⟩ := bjmPublish_eq h
  constructor <;> intro s <;> rw [logOf_insert hlogs] <;> split
  · rename_i hs
    rw [hs, Elog.append_base]
  · exact Nat.le_refl _
  · rename_i hs
    rw [hs, Elog.append_last]
    exact Nat.le_succ _
  · exact Nat.le_refl _

theorem of_trim {name : Bytes} {before base removed : ℕ} {force : Bool}
    (h : st.bjmTrim name before force = .ok (base, removed, st')) : Onward st st' := by
  obtain ⟨hbase, hlast, hle, -, -⟩ := bjmTrim_log h
  constructor <;> intro s <;> by_cases hs : s = name
  · rw [hs, hbase]
    exact hle
  · rw [bjmTrim_others h hs]
  · rw [hs, hlast]
  · rw [bjmTrim_others h hs]

end Onward

theorem bjmCursorSet_same {st st' : Store} {s c : Bytes} {n : ℕ}
    (h : st.bjmCursorSet s c n = .ok st') : st' = { st with cursors := st'.cursors } := by
  rcases bjmCursorSet_eq h with ⟨rfl, -⟩ | ⟨rfl, -⟩ <;> rfl

/-- A receipt set moves forward, and no other moves. -/
theorem receipt_cursorSet {st st' : Store} {name consumer : Bytes} {n : ℕ} (hname : slash ∉ name)
    (hn : n < 2 ^ 64) (h : st.bjmCursorSet name consumer n = .ok st') {s c : Bytes} (hs : slash ∉ s) :
    st'.receiptOf s c = st.receiptOf s c ∨
      s = name ∧ c = consumer ∧ st.receiptOf s c ≤ n ∧ st'.receiptOf s c = n := by
  rcases bjmCursorSet_eq h with ⟨rfl, -⟩ | ⟨rfl, hold⟩
  · exact .inl rfl
  · rw [receiptOf_insert hn]
    split
    · rename_i hkey
      obtain ⟨rfl, rfl⟩ := pairKey_injective hname hs hkey
      refine .inr ⟨rfl, rfl, ?_, rfl⟩
      rcases hold with hold | ⟨-, hold⟩
      · rw [receiptOf_of_get_none hold]
        exact Nat.zero_le _
      · exact Nat.le_of_lt hold
    · exact .inl rfl

theorem receiptOf_congr {st st' : Store} (h : st'.cursors = st.cursors) (s c : Bytes) :
    st'.receiptOf s c = st.receiptOf s c := by
  simp only [receiptOf, h]

/-- What a seeding leaves: receipts where there were none. -/
structure Seeded (consumer : Bytes) (st st' : Store) : Prop where
  same : st' = { st with cursors := st'.cursors }
  kept : ∀ (k : Bytes) (r : Record), st.cursors[k]? = some r → st'.cursors[k]? = some r
  others : ∀ k : Bytes, (∀ s, k ≠ pairKey s consumer) → st'.cursors[k]? = st.cursors[k]?

namespace Seeded

variable {consumer : Bytes} {st st' st'' : Store}

theorem refl : Seeded consumer st st := ⟨rfl, fun _ _ h => h, fun _ _ => rfl⟩

theorem trans (h : Seeded consumer st st') (h' : Seeded consumer st' st'') :
    Seeded consumer st st'' := by
  refine ⟨?_, fun k r hr => h'.kept k r (h.kept k r hr),
    fun k hk => (h'.others k hk).trans (h.others k hk)⟩
  rw [h'.same, h.same]

/-- A key without a receipt may get one. -/
theorem of_set {name : Bytes} {n : ℕ} (hget : st.bjmCursorGet name consumer = .ok none)
    (h : st.bjmCursorSet name consumer n = .ok st') : Seeded consumer st st' := by
  refine ⟨bjmCursorSet_same h, fun k r hr => ?_, fun k hk => ?_⟩
  · rcases bjmCursorSet_eq h with ⟨rfl, -⟩ | ⟨rfl, -⟩
    · exact hr
    · rw [getElem?_insert, if_neg]
      · exact hr
      rintro rfl
      simp only [bjmCursorGet] at hget
      split at hget
      · contradiction
      · rename_i key hkey
        obtain rfl := boundedKey_eq hkey
        simp only [hr] at hget
        cases hd : decodeIndex r <;> simp [hd, Except.map] at hget
  · rcases bjmCursorSet_eq h with ⟨rfl, -⟩ | ⟨rfl, -⟩
    · rfl
    · rw [getElem?_insert, if_neg fun he => hk name he.symm]

theorem seedOne (atEnd : Bool) (start : ℕ) (name : Bytes) :
    Seeded consumer st (st.seedOne consumer atEnd start name) := by
  simp only [Store.seedOne]
  split
  · rename_i hget
    split
    · exact .refl
    · exact .of_set hget ‹_›
  · exact .refl

theorem foldl_seedOne (atEnd : Bool) (start : ℕ) (names : List Bytes) :
    Seeded consumer st (names.foldl (fun st name => st.seedOne consumer atEnd start name) st) := by
  induction names generalizing st with
  | nil => exact .refl
  | cons name names ih => exact (seedOne atEnd start name).trans ih

theorem get_none (h : Seeded consumer st st') {s c : Bytes} (hn : st'.bjmCursorGet s c = .ok none) :
    st.bjmCursorGet s c = .ok none := by
  simp only [bjmCursorGet] at hn ⊢
  cases hkey : cursorKey s c with
  | none => simp [hkey] at hn
  | some key =>
    simp only [hkey] at hn ⊢
    cases hr : st.cursors[key]? with
    | none => rfl
    | some r =>
      rw [h.kept key r hr] at hn
      cases hd : decodeIndex r <;> simp [hd, Except.map] at hn

theorem receipt_le (h : Seeded consumer st st') (s c : Bytes) :
    st.receiptOf s c ≤ st'.receiptOf s c := by
  cases hr : st.cursors[pairKey s c]? with
  | none => simp [receiptOf, hr]
  | some r =>
    have := h.kept _ _ hr
    simp [receiptOf, hr, this]

end Seeded

theorem Settlement.same {now : ℕ} {s g : Bytes} {js : List ℕ} {st st' : Store}
    (h : Settlement now s g js st st') : st' = { st with queues := st'.queues } := by
  have hstep : ∀ {a : Store} {j delay : ℕ} {drop : Bool} {r : Released},
      a.queueRelease now s g j drop delay = .ok r → r.store = { a with queues := r.store.queues } := by
    intro a j delay drop r hr
    obtain ⟨q, existed, -, ⟨rfl, -⟩ | ⟨pre, e, suf, q', -, -, -, -, hst, -⟩⟩ := queueRelease_eq hr
    · rfl
    · rw [hst]
  induction h with
  | none => rfl
  | done h hj hr ih =>
    rw [hstep hr]
    generalize hq : Released.store _ = x at *
    rw [ih]
  | fail h hj hr ih =>
    rw [hstep hr]
    generalize hq : Released.store _ = x at *
    rw [ih]

end Store

/-- What a settlement does to the store. -/
theorem Psub.settle_cases (clock : ℕ) (st : Store) (s : Psub) (r : Reply) (now : ℕ) :
    (s.settle clock st r now).store = st ∨
      (s.cfg.group = [] ∧ r.ok = true ∧ s.first ≤ s.ackOf ∧
        st.bjmCursorSet s.subject s.consumer s.ackOf = .ok (s.settle clock st r now).store) ∨
      (s.cfg.group ≠ [] ∧
        Settlement clock s.subject s.cfg.group s.jobs st (s.settle clock st r now).store) := by
  simp only [settle]
  split
  · rename_i hgroup
    rw [finishJobs_store]
    split
    · exact .inr (.inr ⟨hgroup, (settlement_settleJobs clock s r.ok st (List.Subset.refl _)).1⟩)
    · exact .inl rfl
  · rename_i hgroup
    rw [finishBatch_store]
    split
    · rename_i hok
      split
      · exact .inl rfl
      · rename_i hset
        exact .inr (.inl ⟨not_not.mp hgroup, hok.1, hok.2, hset⟩)
    · exact .inl rfl

/-- The steps that append to a log or trim one. -/
def PushOp.Logging : PushOp → Prop
  | .publish .. | .take .. | .trim .. | .pump .. => True
  | _ => False

namespace App

variable {V : Vendor} {b : App}

/-- What a reply does to the store, on behalf of the live subscription whose delivery
it answers. -/
theorem delivered_store {h : List PushStep} (ho : Outstanding V h b.push) (clock id now : ℕ)
    (r : Reply) (hout : ∃ s ∈ b.push.subs, s.id = id ∧ s.inflight = true) :
    (b.delivered clock id r now).store = b.store ∨
      ∃ s ∈ b.push.subs, ∃ d, s.id = id ∧ s.gone = false ∧ s.inflight = true ∧
        lastSent h id = some d ∧ s.Carries d ∧
        ((s.cfg.group = [] ∧ r.ok = true ∧ d.sub.first ≤ d.acked r ∧
            b.store.bjmCursorSet d.sub.subject d.sub.consumer (d.acked r) =
              .ok (b.delivered clock id r now).store) ∨
          s.cfg.group ≠ [] ∧ Settlement clock d.sub.subject s.cfg.group d.sub.jobs b.store
            (b.delivered clock id r now).store) := by
  obtain ⟨s, hs, rfl, hf⟩ := hout
  obtain ⟨d, hd, hcar⟩ := ho.carried s hs hf
  rcases b.delivered_cases clock s.id r now with ⟨-, hnone⟩ | ⟨pre, t, suf, hsubs, hid, hcases⟩
  · exact absurd rfl (hnone s hs)
  have ht : t ∈ b.push.subs := by simp [hsubs]
  obtain rfl := List.inj_on_of_nodup_map ho.ids ht hs hid
  rcases hcases with ⟨-, suf', -, heq⟩ | ⟨hg, x, rfl, heq⟩
  · exact .inl (by rw [heq])
  · obtain ⟨hc, hsub, hfst, hjobs, hcfg, hack⟩ := Psub.hear_carries hcar r
    rw [heq]
    dsimp only
    rcases Psub.settle_cases clock b.store ({ t.hear r with inflight := false } : Psub) r now with
      hsame | ⟨hgroup, hok, hfirst, hset⟩ | ⟨hgroup, hset⟩
    · exact .inl hsame
    · rw [hfst, hack] at hfirst
      rw [hc, hsub, hack] at hset
      rw [hcfg] at hgroup
      exact .inr ⟨t, ht, d, rfl, hg, hf, hd, hcar, .inl ⟨hgroup, hok, hfirst, hset⟩⟩
    · rw [hsub, hjobs, hcfg] at hset
      rw [hcfg] at hgroup
      exact .inr ⟨t, ht, d, rfl, hg, hf, hd, hcar, .inr ⟨hgroup, hset⟩⟩

theorem seeded_seedFor (b : App) (req : Request) (r : Registration) :
    Seeded r.consumer b.store (b.seedFor req r).store := by
  simp only [seedFor]
  split
  · exact Seeded.foldl_seedOne _ _ _
  · exact .refl

theorem hPushPut_store (b : App) (req : Request) :
    (b.hPushPut req).2.store = b.store ∨ ∃ r st₁, registration req = .ok r ∧
      Seeded r.consumer b.store st₁ ∧
      (b.hPushPut req).2.store = st₁.bjmPushSet r.consumer r.cfg := by
  rcases b.hPushPut_push req with heq | ⟨r, found, hr, -, heq⟩
  · exact .inl (by rw [heq])
  · refine .inr ⟨r, (if found.isNone then b.seedFor req r else b).store, hr, ?_, by rw [heq]; rfl⟩
    split
    · exact b.seeded_seedFor req r
    · exact .refl

/-- The other steps leave every log as it is. -/
theorem logs_apply {op : PushOp} (hq : ¬ op.Logging) :
    (b.apply V op).2.store.logs = b.store.logs := by
  have hstored : ∀ {ε : Type} (r : Except ε Store),
      (∀ st, r = .ok st → st.logs = b.store.logs) → (b.stored r).store.logs = b.store.logs := by
    intro ε r hr
    cases r with
    | error e => rfl
    | ok st => exact hr st rfl
  have hrelease : ∀ {now : ℕ} {s g : Bytes} {i delay : ℕ} {drop : Bool} {st : Store},
      (b.store.queueRelease now s g i drop delay).map Released.store = .ok st →
        st.logs = b.store.logs := by
    intro now s g i delay drop st hst
    cases hr : b.store.queueRelease now s g i drop delay with
    | error e => simp [hr, Except.map] at hst
    | ok r =>
      rw [hr] at hst
      obtain rfl := Except.ok.inj hst
      obtain ⟨q, existed, -, ⟨rfl, -⟩ | ⟨pre, e, suf, q', -, -, -, -, hst, -⟩⟩ := queueRelease_eq hr
      · rfl
      · rw [hst]
  cases op with
  | publish => exact absurd trivial hq
  | take => exact absurd trivial hq
  | trim => exact absurd trivial hq
  | pump => exact absurd trivial hq
  | ack subject consumer index =>
    refine hstored _ fun st hst => ?_
    rw [bjmCursorSet_same hst]
  | unsubscribe subject consumer =>
    refine hstored _ fun st hst => ?_
    simp only [bjmCursorDelete] at hst
    split at hst
    · contradiction
    · split at hst <;> obtain rfl := Except.ok.inj hst <;> rfl
  | done now subject group index => exact hstored _ fun st hst => hrelease hst
  | fail now subject group index delay => exact hstored _ fun st hst => hrelease hst
  | put req =>
    simp only [apply]
    rcases b.hPushPut_store req with heq | ⟨r, st₁, -, hseed, heq⟩
    · rw [heq]
    · rw [heq, bjmPushSet, hseed.same]
  | delete req =>
    simp only [apply]
    rcases b.hPushDelete_push req with heq | ⟨c, -, -, heq⟩
    · rw [heq]
    · rw [heq]
      split <;> rfl
  | delivered clock id r now =>
    simp only [apply]
    rcases b.delivered_cases clock id r now with ⟨heq, -⟩ | ⟨pre, t, suf, -, -,
      ⟨-, suf', -, heq⟩ | ⟨-, x, rfl, heq⟩⟩
    · rw [heq]
    · rw [heq]
    · rw [heq]
      dsimp only
      rcases Psub.settle_cases clock b.store ({ t.hear r with inflight := false } : Psub) r now with
        hsame | ⟨-, -, -, hset⟩ | ⟨-, hset⟩
      · rw [hsame]
      · rw [bjmCursorSet_same hset]
      · rw [hset.same]

/-- Whatever a step does, the logs only go on. -/
theorem onward_apply (hn : ∀ name ∈ b.push.names, slash ∉ name) (hw : b.store.Words)
    (op : PushOp) : b.store.Onward (b.apply V op).2.store := by
  by_cases hq : op.Logging
  · cases op with
    | publish now subject e =>
      simp only [apply, publish]
      split
      · exact .refl
      · exact .of_publish ‹_›
    | take now subject group max lease =>
      simp only [apply, take]
      split
      · exact .refl
      · exact .of_passed (passed_take ‹_›)
    | trim subject before force =>
      simp only [apply]
      cases hr : b.store.bjmTrim subject before force with
      | error e => exact .refl
      | ok r => exact .of_trim hr
    | pump send now clock =>
      rcases b.pump_cases V send now clock hn hw with
        ⟨-, heq⟩ | ⟨-, ss', ds, st, p', w, -, happ, -, hpass, -, -⟩
      · simp only [apply, heq]
        exact .refl
      · simp only [apply, happ]
        exact .of_passed hpass
    | ack => exact hq.elim
    | unsubscribe => exact hq.elim
    | done => exact hq.elim
    | fail => exact hq.elim
    | put => exact hq.elim
    | delete => exact hq.elim
    | delivered => exact hq.elim
  · exact .of_logs (logs_apply hq)

end App

end SukkalMsg
