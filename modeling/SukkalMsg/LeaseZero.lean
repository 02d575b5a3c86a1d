import SukkalMsg.CompleteTakes
import SukkalMsg.TakeFaults

/-!
# Takes without a lease

A take with a lease of 0 hands jobs out for good: the new ones never enter the table, and
the next job moves past them. A job that is let again is in the table already, and there
it stays, its lease over as soon as it begins.
-/

namespace SukkalMsg

open Std Names Binjson OrderedScan JobLedger ActionRuns Store

universe u

variable {W : Type u} {V : Vendor} {s g : Bytes}

/-- The group a record shows. -/
def groupOf (r : Record) : Qrec := (r.foldl qVisit .zero).qrec

theorem groupOf_queueRecord (q : Qrec) : groupOf (queueRecord q) = q.wrapped := by
  rw [← queueRecord_wrapped, groupOf, foldl_queueRecord q.wrapped_words]

theorem queueLoad_cases {st : Store} {q : Qrec} {existed : Bool}
    (h : st.queueLoad s g = .ok (q, existed)) :
    (∃ r, st.queues[pairKey s g]? = some r ∧ q = groupOf r ∧ q.Words) ∨
      st.queues[pairKey s g]? = none ∧ ∃ next, q = .fresh next ∧ next ≤ (st.logOf s).last + 1 := by
  rw [queueLoad_eq_logOf] at h
  split at h
  · contradiction
  · rename_i key hkey
    obtain rfl := boundedKey_eq hkey
    split at h
    · rename_i r hr
      cases hd : queueDecode r with
      | error e => simp [hd, Except.map] at h
      | ok q' =>
        simp only [hd, Except.map, Except.ok.injEq, Prod.mk.injEq] at h
        obtain ⟨rfl, -⟩ := h
        refine .inl ⟨r, hr, ?_, words_of_queueDecode hd⟩
        by_cases hread : Readable r
        · rw [queueDecode, bjDecode_of_readable _ hread] at hd
          exact (Except.ok.inj hd).symm
        · simp [queueDecode, bjDecode_of_unreadable _ hread, Except.map] at hd
    · rename_i hr
      simp only [Except.ok.injEq, Prod.mk.injEq] at h
      refine .inr ⟨hr, _, h.1.symm, ?_⟩
      simp only [Elog.last]
      split <;> omega

/-- What a call makes of a group's record: it may hand out new jobs and drop some it had. -/
structure MovesOn (last : ℕ) (q q' : Qrec) : Prop where
  next_le : q.next ≤ q'.next
  bounded : q'.next = q.next ∨ q'.next ≤ last + 1
  rows : ∀ f ∈ q'.fl.rows,
    (∃ e ∈ q.fl.rows, e.index = f.index) ∨ q.next ≤ f.index ∧ f.index < q'.next
  nodup : Orderly q → (q'.fl.rows.map Slot.index).Nodup

namespace MovesOn

variable {last : ℕ} {q q' : Qrec}

theorem orderly (h : MovesOn last q q') (ho : Orderly q) : Orderly q' where
  nodup := h.nodup ho
  below := by
    intro f hf
    have hle := h.next_le
    rcases h.rows f hf with ⟨e, he, heq⟩ | ⟨-, hlt⟩
    · have := ho.below e he
      omega
    · exact hlt

theorem words (h : MovesOn last q q') (hq : q.next < 2 ^ 64)
    (hrows : ∀ e ∈ q.fl.rows, e.index < 2 ^ 64) (hlast : last + 1 < 2 ^ 64) :
    q'.next < 2 ^ 64 ∧ ∀ f ∈ q'.fl.rows, f.index < 2 ^ 64 := by
  have hnext : q'.next < 2 ^ 64 := by
    have := h.bounded
    omega
  refine ⟨hnext, fun f hf => ?_⟩
  rcases h.rows f hf with ⟨e, he, heq⟩ | ⟨-, hlt⟩
  · rw [← heq]
    exact hrows e he
  · omega

theorem take {now lease k : ℕ} {plan : TakeState} {kept old buried : List Slot}
    (ho : TakeOutcome now lease last q plan kept old buried k) : MovesOn last q plan.q where
  next_le := by
    rw [ho.next]
    omega
  bounded := by
    have hle := ho.fresh_le
    rw [ho.next]
    omega
  rows := by
    intro f hf
    rcases List.mem_append.mp (ho.after.mem_iff.mp hf) with hf | hf
    · refine .inl ?_
      rcases List.mem_append.mp hf with hf | hf
      · exact ⟨f, ho.before.mem_iff.mpr (List.mem_append_left _ hf), rfl⟩
      · obtain ⟨e, he, rfl⟩ := List.mem_map.mp hf
        exact ⟨e, ho.before.mem_iff.mpr (by simp [he]), rfl⟩
    · refine .inr ?_
      simp only [freshRows] at hf
      split at hf
      · obtain ⟨i, hi, rfl⟩ := List.mem_map.mp hf
        rw [ho.next]
        exact List.mem_range'_1.mp hi
      · exact absurd hf List.not_mem_nil
  nodup := by
    intro hq
    have hbefore := (ho.before.map Slot.index).nodup_iff.mp hq.nodup
    have hbelow : ∀ i ∈ (kept ++ (old ++ buried)).map Slot.index, i < q.next := by
      intro i hi
      obtain ⟨e, he, rfl⟩ := List.mem_map.mp hi
      exact hq.below e (ho.before.mem_iff.mpr he)
    rw [(ho.after.map Slot.index).nodup_iff]
    have hrenew : (kept ++ old.map (Slot.renew now lease)).map Slot.index =
        (kept ++ old).map Slot.index := by
      simp [Slot.renew, Function.comp_def]
    rw [List.map_append, hrenew]
    rw [← List.append_assoc, List.map_append] at hbefore hbelow
    refine List.nodup_append.mpr ⟨(List.nodup_append.mp hbefore).1, ?_, ?_⟩
    · simp only [freshRows]
      split
      · rw [List.map_map, show Slot.index ∘ Slot.first now lease = id from rfl, List.map_id]
        exact List.nodup_range'
      · exact List.nodup_nil
    · rintro i hi j hj rfl
      have hlt := hbelow i (List.mem_append_left _ hi)
      simp only [freshRows] at hj
      split at hj
      · rw [List.map_map, show Slot.index ∘ Slot.first now lease = id from rfl, List.map_id] at hj
        have := (List.mem_range'_1.mp hj).1
        omega
      · exact absurd hj List.not_mem_nil

theorem finish {pre suf : List Slot} {e : Slot} (hrows : q.fl.rows = pre ++ e :: suf) :
    MovesOn last q { q with fl := q.fl.swapRemove pre.length } := by
  obtain ⟨suf', hrows', hperm⟩ := BoundedTable.swapRemove_rows hrows
  refine ⟨Nat.le_refl _, .inl rfl, fun f hf => .inl ⟨f, ?_, rfl⟩, fun hq => ?_⟩
  · rw [hrows'] at hf
    rw [hrows]
    exact ((List.sublist_cons_self e suf).append_left pre).mem
      ((hperm.append_left pre).mem_iff.mp hf)
  · have hnodup := hq.nodup
    rw [hrows] at hnodup
    dsimp only
    rw [hrows', ((hperm.append_left pre).map Slot.index).nodup_iff]
    exact hnodup.sublist (((List.sublist_cons_self e suf).append_left pre).map Slot.index)

theorem release {pre suf : List Slot} {e : Slot} (hrows : q.fl.rows = pre ++ e :: suf)
    (expires : ℕ) :
    MovesOn last q { q with fl := q.fl.set pre.length { e with expires := expires } } := by
  have hindex : ((q.fl.set pre.length { e with expires := expires }).rows.map Slot.index) =
      q.fl.rows.map Slot.index := by
    rw [BoundedTable.set_rows hrows, hrows]
    simp only [List.map_append, List.map_cons]
  refine ⟨Nat.le_refl _, .inl rfl, fun f hf => .inl ?_, fun hq => ?_⟩
  · have := List.mem_map_of_mem (f := Slot.index) hf
    dsimp only at this
    rw [hindex] at this
    exact List.mem_map.mp this
  · dsimp only
    rw [hindex]
    exact hq.nodup

end MovesOn

theorem bjmTake_record {st : Store} {now lease : ℕ} {max : ℤ} {t : Taken} {q : Qrec}
    {existed : Bool} (h : st.bjmTake V now s g max lease = .ok t)
    (hload : st.queueLoad s g = .ok (q, existed)) :
    t.jobs = takenJobs now (effectiveLease lease q) (st.logOf s)
        (plannedTake now max lease (st.logOf s) q).chosen ∧
      t.store.queues[pairKey s g]? =
        some (queueRecord (plannedTake now max lease (st.logOf s) q).q) ∧
      t.store.logOf s = st.logOf s := by
  obtain ⟨log, q₁, existed₁, plan, hget, hload₁, hplan, hjobs, -, hst⟩ := bjmTake_eq h
  obtain ⟨rfl, -⟩ := Prod.mk.inj (Except.ok.inj (hload.symm.trans hload₁))
  obtain ⟨hfits, hlogs, rfl⟩ := subjectGet_logOf hget
  have hget' := subjectGet_of_log
    { st with queues := st.queues.insert (pairKey s g) (queueRecord plan.q) } hfits hlogs false
  obtain ⟨hqueues, hlog⟩ := deadLetters_queues V now g hget' plan.deadNow.rows
  rw [← hst] at hqueues hlog
  subst hplan
  refine ⟨hjobs, ?_, hlog⟩
  rw [hqueues]
  exact ExtTreeMap.getElem?_insert_self

theorem plannedTake_advances (now : ℕ) (max : ℤ) (lease : ℕ) (log : Elog) (q : Qrec) :
    MovesOn log.last q (plannedTake now max lease log q).q := by
  obtain ⟨kept, old, buried, k, ho⟩ := takePlan_outcome now (effectiveLease lease q)
    (clampMax max) log.last { q with leaseMs := effectiveLease lease q }
  obtain ⟨hle, hbound, hrows, hnodup⟩ := MovesOn.take ho
  exact ⟨hle, hbound, hrows, fun hq => hnodup ⟨hq.nodup, hq.below⟩⟩

/-- A call leaves the record of the group, or advances it. -/
theorem groupExec_record (V : Vendor) (s g : Bytes) (st : Store) (op : GroupOp W) :
    (groupExec V s g st op).2.queues[pairKey s g]? = st.queues[pairKey s g]? ∨
      ∃ q existed q', st.queueLoad s g = .ok (q, existed) ∧
        (groupExec V s g st op).2.queues[pairKey s g]? = some (queueRecord q') ∧
        MovesOn (st.logOf s).last q q' := by
  have hreleased : ∀ (now index delay : ℕ) (drop : Bool) (r : Released),
      st.queueRelease now s g index drop delay = .ok r →
      r.store.queues[pairKey s g]? = st.queues[pairKey s g]? ∨
        ∃ q existed q', st.queueLoad s g = .ok (q, existed) ∧
          r.store.queues[pairKey s g]? = some (queueRecord q') ∧
          MovesOn (st.logOf s).last q q' := by
    intro now index delay drop r hr
    obtain ⟨q, existed, hload, ⟨rfl, -⟩ | ⟨pre, e, suf, q', hrows, -, -, -, hst, hq', -⟩⟩ :=
      queueRelease_eq hr
    · exact .inl rfl
    · refine .inr ⟨q, existed, q', hload, ?_, ?_⟩
      · rw [hst]
        exact ExtTreeMap.getElem?_insert_self
      · rw [hq']
        cases drop with
        | true => exact .finish hrows
        | false => exact .release hrows _
  cases op with
  | publish now e =>
    simp only [groupExec]
    cases hpub : st.bjmPublish now s e with
    | error err => exact .inl rfl
    | ok x =>
      obtain ⟨-, -, hm⟩ := bjmPublish_eq hpub
      exact .inl (by rw [hm.queues_eq])
  | take w now max lease =>
    simp only [groupExec]
    cases htake : st.bjmTake V now s g max lease with
    | error err => exact .inl rfl
    | ok t =>
      obtain ⟨log, q, existed, plan, hget, hload, -⟩ := bjmTake_eq htake
      exact .inr ⟨q, existed, _, hload, (bjmTake_record htake hload).2.1,
        plannedTake_advances now max lease (st.logOf s) q⟩
  | done w now index =>
    simp only [groupExec]
    cases hdone : st.bjmDone now s g index with
    | error err => exact .inl rfl
    | ok r => exact hreleased _ _ _ _ r hdone
  | fail w now index delay =>
    simp only [groupExec]
    cases hfail : st.bjmFail now s g index delay with
    | error err => exact .inl rfl
    | ok r => exact hreleased _ _ _ _ r hfail
  | config leaseMs maxAttempts backoffMs maxBackoffMs =>
    simp only [groupExec, bjmQueueConfig]
    cases hload : st.queueLoad s g with
    | error err => exact .inl rfl
    | ok p =>
      obtain ⟨q, existed⟩ := p
      simp only [queueStore_of_key (queueKey_of_load hload)]
      refine .inr ⟨q, existed, _, rfl, ExtTreeMap.getElem?_insert_self, ?_⟩
      exact ⟨Nat.le_refl _, .inl rfl, fun f hf => .inl ⟨f, hf, rfl⟩, fun hq => hq.nodup⟩

/-- The log of the subject has an index for one more message. -/
def HasRoom (s : Bytes) (st : Store) : Prop := (st.logOf s).last + 2 < 2 ^ 64

instance (s : Bytes) (st : Store) : Decidable (HasRoom s st) := by
  unfold HasRoom
  infer_instance

theorem groupExec_last (V : Vendor) (g : Bytes) {st : Store} (op : GroupOp W)
    (hroom : HasRoom s st) : ((groupExec V s g st op).2.logOf s).last + 1 < 2 ^ 64 := by
  simp only [HasRoom] at hroom
  rcases (groupExec_logs (V := V) (g := g) st op).1 with hlog | ⟨e, hlog⟩
  · rw [hlog]
    omega
  · rw [hlog, Elog.append_last]
    omega

/-- The group has an orderly record, if it has one. -/
structure Ordered (s g : Bytes) (st : Store) : Prop where
  record : ∀ r, st.queues[pairKey s g]? = some r → Orderly (groupOf r)
  last : (st.logOf s).last + 1 < 2 ^ 64

namespace Ordered

variable {st : Store}

theorem load (hi : Ordered s g st) {q : Qrec} {existed : Bool}
    (h : st.queueLoad s g = .ok (q, existed)) :
    Orderly q ∧ q.next < 2 ^ 64 ∧ ∀ e ∈ q.fl.rows, e.index < 2 ^ 64 := by
  rcases queueLoad_cases h with ⟨r, hr, rfl, hwords⟩ | ⟨-, next, rfl, hle⟩
  · refine ⟨hi.record r hr, hwords _ (by simp [Qrec.ints]), fun e he => ?_⟩
    refine hwords e.index ?_
    simp only [Qrec.ints, List.mem_append]
    exact .inl (.inr (mem_flat.mpr ⟨e, he, .inl rfl⟩))
  · have hlast := hi.last
    refine ⟨⟨List.nodup_nil, ?_⟩, ?_, ?_⟩
    · simp [Qrec.fresh]
    · exact Nat.lt_of_le_of_lt hle hlast
    · simp [Qrec.fresh]

theorem readBack (hi : Ordered s g st) {q q' : Qrec} {existed : Bool}
    (h : st.queueLoad s g = .ok (q, existed)) (hadv : MovesOn (st.logOf s).last q q') :
    (groupOf (queueRecord q')).next = q'.next ∧
      (groupOf (queueRecord q')).fl.rows.map Slot.index = q'.fl.rows.map Slot.index := by
  obtain ⟨-, hnext, hrows⟩ := hi.load h
  obtain ⟨hnext', hrows'⟩ := hadv.words hnext hrows hi.last
  rw [groupOf_queueRecord]
  refine ⟨u64_of_lt hnext', ?_⟩
  simp only [Qrec.wrapped, List.map_map]
  refine List.map_congr_left fun f hf => ?_
  exact u64_of_lt (hrows' f hf)

theorem step (V : Vendor) (hi : Ordered s g st) (op : GroupOp W) (hroom : HasRoom s st) :
    Ordered s g (groupExec V s g st op).2 := by
  refine ⟨fun r hr => ?_, groupExec_last V g op hroom⟩
  rcases groupExec_record V s g st op with hsame | ⟨q, existed, q', hload, hstored, hadv⟩
  · rw [hsame] at hr
    exact hi.record r hr
  · rw [hstored] at hr
    obtain rfl := Option.some.inj hr
    obtain ⟨hnext, hrows⟩ := hi.readBack hload hadv
    have ho := hadv.orderly (hi.load hload).1
    refine ⟨by rw [hrows]; exact ho.nodup, fun e he => ?_⟩
    have hmem := List.mem_map_of_mem (f := Slot.index) he
    rw [hrows] at hmem
    obtain ⟨f, hf, heq⟩ := List.mem_map.mp hmem
    rw [hnext, ← heq]
    exact ho.below f hf

theorem run (V : Vendor) (hi : Ordered s g st) {ops : List (GroupOp W)}
    (hrun : Along (groupExec V s g) (fun _ st _ => HasRoom s st) [] st ops) :
    Ordered s g (ActionRuns.run (groupExec V s g) st ops).2 :=
  invariant (I := fun _ st => Ordered s g st) hi hrun fun _ _ op hroom hi => hi.step V op hroom

end Ordered

/-- The group has moved past the job, and does not hold it. -/
def Past (s g : Bytes) (i : ℕ) (st : Store) : Prop :=
  ∃ r, st.queues[pairKey s g]? = some r ∧ i < (groupOf r).next ∧
    i ∉ (groupOf r).fl.rows.map Slot.index

namespace Past

variable {st : Store} {i : ℕ}

theorem not_listed (h : Past s g i st) : ¬ st.Listed s g i := by
  obtain ⟨r, hr, -, hout⟩ := h
  rintro ⟨r', hr', hin⟩
  obtain rfl := Option.some.inj (hr.symm.trans hr')
  exact hout hin

theorem of_load (h : Past s g i st) {q : Qrec} {existed : Bool}
    (hload : st.queueLoad s g = .ok (q, existed)) : i < q.next ∧ i ∉ q.fl.rows.map Slot.index := by
  obtain ⟨r, hr, hlt, hout⟩ := h
  rcases queueLoad_cases hload with ⟨r', hr', rfl, -⟩ | ⟨hnone, -⟩
  · obtain rfl := Option.some.inj (hr.symm.trans hr')
    exact ⟨hlt, hout⟩
  · rw [hr] at hnone
    contradiction

theorem step (V : Vendor) (h : Past s g i st) (hi : Ordered s g st) (op : GroupOp W) :
    Past s g i (groupExec V s g st op).2 := by
  rcases groupExec_record V s g st op with hsame | ⟨q, existed, q', hload, hstored, hadv⟩
  · obtain ⟨r, hr, hlt, hout⟩ := h
    exact ⟨r, hsame.trans hr, hlt, hout⟩
  · obtain ⟨hlt, hout⟩ := h.of_load hload
    obtain ⟨hnext, hrows⟩ := hi.readBack hload hadv
    refine ⟨_, hstored, ?_, ?_⟩
    · rw [hnext]
      exact Nat.lt_of_lt_of_le hlt hadv.next_le
    · rw [hrows]
      intro hin
      obtain ⟨f, hf, rfl⟩ := List.mem_map.mp hin
      rcases hadv.rows f hf with ⟨e, he, heq⟩ | ⟨hle, -⟩
      · exact hout (List.mem_map.mpr ⟨e, he, heq⟩)
      · omega

end Past

theorem job_cases {now lease : ℕ} {max : ℤ} {log : Elog} {q : Qrec} {j : Job}
    (hj : j ∈ takenJobs now (effectiveLease lease q) log (plannedTake now max lease log q).chosen) :
    Lives log j.index ∧ ((∃ e ∈ againRows now (clampMax max) q, e.index = j.index) ∨
      q.next ≤ j.index ∧ j.index < (plannedTake now max lease log q).q.next) := by
  have htaken := plannedTake_from now max lease log q
  obtain ⟨c, hc, heq⟩ := List.mem_filterMap.mp hj
  obtain ⟨entry, hentry, rfl⟩ := Option.map_eq_some_iff.mp heq
  refine ⟨Option.isSome_iff_exists.mpr ⟨entry, hentry⟩, ?_⟩
  rw [htaken.chosen] at hc
  rcases List.mem_append.mp hc with hc | hc
  · obtain ⟨e, he, rfl⟩ := List.mem_map.mp hc
    exact .inl ⟨e, he, rfl⟩
  · obtain ⟨i, hi, rfl⟩ := List.mem_map.mp hc
    rw [htaken.next]
    exact .inr (List.mem_range'_1.mp hi)

/-- The jobs a take would let again have lost their messages. -/
def NoneAgain (log : Elog) (now m : ℕ) (q : Qrec) : Prop :=
  ∀ e ∈ againRows now m q, ¬ Lives log e.index

variable {st : Store} {now lease : ℕ} {max : ℤ} {t : Taken} {q : Qrec} {existed : Bool}

/-- No job a group is past is handed out. -/
theorem Past.not_handed {i : ℕ} (h : Past s g i st) (op : GroupOp W) :
    ∀ f ∈ (groupExec V s g st op).1, f.isHand = true → f.job ≠ i := by
  cases op with
  | take w now max lease =>
    simp only [groupExec]
    cases htake : st.bjmTake V now s g max lease with
    | error err => exact fun f hf => absurd hf List.not_mem_nil
    | ok t =>
      obtain ⟨log, q, existed, plan, hget, hload, -⟩ := bjmTake_eq htake
      obtain ⟨hjobs, -⟩ := bjmTake_record htake hload
      obtain ⟨hlt, hout⟩ := h.of_load hload
      intro f hf hhand
      rcases List.mem_append.mp hf with hf | hf
      · obtain ⟨d, -, rfl⟩ := List.mem_map.mp hf
        contradiction
      · obtain ⟨j, hj, rfl⟩ := List.mem_map.mp hf
        rw [hjobs] at hj
        rintro rfl
        rcases (job_cases hj).2 with ⟨e, he, heq⟩ | ⟨hle, -⟩
        · refine hout (List.mem_map.mpr ⟨e, ?_, heq⟩)
          exact (mem_rows_iff now (clampMax max)).mpr (.inl (List.mem_filter.mp he).1)
        · simp only [Event.job] at hlt
          omega
  | publish now e =>
    simp only [groupExec]
    split <;> exact fun f hf => absurd hf List.not_mem_nil
  | done w now index =>
    simp only [groupExec]
    split
    · exact fun f hf => absurd hf List.not_mem_nil
    · intro f hf hhand
      split at hf
      · rw [List.mem_singleton.mp hf] at hhand
        contradiction
      · exact absurd hf List.not_mem_nil
  | fail w now index delay =>
    simp only [groupExec]
    split
    · exact fun f hf => absurd hf List.not_mem_nil
    · intro f hf hhand
      split at hf
      · rw [List.mem_singleton.mp hf] at hhand
        contradiction
      · exact absurd hf List.not_mem_nil
  | config leaseMs maxAttempts backoffMs maxBackoffMs =>
    simp only [groupExec]
    split <;> exact fun f hf => absurd hf List.not_mem_nil

theorem Past.run_not_handed {i : ℕ} (V : Vendor) (h : Past s g i st) (hi : Ordered s g st)
    {ops : List (GroupOp W)}
    (hrun : Along (groupExec V s g) (fun _ st _ => HasRoom s st) [] st ops) :
    ∀ f ∈ (run (groupExec V s g) st ops).1, f.isHand = true → f.job ≠ i := by
  have hinv := invariant
    (I := fun (h : List (Event W)) st => (Past s g i st ∧ Ordered s g st) ∧
      ∀ f ∈ h, f.isHand = true → f.job ≠ i)
    ⟨⟨h, hi⟩, fun f hf => absurd hf List.not_mem_nil⟩ hrun
    fun h st op hroom hpast => by
      obtain ⟨⟨hp, ho⟩, hbefore⟩ := hpast
      refine ⟨⟨hp.step V ho op, ho.step V op hroom⟩, fun f hf hhand => ?_⟩
      rcases List.mem_append.mp hf with hf | hf
      · exact hbefore f hf hhand
      · exact hp.not_handed op f hf hhand
  simpa using hinv.2

/-- What a take without a lease hands out and was not in the table, the group is past. -/
theorem past_of_lease_zero (hi : Ordered s g st)
    (htake : st.bjmTake V now s g max lease = .ok t) (hload : st.queueLoad s g = .ok (q, existed))
    (hzero : effectiveLease lease q = 0) (hnone : NoneAgain (st.logOf s) now (clampMax max) q) :
    ∀ j ∈ t.jobs, Past s g j.index t.store := by
  obtain ⟨hjobs, hstored, -⟩ := bjmTake_record htake hload
  obtain ⟨hnext, hrows⟩ := hi.readBack hload (plannedTake_advances now max lease (st.logOf s) q)
  intro j hj
  rw [hjobs] at hj
  obtain ⟨hlives, hcase⟩ := job_cases hj
  have hnew := hcase.resolve_left fun ⟨e, he, heq⟩ => hnone e he (by rwa [heq])
  refine ⟨_, hstored, by rw [hnext]; exact hnew.2, ?_⟩
  rw [hrows]
  intro hin
  obtain ⟨f, hf, hindex⟩ := List.mem_map.mp hin
  -- the new jobs of a take without a lease are in no row
  have htaken := (plannedTake_from now max lease (st.logOf s) q).rows
  rw [hzero] at htaken
  have hold : ∃ e ∈ q.fl.rows, e.index = f.index := by
    have hmem := htaken.mem_iff.mp hf
    simp only [freshRows, Nat.lt_irrefl, if_false, List.append_nil, List.mem_append, List.mem_map,
      List.mem_filter] at hmem
    rcases hmem with (⟨hmet, -⟩ | ⟨e, he, rfl⟩) | hleft
    · exact ⟨f, (mem_rows_iff now (clampMax max)).mpr (.inl hmet), rfl⟩
    · exact ⟨e, (mem_rows_iff now (clampMax max)).mpr (.inl (List.mem_filter.mp he).1), rfl⟩
    · exact ⟨f, (mem_rows_iff now (clampMax max)).mpr (.inr hleft), rfl⟩
  obtain ⟨e, he, heq⟩ := hold
  have := (hi.load hload).1.below e he
  omega

theorem listed_of_again (hi : Ordered s g st) (htake : st.bjmTake V now s g max lease = .ok t)
    (hload : st.queueLoad s g = .ok (q, existed)) {e : Slot}
    (he : e ∈ againRows now (clampMax max) q) (hlives : Lives (st.logOf s) e.index) :
    ∃ j ∈ t.jobs, j.index = e.index ∧ t.store.Listed s g j.index := by
  obtain ⟨hjobs, hstored, -⟩ := bjmTake_record htake hload
  obtain ⟨-, hrows⟩ := hi.readBack hload (plannedTake_advances now max lease (st.logOf s) q)
  have htaken := plannedTake_from now max lease (st.logOf s) q
  obtain ⟨entry, hentry⟩ := Option.isSome_iff_exists.mp hlives
  refine ⟨⟨e.index, e.attempts + 1, if effectiveLease lease q = 0 then 0
    else u64 (now + effectiveLease lease q), entry.type, entry.payload⟩, ?_, rfl, _, hstored, ?_⟩
  · rw [hjobs, takenJobs, htaken.chosen]
    refine List.mem_filterMap.mpr ⟨(e.index, e.attempts + 1), ?_, by rw [hentry]; rfl⟩
    exact List.mem_append_left _ (List.mem_map.mpr ⟨e, he, rfl⟩)
  · change e.index ∈ (groupOf _).fl.rows.map Slot.index
    rw [hrows]
    refine List.mem_map.mpr ⟨e.renew now (effectiveLease lease q), ?_, rfl⟩
    refine htaken.rows.mem_iff.mpr ?_
    simp only [List.mem_append, List.mem_map]
    exact .inl (.inl (.inr ⟨e, he, rfl⟩))

/-- In any run, the jobs of a take without a lease leave the table and are never handed out
again, exactly when it lets none again that it finds. -/
theorem lease_zero_once_iff {st : Store} {before : List (GroupOp W)} {w : W}
    (hstart : Ordered s g st)
    (hrun : Along (groupExec V s g) (fun _ st _ => HasRoom s st) [] st
      (before ++ [.take w now max lease]))
    (htake : (run (groupExec V s g) st before).2.bjmTake V now s g max lease = .ok t)
    (hload : (run (groupExec V s g) st before).2.queueLoad s g = .ok (q, existed))
    (hzero : effectiveLease lease q = 0) :
    (∀ j ∈ t.jobs, ¬ t.store.Listed s g j.index ∧
      ∀ after : List (GroupOp W),
        Along (groupExec V s g) (fun _ st _ => HasRoom s st) [] t.store after →
        ∀ f ∈ (run (groupExec V s g) t.store after).1, f.isHand = true → f.job ≠ j.index) ↔
      NoneAgain ((run (groupExec V s g) st before).2.logOf s) now (clampMax max) q := by
  obtain ⟨hbefore, hroom, -⟩ := along_append.mp hrun
  have hi := hstart.run V hbefore
  have hafter := hi.step V (.take w now max lease) hroom
  simp only [groupExec, htake] at hafter
  constructor
  · intro honce e he hlives
    obtain ⟨j, hj, -, hlisted⟩ := listed_of_again hi htake hload he hlives
    exact (honce j hj).1 hlisted
  · intro hnone j hj
    have hpast := past_of_lease_zero hi htake hload hzero hnone j hj
    exact ⟨hpast.not_listed, fun after hrun' => hpast.run_not_handed V hafter hrun'⟩

theorem Ordered.empty (s g : Bytes) : Ordered s g .empty where
  record := fun r hr => by simp [Store.empty] at hr
  last := by
    change 0 + 1 < 2 ^ 64
    decide

/-- One job, taken by `A` until 10. -/
def takenOnce : List (GroupOp Bytes) :=
  [.publish 0 ⟨BJM_ENTRY_PLAIN, ascii "x"⟩, .take (ascii "A") 0 1 10]

def takenOnceStore : Store := (run jobsExec .empty takenOnce).2

/-- At 20 it is taken without a lease. -/
def unleasedTake : Except BjErr Taken :=
  takenOnceStore.bjmTake .silent 20 (ascii "jobs") (ascii "workers") 1 0

def unleasedTaken : Taken := unleasedTake.toOption.getD ⟨[], [], .empty⟩

/-- That job stays in the table, and the next take hands it out again. -/
theorem unleased_job_comes_back :
    unleasedTake = .ok unleasedTaken ∧ (unleasedTaken.jobs.map Job.index) = [1] ∧
    (run jobsExec unleasedTaken.store [.take (ascii "A") 20 1 10]).1 =
      [.hand (ascii "A") 1 3 30 20] ∧
    ¬ ∀ j ∈ unleasedTaken.jobs,
      ¬ unleasedTaken.store.Listed (ascii "jobs") (ascii "workers") j.index ∧
      ∀ after : List (GroupOp Bytes),
        Along jobsExec (fun _ st _ => HasRoom (ascii "jobs") st) [] unleasedTaken.store after →
        ∀ f ∈ (run jobsExec unleasedTaken.store after).1, f.isHand = true → f.job ≠ j.index := by
  have hagain : (run jobsExec unleasedTaken.store [.take (ascii "A") 20 1 10]).1 =
      [.hand (ascii "A") 1 3 30 20] := by decide +kernel
  have hjobs : unleasedTaken.jobs.map Job.index = [1] := by decide +kernel
  refine ⟨rfl, hjobs, hagain, fun h => ?_⟩
  obtain ⟨j, hj, hindex⟩ := List.mem_map.mp (hjobs ▸ List.mem_singleton_self 1)
  have hnever := (h j hj).2 [.take (ascii "A") 20 1 10] ⟨by decide +kernel, trivial⟩
  rw [hagain] at hnever
  exact hnever _ (List.mem_singleton_self _) rfl hindex.symm

theorem unleased_once_iff :
    (∀ j ∈ unleasedTaken.jobs,
      ¬ unleasedTaken.store.Listed (ascii "jobs") (ascii "workers") j.index ∧
      ∀ after : List (GroupOp Bytes),
        Along jobsExec (fun _ st _ => HasRoom (ascii "jobs") st) [] unleasedTaken.store after →
        ∀ f ∈ (run jobsExec unleasedTaken.store after).1, f.isHand = true → f.job ≠ j.index) ↔
      NoneAgain (takenOnceStore.logOf (ascii "jobs")) 20 1
        { Qrec.fresh 2 with
          leaseMs := 10
          fl := ⟨[⟨1, 10, 1⟩], by decide⟩ } := by
  have hload : takenOnceStore.queueLoad (ascii "jobs") (ascii "workers") =
      .ok ({ Qrec.fresh 2 with
          leaseMs := 10
          fl := ⟨[⟨1, 10, 1⟩], by decide⟩ }, true) := rfl
  have hrun : Along jobsExec (fun _ st _ => HasRoom (ascii "jobs") st) [] .empty
      (takenOnce ++ [.take (ascii "B") 20 1 0]) := by
    refine ⟨?_, ?_, ?_, trivial⟩ <;> decide +kernel
  have htake : (run jobsExec .empty takenOnce).2.bjmTake .silent 20 (ascii "jobs") (ascii "workers")
      1 0 = .ok unleasedTaken := rfl
  exact lease_zero_once_iff (Ordered.empty _ _) hrun htake hload (by decide)

end SukkalMsg
