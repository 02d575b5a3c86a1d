import SukkalMsg.QueueGroups

/-!
# Guarantees over whole runs of a queue group

No job is lost or doubled, no lease is given twice at once, no job is tried more
often than the group allows. A settlement, however, names a job and not a lease:
it finds the job as long as anybody holds it.
-/

namespace SukkalMsg

open Std Names Binjson OrderedScan JobLedger ActionRuns

universe u

variable {W : Type u} {V : Vendor} {s g : Bytes}

/-- A reached state: its group record `q` tracks the history, and the dead-letter
channel holds what the history buried. -/
structure Follows (V : Vendor) (s g : Bytes) (start : ℕ) (st₀ : Store) (h : List (Event W))
    (st : Store) (q : Qrec) (existed : Bool) : Prop where
  load : st.queueLoad s g = .ok (q, existed)
  small : existed = true → q.Small
  tracked : Tracked start q.next q.deadTotal q.fl.rows h
  base_lt : (st.logOf s).base < start
  next_le : q.next ≤ (st.logOf s).last + 1
  channel : ∀ dead, deadSubjectOf s = some dead →
    st.logOf dead = ⟨(st₀.logOf dead).base,
      (st₀.logOf dead).entries ++ h.filterMap (envelopeOf V s g (st.logOf s))⟩

namespace Follows

variable {start : ℕ} {st₀ st : Store} {h : List (Event W)} {q : Qrec} {existed : Bool}

theorem initial (hs : GroupStart s g st₀ q) :
    ∃ existed, Follows V s g q.next st₀ ([] : List (Event W)) st₀ q existed := by
  obtain ⟨existed, hload, hsmall⟩ := hs.load
  refine ⟨existed, hload, hsmall, ?_, hs.base_lt, hs.next_le, fun dead _ => by simp⟩
  rw [hs.table, hs.deadTotal]
  exact Tracked.start_nil q.next

theorem inLog (hf : Follows V s g start st₀ h st q existed) : InLog (st.logOf s) q where
  base_lt := Nat.lt_of_lt_of_le hf.base_lt hf.tracked.start_le
  next_le := hf.next_le
  rows := fun e he =>
    ⟨Nat.lt_of_lt_of_le hf.base_lt (hf.tracked.range e he).1, (hf.tracked.range e he).2⟩

theorem tracked_change (hf : Follows V s g start st₀ h st q existed) {op : GroupOp W}
    {ev : List (Event W)} {q' : Qrec} (hc : GroupChange st s q op ev q') :
    Tracked start q'.next q'.deadTotal q'.fl.rows (h ++ ev) ∧
      q'.next ≤ (st.logOf s).last + 1 := by
  have ht := hf.tracked
  have hn := hf.next_le
  cases hc with
  | quiet => simpa using ⟨ht, hn⟩
  | @take w now max lease plan kept old buried k hlease ho =>
    have hturn := ht.turn (turn_take (w := w)
      (q := { q with leaseMs := Store.effectiveLease lease q }) ho hlease ht.nodup
      fun e he => (ht.range e he).2)
    have hburied : plan.deadNow.rows.length = buried.length := by simp [ho.deadNow]
    rw [bury_takeEvents, hburied] at hturn
    refine ⟨?_, ?_⟩
    · rwa [ho.deadTotal]
    · rcases Nat.eq_zero_or_pos k with rfl | hk
      · rw [ho.next]
        exact hn
      · rw [ho.next]
        exact ho.fresh_le hk
  | @finish w now pre suf e hrows =>
    obtain ⟨suf', hrows', hperm⟩ := BoundedTable.swapRemove_rows hrows
    have hturn := ht.turn (turn_finish w now ht.nodup hrows (hperm.append_left pre))
    refine ⟨?_, hn⟩
    rw [hrows']
    exact hturn
  | @release w now delay pre suf e hrows =>
    have hrows' := BoundedTable.set_rows hrows
      { e with expires := u64 (now + retryDelay q delay e) }
    have hturn := ht.turn (turn_release w now (retryDelay q delay e)
      (u64 (now + retryDelay q delay e)) ht.nodup hrows)
    refine ⟨?_, hn⟩
    rw [hrows']
    exact hturn
  | config => exact ⟨by simpa [Qrec.configured] using ht, hn⟩

theorem step (hf : Follows V s g start st₀ h st q existed) {op : GroupOp W}
    (hadm : Admitted s g st op) :
    ∃ q' existed', Follows V s g start st₀ (h ++ (groupExec V s g st op).1)
      (groupExec V s g st op).2 q' existed' ∧
      GroupChange st s q op (groupExec V s g st op).1 q' := by
  obtain ⟨q', existed', hload, hsmall, hc⟩ :=
    groupExec_change (V := V) hf.load hf.small hf.inLog hadm
  obtain ⟨ht, hn⟩ := hf.tracked_change hc
  obtain ⟨hlog, hchannel⟩ := groupExec_logs (V := V) (g := g) (s := s) st op
  refine ⟨q', existed', ⟨hload, hsmall, ht, ?_, ?_, fun dead hd => ?_⟩, hc⟩
  · rcases hlog with hlog | ⟨e, hlog⟩ <;> rw [hlog]
    · exact hf.base_lt
    · exact hf.base_lt
  · rcases hlog with hlog | ⟨e, hlog⟩ <;> rw [hlog]
    · exact hn
    · rw [Elog.append_last]
      omega
  · -- a job that was ever buried keeps the message it had
    have hstable : ∀ ev ∈ h ++ (groupExec V s g st op).1,
        envelopeOf V s g ((groupExec V s g st op).2.logOf s) ev =
          envelopeOf V s g (st.logOf s) ev := by
      intro ev hev
      have hjob := (ht.outside ev hev).2
      rcases hlog with hlog | ⟨e, hlog⟩
      · rw [hlog]
      · cases ev with
        | bury i a t =>
          simp only [Event.job] at hjob
          simp only [envelopeOf, hlog, Elog.get_append (show i ≤ (st.logOf s).last by omega)]
        | _ => rfl
    rw [hchannel dead hd, hf.channel dead hd, List.filterMap_congr hstable, List.filterMap_append,
      List.append_assoc]

end Follows

theorem follows_run {st : Store} {q₀ : Qrec} {ops : List (GroupOp W)}
    (hs : GroupStart s g st q₀)
    (hrun : Along (groupExec V s g) (fun _ st op => Admitted s g st op) [] st ops) :
    ∃ q existed, Follows V s g q₀.next st (run (groupExec V s g) st ops).1
      (run (groupExec V s g) st ops).2 q existed := by
  have hinv := invariant
    (I := fun h st' => ∃ q existed, Follows V s g q₀.next st h st' q existed)
    ⟨q₀, Follows.initial hs⟩ hrun fun h st' op hadm ⟨q, existed, hf⟩ => by
      obtain ⟨q', existed', hf', -⟩ := hf.step hadm
      exact ⟨q', existed', hf'⟩
  simpa using hinv

/-- No job is lost or doubled: below `next`, each is in flight, or finished once,
or buried once with its own message published to the dead-letter channel. -/
theorem jobs_conserved {st : Store} {q₀ : Qrec} {ops : List (GroupOp W)}
    (hs : GroupStart s g st q₀)
    (hrun : Along (groupExec V s g) (fun _ st op => Admitted s g st op) [] st ops) :
    ∃ q existed, (run (groupExec V s g) st ops).2.queueLoad s g = .ok (q, existed) ∧
      (q.fl.rows.map Slot.index).Nodup ∧ (∀ e ∈ q.fl.rows, e.index < q.next) ∧
      q.fl.rows.length ≤ BJM_INFLIGHT_MAX ∧
      (∀ i, q₀.next ≤ i → i < q.next →
        (i ∈ q.fl.rows.map Slot.index ∧ finishCount i (run (groupExec V s g) st ops).1 = 0 ∧
          buryCount i (run (groupExec V s g) st ops).1 = 0) ∨
        (i ∉ q.fl.rows.map Slot.index ∧ finishCount i (run (groupExec V s g) st ops).1 = 1 ∧
          buryCount i (run (groupExec V s g) st ops).1 = 0) ∨
        (i ∉ q.fl.rows.map Slot.index ∧ finishCount i (run (groupExec V s g) st ops).1 = 0 ∧
          buryCount i (run (groupExec V s g) st ops).1 = 1)) ∧
      q.deadTotal = (run (groupExec V s g) st ops).1.countP Event.isBury ∧
      (∀ ev ∈ (run (groupExec V s g) st ops).1,
        (((run (groupExec V s g) st ops).2.logOf s).get ev.job).isSome = true) ∧
      ∀ dead, deadSubjectOf s = some dead →
        ((run (groupExec V s g) st ops).2.logOf dead).entries = (st.logOf dead).entries ++
          (run (groupExec V s g) st ops).1.filterMap
            (envelopeOf V s g ((run (groupExec V s g) st ops).2.logOf s)) := by
  obtain ⟨q, existed, hf⟩ := follows_run hs hrun
  refine ⟨q, existed, hf.load, hf.tracked.nodup, fun e he => (hf.tracked.range e he).2, q.fl.fits,
    fun i hlo hhi => hf.tracked.counts hlo hhi, hf.tracked.total, fun ev hev => ?_,
    fun dead hd => ?_⟩
  · have hout := hf.tracked.outside ev hev
    have hb := hf.base_lt
    have hn := hf.next_le
    exact Elog.get_isSome_iff.mpr ⟨by omega, by omega⟩
  · rw [hf.channel dead hd]

theorem groupStart_of_absent {st : Store} (hs : bjmSubjectValid s = true)
    (hg : bjmGroupValid g = true) (h : st.queues[pairKey s g]? = none) :
    GroupStart s g st (.fresh ((st.logOf s).base + 1)) := by
  refine ⟨⟨false, ?_, by simp⟩, rfl, rfl, Nat.lt_succ_self _, ?_⟩
  · simp [Store.queueLoad_eq_logOf, queueKey_of_valid hs hg, h, Store.fileFits_of_valid hs]
  · simp [Qrec.fresh, Elog.last]

theorem admitted_take {st : Store} {w : W} {now lease : ℕ} {max : ℤ} (q : Qrec) (existed : Bool)
    (hload : st.queueLoad s g = .ok (q, existed))
    (h : 0 < Store.effectiveLease lease q ∧ (plannedTake now max lease (st.logOf s) q).q.Small) :
    Admitted s g st (.take w now max lease) := by
  intro q' existed' hload'
  obtain ⟨rfl, rfl⟩ := Prod.mk.inj (Except.ok.inj (hload.symm.trans hload'))
  exact h

/-- One job, taken by `A` until 10 and again by `B` at 20. -/
def retakenJob : List (GroupOp Bytes) :=
  [.publish 0 ⟨BJM_ENTRY_PLAIN, ascii "x"⟩, .take (ascii "A") 0 1 10, .take (ascii "B") 20 1 10]

abbrev jobsExec : Store → GroupOp Bytes → List (Event Bytes) × Store :=
  groupExec .silent (ascii "jobs") (ascii "workers")

theorem retakenJob_start : GroupStart (ascii "jobs") (ascii "workers") .empty (.fresh 1) :=
  groupStart_of_absent (by decide) (by decide) rfl

theorem retakenJob_admitted :
    Along jobsExec (fun _ st op => Admitted (ascii "jobs") (ascii "workers") st op) [] .empty
      retakenJob :=
  ⟨trivial, admitted_take (.fresh 1) false rfl (by decide +kernel),
    admitted_take { Qrec.fresh 1 with
      next := 2
      leaseMs := 10
      fl := ⟨[⟨1, 10, 1⟩], by decide⟩ } true rfl (by decide +kernel), trivial⟩

theorem retakenJob_conserved :
    ∃ q existed, (run jobsExec .empty retakenJob).2.queueLoad (ascii "jobs") (ascii "workers") =
        .ok (q, existed) ∧ (q.fl.rows.map Slot.index).Nodup ∧
      q.deadTotal = (run jobsExec .empty retakenJob).1.countP Event.isBury := by
  obtain ⟨q, existed, hload, hnd, -, -, -, htotal, -⟩ :=
    jobs_conserved retakenJob_start retakenJob_admitted
  exact ⟨q, existed, hload, hnd, htotal⟩

/-- The group keeps its bound on attempts, and a delay ends within the codec's range. -/
def Steady (s g : Bytes) (m : ℕ) (st : Store) : GroupOp W → Prop
  | .fail _ now index delay => ∀ q existed, st.queueLoad s g = .ok (q, existed) →
      ∀ e ∈ q.fl.rows, e.index = index → now + retryDelay q delay e < 2 ^ 53
  | .config _ maxAttempts _ _ => maxAttempts = m
  | _ => True

/-- What an event of a group with a steady bound reports. -/
def Reports (m : ℕ) : Event W → Prop
  | .hand _ _ a _ _ => 0 < m → a ≤ m
  | .release _ _ d due t => due = t + d
  | _ => True

private theorem reports_change {st : Store} {q q' : Qrec} {existed : Bool} {op : GroupOp W}
    {ev : List (Event W)} {m : ℕ} (hload : st.queueLoad s g = .ok (q, existed))
    (hm : q.maxAttempts = m) (hsteady : Steady s g m st op) (hc : GroupChange st s q op ev q') :
    q'.maxAttempts = m ∧ ∀ e ∈ ev, Reports m e := by
  cases hc with
  | quiet => exact ⟨hm, by simp⟩
  | take hlease ho =>
    refine ⟨ho.maxAttempts.trans hm, fun e he => ?_⟩
    rcases List.mem_append.mp he with he | he
    · obtain ⟨d, -, rfl⟩ := List.mem_map.mp he
      trivial
    · obtain ⟨c, hc, rfl⟩ := List.mem_map.mp he
      intro hpos
      rw [ho.chosen] at hc
      rcases List.mem_append.mp hc with hc | hc
      · obtain ⟨f, hf, rfl⟩ := List.mem_map.mp hc
        have hleft := (ho.old_due f hf).2
        simp only [Slot.exhausted, hm, Bool.and_eq_false_iff, bne_eq_false_iff_eq,
          decide_eq_false_iff_not] at hleft
        dsimp only
        omega
      · obtain ⟨i, -, rfl⟩ := List.mem_map.mp hc
        exact hpos
  | finish => exact ⟨hm, by simp [Reports]⟩
  | release hrows =>
    have hdue := hsteady q existed hload _ (by rw [hrows]; simp) rfl
    refine ⟨hm, fun e he => ?_⟩
    obtain rfl := List.mem_singleton.mp he
    exact u64_of_lt (by omega)
  | config => exact ⟨hsteady, by simp⟩

private theorem reports_run {st : Store} {q₀ : Qrec} {m : ℕ} {ops : List (GroupOp W)}
    (hs : GroupStart s g st q₀) (hm : q₀.maxAttempts = m)
    (hrun : Along (groupExec V s g)
      (fun _ st op => Admitted s g st op ∧ Steady s g m st op) [] st ops) :
    ∃ q existed, Follows V s g q₀.next st (run (groupExec V s g) st ops).1
        (run (groupExec V s g) st ops).2 q existed ∧ q.maxAttempts = m ∧
      ∀ e ∈ (run (groupExec V s g) st ops).1, Reports m e := by
  obtain ⟨existed, hf⟩ := Follows.initial (V := V) (W := W) hs
  have hinv := invariant
    (I := fun h st' => ∃ q existed, Follows V s g q₀.next st h st' q existed ∧
      q.maxAttempts = m ∧ ∀ e ∈ h, Reports m e)
    ⟨q₀, existed, hf, hm, by simp⟩ hrun fun h st' op hadm ⟨q, existed, hf, hq, hh⟩ => by
      obtain ⟨q', existed', hf', hc⟩ := hf.step hadm.1
      obtain ⟨hq', hev⟩ := reports_change hf.load hq hadm.2 hc
      refine ⟨q', existed', hf', hq', fun e he => ?_⟩
      rcases List.mem_append.mp he with he | he
      · exact hh e he
      · exact hev e he
  simpa using hinv

/-- Leases exclude each other, every hand-out counts one attempt, the attempts
stay within the group's bound, and a job that is finished or buried is not handed
out again. -/
theorem leases_exclusive {st : Store} {q₀ : Qrec} {m : ℕ} {ops : List (GroupOp W)}
    (hs : GroupStart s g st q₀) (hm : q₀.maxAttempts = m)
    (hrun : Along (groupExec V s g)
      (fun _ st op => Admitted s g st op ∧ Steady s g m st op) [] st ops) :
    (∀ es w₁ i a₁ e₁ t₁ fs w₂ a₂ e₂ t₂ gs,
      (run (groupExec V s g) st ops).1 =
        es ++ .hand w₁ i a₁ e₁ t₁ :: (fs ++ .hand w₂ i a₂ e₂ t₂ :: gs) →
      (∀ f ∈ fs, f.isHand = true → f.job ≠ i) →
        e₁ ≤ t₂ ∨ ∃ w d due t, .release w i d due t ∈ fs ∧ t + d ≤ t₂) ∧
    (∀ es w i a e t fs, (run (groupExec V s g) st ops).1 = es ++ .hand w i a e t :: fs →
      a = handCount i es + 1) ∧
    (0 < m → ∀ i, handCount i (run (groupExec V s g) st ops).1 ≤ m) ∧
    (∀ es e fs, (run (groupExec V s g) st ops).1 = es ++ e :: fs →
      e.isFinish = true ∨ e.isBury = true → ∀ f ∈ fs, f.isHand = true → f.job ≠ e.job) := by
  obtain ⟨q, existed, hf, -, hreports⟩ := reports_run hs hm hrun
  refine ⟨fun es w₁ i a₁ e₁ t₁ fs w₂ a₂ e₂ t₂ gs hh hno => ?_, fun es w i a e t fs hh => ?_,
    fun hpos i => ?_, fun es e fs hh hsettled f hfs _ => ?_⟩
  · obtain ⟨p, hp⟩ := hf.tracked.legal i
    rw [hh] at hp hreports
    rcases exclusive_of_legal hno hp with h | ⟨w, d, due, t, hrel, hdue⟩
    · exact .inl h
    · have hr : due = t + d := hreports (.release w i d due t) (by simp [hrel])
      exact .inr ⟨w, d, due, t, hrel, hr ▸ hdue⟩
  · obtain ⟨p, hp⟩ := hf.tracked.legal i
    rw [hh] at hp
    exact attempts_eq_of_legal hp
  · obtain ⟨p, hp⟩ := hf.tracked.legal i
    exact handCount_le_of_legal (fun w a e t he => hreports (.hand w i a e t) he hpos) hp
  · obtain ⟨p, hp⟩ := hf.tracked.legal e.job
    rw [hh] at hp
    exact absent_after_settled rfl hsettled hp f hfs

theorem retakenJob_exclusive :
    handCount 1 (run jobsExec .empty retakenJob).1 ≤ BJM_MAX_ATTEMPTS_DEFAULT := by
  have hrun : Along jobsExec (fun _ st op => Admitted (ascii "jobs") (ascii "workers") st op ∧
      Steady (ascii "jobs") (ascii "workers") BJM_MAX_ATTEMPTS_DEFAULT st op) [] .empty
      retakenJob :=
    ⟨⟨trivial, trivial⟩, ⟨retakenJob_admitted.2.1, trivial⟩,
      ⟨retakenJob_admitted.2.2.1, trivial⟩, trivial⟩
  obtain ⟨-, -, hbound, -⟩ := leases_exclusive retakenJob_start rfl hrun
  exact hbound (by decide) 1

/-- The answer finds nothing and the groups are as they were. -/
def LateSettled (st : Store) (answer : Except BjErr Store.Released) : Prop :=
  ∃ r, answer = .ok r ∧ r.found = false ∧ r.store.queues = st.queues

theorem lateSettled_release_iff {st : Store} {q : Qrec} {existed : Bool} {now i delay : ℕ}
    {drop : Bool} (hload : st.queueLoad s g = .ok (q, existed))
    (hnew : existed = false → q.fl.rows = []) :
    LateSettled st (st.queueRelease now s g i drop delay) ↔ i ∉ q.fl.rows.map Slot.index := by
  have hok : ∃ r, st.queueRelease now s g i drop delay = .ok r := by
    have hstore : ∀ q', st.queueStore s g q' =
        .ok { st with queues := st.queues.insert (pairKey s g) (queueRecord q') } :=
      Store.queueStore_of_key (Store.queueKey_of_load hload)
    simp only [Store.queueRelease, hload]
    split
    · exact ⟨_, rfl⟩
    split
    · exact ⟨_, rfl⟩
    · split <;> simp only [hstore, Except.map] <;> exact ⟨_, rfl⟩
  obtain ⟨r, hr⟩ := hok
  obtain ⟨q₁, existed₁, hload₁, hcase⟩ := Store.queueRelease_eq hr
  obtain ⟨rfl, rfl⟩ := Prod.mk.inj (Except.ok.inj (hload.symm.trans hload₁))
  rcases hcase with ⟨rfl, hnone⟩ | ⟨pre, e, suf, q', hrows, rfl, -, hfound, -, -, -⟩
  · refine ⟨fun _ hin => ?_, fun _ => ⟨_, hr, rfl, rfl⟩⟩
    obtain ⟨e, he, hi⟩ := List.mem_map.mp hin
    cases existed with
    | false =>
      rw [hnew rfl] at he
      exact absurd he (by simp)
    | true => exact hnone rfl e he hi
  · constructor
    · rintro ⟨r', hr', hfalse, -⟩
      obtain rfl := Except.ok.inj (hr.symm.trans hr')
      rw [hfound] at hfalse
      contradiction
    · intro hout
      exact absurd (List.mem_map.mpr ⟨e, by simp [hrows], rfl⟩) hout

theorem rows_of_new {st : Store} {q : Qrec} (h : st.queueLoad s g = .ok (q, false)) :
    q.fl.rows = [] := by
  rw [Store.queueLoad_eq_logOf] at h
  split at h
  · contradiction
  · split at h
    · rename_i r _
      cases hd : queueDecode r <;> simp [hd, Except.map] at h
    · simp only [Except.ok.injEq, Prod.mk.injEq, and_true] at h
      rw [← h]
      rfl

/-- After a job was let again, a settlement made for its former holder finds
nothing and changes nothing exactly when the job has been finished or buried
since; while it is still leased, whoever holds it now loses that lease. -/
theorem late_settlement_iff {st : Store} {q₀ : Qrec} {ops : List (GroupOp W)} {i : ℕ} {a b : W}
    {a₁ e₁ t₁ a₂ e₂ t₂ : ℕ} {es fs gs : List (Event W)}
    (hs : GroupStart s g st q₀)
    (hrun : Along (groupExec V s g) (fun _ st op => Admitted s g st op) [] st ops)
    (hh : (run (groupExec V s g) st ops).1 =
      es ++ .hand a i a₁ e₁ t₁ :: (fs ++ .hand b i a₂ e₂ t₂ :: gs)) (now delay : ℕ) :
    (LateSettled (run (groupExec V s g) st ops).2
        ((run (groupExec V s g) st ops).2.bjmDone now s g i) ↔
      ∃ ev ∈ gs, ev.job = i ∧ (ev.isFinish = true ∨ ev.isBury = true)) ∧
    (LateSettled (run (groupExec V s g) st ops).2
        ((run (groupExec V s g) st ops).2.bjmFail now s g i delay) ↔
      ∃ ev ∈ gs, ev.job = i ∧ (ev.isFinish = true ∨ ev.isBury = true)) := by
  obtain ⟨q, existed, hf⟩ := follows_run hs hrun
  have hnew : existed = false → q.fl.rows = [] := by
    rintro rfl
    exact rows_of_new hf.load
  have hrange : q₀.next ≤ i ∧ i < q.next :=
    hf.tracked.outside (.hand b i a₂ e₂ t₂) (by simp [hh])
  have hheld : i ∉ q.fl.rows.map Slot.index ↔
      ∃ ev ∈ gs, ev.job = i ∧ (ev.isFinish = true ∨ ev.isBury = true) := by
    have hlegal := hf.tracked.legal i
    constructor
    · -- a job out of the table was settled, and only after its last hand-out
      intro hout
      by_contra hno
      obtain ⟨p, hp⟩ := hlegal
      have hp' := hp
      rw [hh, ← List.cons_append, ← List.append_assoc, replay_append] at hp'
      obtain ⟨p₁, -, hp₁⟩ := Option.bind_eq_some_iff.mp hp'
      simp only [replay, Event.job, if_true] at hp₁
      obtain ⟨p₂, hn, hp₂⟩ := Option.bind_eq_some_iff.mp hp₁
      have hlive : ∀ f ∈ gs, f.job = i → f.isFinish = false ∧ f.isBury = false := by
        intro f hfs hj
        refine ⟨?_, ?_⟩ <;> by_contra hc <;> exact hno ⟨f, hfs, hj, by simp_all⟩
      have hleased : ∃ e a, p₂ = .leased e a := by
        cases p₁ <;> simp only [Phase.next] at hn <;> try contradiction
        all_goals
          split at hn
          · exact ⟨_, _, (Option.some.inj hn).symm⟩
          · contradiction
      obtain ⟨e, a, rfl⟩ := leased_of_unsettled hleased hlive hp₂
      rcases hf.tracked.settled i hrange.1 hrange.2 hout with h | h <;> rw [h] at hp <;> simp at hp
    · rintro ⟨ev, hev, hj, hsettled⟩ hin
      have hmem : ev ∈ (run (groupExec V s g) st ops).1 := by simp [hh, hev]
      rcases hf.tracked.counts hrange.1 hrange.2 with ⟨-, hfin, hbur⟩ | ⟨hout, -⟩ | ⟨hout, -⟩
      · simp only [finishCount, buryCount, List.countP_eq_zero] at hfin hbur
        rcases hsettled with h | h
        · exact hfin ev hmem (by simp [h, hj])
        · exact hbur ev hmem (by simp [h, hj])
      · exact hout hin
      · exact hout hin
  exact ⟨(lateSettled_release_iff hf.load hnew).trans hheld,
    (lateSettled_release_iff hf.load hnew).trans hheld⟩

/-- `A`, whose lease ended at 10, reports the job done at 25, while `B` holds it
until 30: the job is found and `B`'s lease is gone. -/
theorem retakenJob_late_done :
    (run jobsExec .empty retakenJob).1 =
      [.hand (ascii "A") 1 1 10 0, .hand (ascii "B") 1 2 30 20] ∧
    ((run jobsExec .empty retakenJob).2.queueLoad (ascii "jobs") (ascii "workers")).map
      (·.1.fl.rows) = .ok [⟨1, 30, 2⟩] ∧
    ¬ LateSettled (run jobsExec .empty retakenJob).2
      ((run jobsExec .empty retakenJob).2.bjmDone 25 (ascii "jobs") (ascii "workers") 1) ∧
    ((run jobsExec .empty retakenJob).2.bjmDone 25 (ascii "jobs") (ascii "workers") 1).map
      (fun r => (r.store.queueLoad (ascii "jobs") (ascii "workers")).map (·.1.fl.rows)) =
        .ok (.ok []) := by
  refine ⟨by decide +kernel, rfl, ?_, rfl⟩
  rintro ⟨r, hr, hfound, -⟩
  have hdone : ((run jobsExec .empty retakenJob).2.bjmDone 25 (ascii "jobs") (ascii "workers") 1).map
      Store.Released.found = .ok true := rfl
  rw [hr] at hdone
  have : r.found = true := Except.ok.inj hdone
  rw [hfound] at this
  contradiction

theorem retakenJob_late_settlement :
    LateSettled (run jobsExec .empty retakenJob).2
        ((run jobsExec .empty retakenJob).2.bjmDone 25 (ascii "jobs") (ascii "workers") 1) ↔
      ∃ ev ∈ ([] : List (Event Bytes)), ev.job = 1 ∧ (ev.isFinish = true ∨ ev.isBury = true) := by
  have hevents : (run jobsExec .empty retakenJob).1 =
      [] ++ .hand (ascii "A") 1 1 10 0 :: ([] ++ .hand (ascii "B") 1 2 30 20 :: []) := by
    decide +kernel
  exact (late_settlement_iff retakenJob_start retakenJob_admitted hevents 25 0).1

end SukkalMsg
