import SukkalMsg.QueueRuns

/-!
# What a queue group guarantees

The calls on one group, with publishes on its subject in between, as an action
machine. `groupExec_change` says once what a call can do to the group's record;
the invariant of a run, and the guarantees over whole runs, follow from it.
-/

namespace SukkalMsg

open Std Names Binjson OrderedScan JobLedger ActionRuns

universe u

variable {W : Type u} {V : Vendor} {s g : Bytes}

/-- One call, the worker it is made for, and the clock it reads. -/
inductive GroupOp (W : Type u) where
  | publish (now : ℕ) (e : Entry)
  | take (w : W) (now : ℕ) (max : ℤ) (lease : ℕ)
  | done (w : W) (now index : ℕ)
  | fail (w : W) (now index delay : ℕ)
  | config (leaseMs maxAttempts backoffMs maxBackoffMs : ℕ)

def handEvents (w : W) (now : ℕ) (jobs : List Job) : List (Event W) :=
  jobs.map fun j => .hand w j.index j.attempts j.expiresMs now

/-- Perform a call; one that fails leaves no trace. -/
def groupExec (V : Vendor) (s g : Bytes) (st : Store) : GroupOp W → List (Event W) × Store
  | .publish now e =>
    match st.bjmPublish now s e with
    | .error _ => ([], st)
    | .ok (_, st) => ([], st)
  | .take w now max lease =>
    match st.bjmTake V now s g max lease with
    | .error _ => ([], st)
    | .ok t => ((t.dead.map fun d => .bury d.1 d.2 now) ++ handEvents w now t.jobs, t.store)
  | .done w now index =>
    match st.bjmDone now s g index with
    | .error _ => ([], st)
    | .ok r => (if r.found then [.finish w index now] else [], r.store)
  | .fail w now index delay =>
    match st.bjmFail now s g index delay with
    | .error _ => ([], st)
    | .ok r =>
      (if r.found then [.release w index r.retryInMs (u64 (now + r.retryInMs)) now] else [], r.store)
  | .config leaseMs maxAttempts backoffMs maxBackoffMs =>
    match st.bjmQueueConfig s g leaseMs maxAttempts backoffMs maxBackoffMs with
    | .error _ => ([], st)
    | .ok st => ([], st)

def Qrec.configured (q : Qrec) (leaseMs maxAttempts backoffMs maxBackoffMs : ℕ) : Qrec :=
  { q with
    leaseMs := leaseMs
    maxAttempts := maxAttempts
    backoffMs := backoffMs
    maxBackoffMs := maxBackoffMs }

def plannedTake (now : ℕ) (max : ℤ) (lease : ℕ) (log : Elog) (q : Qrec) : TakeState :=
  takePlan now (Store.effectiveLease lease q) (clampMax max) log.last
    { q with leaseMs := Store.effectiveLease lease q }

/-- The record a call is about to store stays within the codec's range, and a
take's lease is positive. -/
def Admitted (s g : Bytes) (st : Store) : GroupOp W → Prop
  | .publish .. | .done .. => True
  | .take _ now max lease => ∀ q existed, st.queueLoad s g = .ok (q, existed) →
      0 < Store.effectiveLease lease q ∧ (plannedTake now max lease (st.logOf s) q).q.Small
  | .fail _ now index delay => ∀ q existed, st.queueLoad s g = .ok (q, existed) →
      ∀ e ∈ q.fl.rows, e.index = index → u64 (now + retryDelay q delay e) < 2 ^ 53
  | .config leaseMs maxAttempts backoffMs maxBackoffMs =>
      ∀ q existed, st.queueLoad s g = .ok (q, existed) →
        (q.configured leaseMs maxAttempts backoffMs maxBackoffMs).Small

/-- A group nothing has been taken from yet; its first job is `q.next`. -/
structure GroupStart (s g : Bytes) (st : Store) (q : Qrec) : Prop where
  load : ∃ existed, st.queueLoad s g = .ok (q, existed) ∧ (existed = true → q.Small)
  table : q.fl.rows = []
  deadTotal : q.deadTotal = 0
  base_lt : (st.logOf s).base < q.next
  next_le : q.next ≤ (st.logOf s).last + 1

def envelopeOf (V : Vendor) (s g : Bytes) (log : Elog) : Event W → Option Entry
  | .bury i a t => (log.get i).map (envelopeEntry V s g t (i, a))
  | _ => none

/-- What a call does to the group's record, with the events it leaves. -/
inductive GroupChange (st : Store) (s : Bytes) (q : Qrec) :
    GroupOp W → List (Event W) → Qrec → Prop where
  | quiet {op : GroupOp W} : GroupChange st s q op [] q
  | take {w : W} {now : ℕ} {max : ℤ} {lease : ℕ} {plan : TakeState}
      {kept old buried : List Slot} {k : ℕ} (positive : 0 < Store.effectiveLease lease q)
      (outcome : TakeOutcome now (Store.effectiveLease lease q) (st.logOf s).last
        { q with leaseMs := Store.effectiveLease lease q } plan kept old buried k) :
      GroupChange st s q (.take w now max lease)
        (takeEvents w now (Store.effectiveLease lease q) plan.deadNow.rows plan.chosen) plan.q
  | finish {w : W} {now : ℕ} {pre suf : List Slot} {e : Slot} (rows : q.fl.rows = pre ++ e :: suf) :
      GroupChange st s q (.done w now e.index) [.finish w e.index now]
        { q with fl := q.fl.swapRemove pre.length }
  | release {w : W} {now delay : ℕ} {pre suf : List Slot} {e : Slot}
      (rows : q.fl.rows = pre ++ e :: suf) :
      GroupChange st s q (.fail w now e.index delay)
        [.release w e.index (retryDelay q delay e) (u64 (now + retryDelay q delay e)) now]
        { q with fl := q.fl.set pre.length { e with expires := u64 (now + retryDelay q delay e) } }
  | config {leaseMs maxAttempts backoffMs maxBackoffMs : ℕ} :
      GroupChange st s q (.config leaseMs maxAttempts backoffMs maxBackoffMs) []
        (q.configured leaseMs maxAttempts backoffMs maxBackoffMs)

/-- The in-flight jobs and the next one all have their message in the log. -/
structure InLog (log : Elog) (q : Qrec) : Prop where
  base_lt : log.base < q.next
  next_le : q.next ≤ log.last + 1
  rows : ∀ e ∈ q.fl.rows, log.base < e.index ∧ e.index < q.next

theorem mem_range_of_chosen {now lease last k : ℕ} {q : Qrec} {plan : TakeState}
    {kept old buried : List Slot} {log : Elog}
    (ho : TakeOutcome now lease last q plan kept old buried k) (hlast : last = log.last)
    (hin : InLog log q) : ∀ c ∈ plan.chosen, log.base < c.1 ∧ c.1 ≤ log.last := by
  intro c hc
  have hb := hin.base_lt
  have hn := hin.next_le
  rw [ho.chosen] at hc
  rcases List.mem_append.mp hc with hc | hc
  · obtain ⟨e, he, rfl⟩ := List.mem_map.mp hc
    have := hin.rows e (ho.before.mem_iff.mpr (by simp [he]))
    dsimp only
    omega
  · obtain ⟨i, hi, rfl⟩ := List.mem_map.mp hc
    have hr := List.mem_range'_1.mp hi
    have hle := ho.fresh_le (by omega)
    dsimp only
    omega

theorem handEvents_takenJobs {w : W} {now lease : ℕ} {log : Elog} {chosen : List (ℕ × ℕ)}
    (hlease : 0 < lease) (hin : ∀ c ∈ chosen, log.base < c.1 ∧ c.1 ≤ log.last) :
    handEvents w now (takenJobs now lease log chosen) =
      chosen.map fun c => .hand w c.1 c.2 (u64 (now + lease)) now := by
  induction chosen with
  | nil => rfl
  | cons c chosen ih =>
    have hsome := Elog.get_isSome_iff.mpr (hin c List.mem_cons_self)
    obtain ⟨e, he⟩ := Option.isSome_iff_exists.mp hsome
    have hne : lease ≠ 0 := by omega
    have hrest := ih (fun d hd => hin d (List.mem_cons_of_mem _ hd))
    simp only [takenJobs, handEvents, List.filterMap_cons, he, Option.map_some, List.map_cons,
      hne, if_false] at hrest ⊢
    rw [hrest]

namespace Store

theorem queueLoad_eq_logOf {st : Store} (s g : Bytes) :
    st.queueLoad s g = match queueKey s g with
      | none => .error .range
      | some key => match st.queues[key]? with
        | some r => (queueDecode r).map (·, true)
        | none => .ok (.fresh (if fileFits s then (st.logOf s).base + 1 else 1), false) := by
  simp only [queueLoad]
  cases queueKey s g with
  | none => rfl
  | some key =>
    dsimp only
    cases st.queues[key]? with
    | some r => rfl
    | none =>
      cases hf : fileFits s with
      | false => simp [subjectGet, hf]
      | true => cases hl : st.logs[s]? <;> simp [subjectGet, hf, hl, logOf]

theorem queueLoad_congr {st st' : Store} (hq : st'.queues = st.queues)
    (hb : (st'.logOf s).base = (st.logOf s).base) : st'.queueLoad s g = st.queueLoad s g := by
  simp only [queueLoad_eq_logOf, hq, hb]

theorem queueLoad_insert {st st' : Store} {q : Qrec} (hk : (queueKey s g).isSome = true)
    (hq : st'.queues = st.queues.insert (pairKey s g) (queueRecord q)) (hsmall : q.Small) :
    st'.queueLoad s g = .ok (q, true) :=
  queueLoad_of_stored hsmall hk (by simp [hq])

end Store

theorem swapRemove_small {q : Qrec} (h : q.Small) {pre suf : List Slot} {e : Slot}
    (hrows : q.fl.rows = pre ++ e :: suf) :
    ({ q with fl := q.fl.swapRemove pre.length } : Qrec).Small := by
  obtain ⟨suf', hrows', hperm⟩ := BoundedTable.swapRemove_rows hrows
  intro n hn
  apply h n
  simp only [Qrec.ints, hrows', hrows, List.mem_append] at hn ⊢
  rcases hn with (hn | hn) | hn
  · exact .inl (.inl hn)
  · refine .inl (.inr ?_)
    rw [mem_flat] at hn ⊢
    obtain ⟨f, hf, hf'⟩ := hn
    refine ⟨f, ?_, hf'⟩
    rcases List.mem_append.mp hf with hf | hf
    · exact List.mem_append_left _ hf
    · exact List.mem_append_right _ (List.mem_cons_of_mem _ (hperm.mem_iff.mp hf))
  · exact .inr hn

theorem set_small {q : Qrec} (h : q.Small) {pre suf : List Slot} {e : Slot} {due : ℕ}
    (hdue : due < 2 ^ 53) (hrows : q.fl.rows = pre ++ e :: suf) :
    ({ q with fl := q.fl.set pre.length { e with expires := due } } : Qrec).Small := by
  have hrows' := BoundedTable.set_rows hrows { e with expires := due }
  intro n hn
  simp only [Qrec.ints, hrows', List.mem_append] at hn
  rcases hn with (hn | hn) | hn
  · exact h n (by simp only [Qrec.ints, List.mem_append]; exact .inl (.inl hn))
  · obtain ⟨f, hf, hf'⟩ := mem_flat.mp hn
    have hold : ∀ f ∈ q.fl.rows, f.index < 2 ^ 53 ∧ f.expires < 2 ^ 53 ∧ f.attempts < 2 ^ 53 := by
      intro f hf
      refine ⟨h _ ?_, h _ ?_, h _ ?_⟩ <;>
        simp only [Qrec.ints, List.mem_append, mem_flat] <;>
        exact .inl (.inr ⟨f, hf, by simp⟩)
    rw [List.mem_append, List.mem_cons] at hf
    rcases hf with hf | rfl | hf
    · have := hold f (by simp [hrows, hf])
      omega
    · have := hold e (by simp [hrows])
      dsimp only at hf'
      omega
    · have := hold f (by simp [hrows, hf])
      omega
  · exact h n (by simp only [Qrec.ints, List.mem_append]; exact .inr hn)

namespace Store

theorem logOf_base_publish {st st' : Store} {now index : ℕ} {e : Entry}
    (h : st.bjmPublish now s e = .ok (index, st')) :
    st'.logOf s = (st.logOf s).append e := by
  obtain ⟨-, hlogs, -⟩ := bjmPublish_eq h
  rw [logOf_insert hlogs, if_pos rfl]

theorem deadLetters_queues (V : Vendor) (now : ℕ) (g : Bytes) {st : Store} {log : Elog}
    (hget : st.subjectGet s false = .ok log) (ds : List (ℕ × ℕ)) :
    (st.deadLetters V now s g ds).queues = st.queues ∧
      (st.deadLetters V now s g ds).logOf s = st.logOf s := by
  rcases deadLetters_eq V now g hget ds with ⟨-, h⟩ | ⟨dead, hd, h, -⟩
  · rw [h]
    exact ⟨rfl, rfl⟩
  · exact ⟨h.queues_eq, h.logOf_eq (Ne.symm (deadSubjectOf_ne hd))⟩

end Store

theorem groupExec_change {st : Store} {q : Qrec} {existed : Bool} {op : GroupOp W}
    (hload : st.queueLoad s g = .ok (q, existed)) (hsmall : existed = true → q.Small)
    (hin : InLog (st.logOf s) q) (hadm : Admitted s g st op) :
    ∃ q' existed', (groupExec V s g st op).2.queueLoad s g = .ok (q', existed') ∧
      (existed' = true → q'.Small) ∧
      GroupChange st s q op (groupExec V s g st op).1 q' := by
  have hkey := Store.queueKey_of_load hload
  cases op with
  | publish now e =>
    simp only [groupExec]
    split
    · exact ⟨q, existed, hload, hsmall, .quiet⟩
    · rename_i hpub
      refine ⟨q, existed, ?_, hsmall, .quiet⟩
      rw [← hload]
      apply Store.queueLoad_congr (Store.PublishedTo.of_publish hpub).queues_eq
      rw [Store.logOf_base_publish hpub, Elog.append_base]
  | take w now max lease =>
    obtain ⟨hlease, hplan⟩ := hadm q existed hload
    simp only [groupExec]
    split
    · exact ⟨q, existed, hload, hsmall, .quiet⟩
    · rename_i t htake
      obtain ⟨log, q₁, existed₁, plan, hget, hload₁, rfl, hjobs, hdead, hstore⟩ :=
        Store.bjmTake_eq htake
      obtain ⟨rfl, rfl⟩ := Prod.mk.inj (Except.ok.inj (hload.symm.trans hload₁))
      obtain ⟨-, hlogs, rfl⟩ := Store.subjectGet_logOf hget
      have hget' := Store.subjectGet_of_log { st with
          queues := st.queues.insert (pairKey s g)
            (queueRecord (plannedTake now max lease (st.logOf s) q).q) }
        (Store.subjectGet_logOf hget).1 hlogs false
      obtain ⟨hqueues, -⟩ := Store.deadLetters_queues V now g hget'
        (plannedTake now max lease (st.logOf s) q).deadNow.rows
      obtain ⟨kept, old, buried, k, ho⟩ := takePlan_outcome now (Store.effectiveLease lease q)
        (clampMax max) (st.logOf s).last { q with leaseMs := Store.effectiveLease lease q }
      refine ⟨_, true, ?_, fun _ => hplan, ?_⟩
      · rw [hstore]
        exact Store.queueLoad_insert hkey hqueues hplan
      · rw [hdead, hjobs, handEvents_takenJobs hlease (mem_range_of_chosen ho rfl
          ⟨hin.base_lt, hin.next_le, hin.rows⟩)]
        exact .take hlease ho
  | done w now index =>
    simp only [groupExec]
    split
    · exact ⟨q, existed, hload, hsmall, .quiet⟩
    · rename_i r hdone
      obtain ⟨q₁, existed₁, hload₁, hr⟩ := Store.queueRelease_eq hdone
      obtain ⟨rfl, rfl⟩ := Prod.mk.inj (Except.ok.inj (hload.symm.trans hload₁))
      rcases hr with ⟨rfl, -⟩ | ⟨pre, e, suf, q', hrows, rfl, rfl, hfound, hstore, rfl, -⟩
      · exact ⟨q, existed, hload, hsmall, .quiet⟩
      · have hq' := swapRemove_small (hsmall rfl) hrows
        refine ⟨_, true, ?_, fun _ => hq', ?_⟩
        · rw [hstore]
          exact Store.queueLoad_insert hkey rfl hq'
        · simp only [hfound, if_true]
          exact .finish hrows
  | fail w now index delay =>
    simp only [groupExec]
    split
    · exact ⟨q, existed, hload, hsmall, .quiet⟩
    · rename_i r hfail
      obtain ⟨q₁, existed₁, hload₁, hr⟩ := Store.queueRelease_eq hfail
      obtain ⟨rfl, rfl⟩ := Prod.mk.inj (Except.ok.inj (hload.symm.trans hload₁))
      rcases hr with ⟨rfl, -⟩ | ⟨pre, e, suf, q', hrows, rfl, rfl, hfound, hstore, rfl, hretry⟩
      · exact ⟨q, existed, hload, hsmall, .quiet⟩
      · have hdue := hadm q true hload e (by simp [hrows]) rfl
        have hq' := set_small (hsmall rfl) hdue hrows
        refine ⟨_, true, ?_, fun _ => hq', ?_⟩
        · rw [hstore]
          exact Store.queueLoad_insert hkey rfl hq'
        · simp only [hfound, if_true, hretry]
          exact .release hrows
  | config leaseMs maxAttempts backoffMs maxBackoffMs =>
    have hq' := hadm q existed hload
    simp only [groupExec, Store.bjmQueueConfig, hload, Store.queueStore_of_key hkey]
    exact ⟨_, true, Store.queueLoad_insert hkey rfl hq', fun _ => hq', .config⟩

/-- What a call does to the logs: a publish appends its message, a take appends
the envelopes of the jobs it buried. -/
theorem groupExec_logs (st : Store) (op : GroupOp W) :
    ((groupExec V s g st op).2.logOf s = st.logOf s ∨
      ∃ e, (groupExec V s g st op).2.logOf s = (st.logOf s).append e) ∧
    ∀ dead, deadSubjectOf s = some dead →
      (groupExec V s g st op).2.logOf dead = ⟨(st.logOf dead).base, (st.logOf dead).entries ++
        (groupExec V s g st op).1.filterMap (envelopeOf V s g (st.logOf s))⟩ := by
  have hquiet : ∀ dead, st.logOf dead = ⟨(st.logOf dead).base, (st.logOf dead).entries ++
      ([] : List (Event W)).filterMap (envelopeOf V s g (st.logOf s))⟩ := fun dead => by simp
  cases op with
  | publish now e =>
    simp only [groupExec]
    split
    · exact ⟨.inl rfl, fun dead _ => hquiet dead⟩
    · rename_i hpub
      refine ⟨.inr ⟨e, Store.logOf_base_publish hpub⟩, fun dead hd => ?_⟩
      rw [(Store.PublishedTo.of_publish hpub).logOf_eq (deadSubjectOf_ne hd)]
      exact hquiet dead
  | take w now max lease =>
    simp only [groupExec]
    split
    · exact ⟨.inl rfl, fun dead _ => hquiet dead⟩
    · rename_i t htake
      obtain ⟨log, q, existed, plan, hget, -, -, -, hdead, hstore⟩ := Store.bjmTake_eq htake
      obtain ⟨hfits, hlogs, hlog⟩ := Store.subjectGet_logOf hget
      have hget' := Store.subjectGet_of_log
        { st with queues := st.queues.insert (pairKey s g) (queueRecord plan.q) } hfits hlogs false
      rw [hstore]
      refine ⟨.inl (Store.deadLetters_queues V now g hget' _).2, fun dead hd => ?_⟩
      have hevents : (((t.dead.map fun d => .bury d.1 d.2 now) ++ handEvents w now t.jobs) :
          List (Event W)).filterMap (envelopeOf V s g log) =
          Store.deadEntries V s g now log t.dead := by
        rw [List.filterMap_append, List.filterMap_map, handEvents, List.filterMap_map]
        simp [Store.deadEntries, Function.comp_def, envelopeOf]
      rcases Store.deadLetters_eq V now g hget' plan.deadNow.rows with
        ⟨hnone, -⟩ | ⟨dead', hd', -, hlog'⟩
      · rw [hnone] at hd
        contradiction
      · obtain rfl := Option.some.inj (hd.symm.trans hd')
        rw [hlog', hlog, hevents, hdead]
        rfl
  | done w now index =>
    simp only [groupExec]
    split
    · exact ⟨.inl rfl, fun dead _ => hquiet dead⟩
    · rename_i r hdone
      obtain ⟨q, existed, -, hr⟩ := Store.queueRelease_eq hdone
      rcases hr with ⟨rfl, -⟩ | ⟨pre, e, suf, q', -, -, -, hfound, hstore, -, -⟩
      · exact ⟨.inl rfl, fun dead _ => hquiet dead⟩
      · rw [hstore, hfound]
        exact ⟨.inl rfl, fun dead _ => hquiet dead⟩
  | fail w now index delay =>
    simp only [groupExec]
    split
    · exact ⟨.inl rfl, fun dead _ => hquiet dead⟩
    · rename_i r hfail
      obtain ⟨q, existed, -, hr⟩ := Store.queueRelease_eq hfail
      rcases hr with ⟨rfl, -⟩ | ⟨pre, e, suf, q', -, -, -, hfound, hstore, -, -⟩
      · exact ⟨.inl rfl, fun dead _ => hquiet dead⟩
      · rw [hstore, hfound]
        exact ⟨.inl rfl, fun dead _ => hquiet dead⟩
  | config leaseMs maxAttempts backoffMs maxBackoffMs =>
    simp only [groupExec]
    split
    · exact ⟨.inl rfl, fun dead _ => hquiet dead⟩
    · rename_i st' hconfig
      simp only [Store.bjmQueueConfig] at hconfig
      split at hconfig
      · contradiction
      · obtain ⟨-, rfl⟩ := Store.queueStore_eq hconfig
        exact ⟨.inl rfl, fun dead _ => hquiet dead⟩

end SukkalMsg
