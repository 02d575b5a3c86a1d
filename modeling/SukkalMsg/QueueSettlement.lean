import SukkalMsg.QueueTake

/-!
# Settling jobs and configuring a group

A job is done when its row leaves the table; a failed one stays, with its lease
moved to the time it is due again. A settlement of a job the table does not hold
is answered and changes nothing. A take is specified here as well, by what it
leaves in the group's record and in the dead-letter channel.
-/

namespace SukkalMsg

open Std Names Binjson OrderedScan

/-- The base delay doubled once per attempt so far, bounded and capped. -/
def backoffFor (q : Qrec) (attempts : ℕ) : ℕ :=
  if q.backoffMs = 0 then 0
  else
    let shift := if attempts > 0 then (attempts - 1) % 2 ^ 32 else 0
    let shift := if shift > 30 then 30 else shift
    let d := u64 (q.backoffMs * 2 ^ shift)
    let d := if d < q.backoffMs then q.maxBackoffMs else d
    if q.maxBackoffMs ≠ 0 ∧ d > q.maxBackoffMs then q.maxBackoffMs else d

/-- The delay a failed job waits: the one passed, or the group's own. -/
def retryDelay (q : Qrec) (delay : ℕ) (e : Slot) : ℕ :=
  if delay = UINT64_MAX then backoffFor q e.attempts else delay

def flFind (q : Qrec) (index : ℕ) : Option ℕ := q.fl.rows.findIdx? (·.index == index)

namespace Store

structure Released where
  found : Bool
  retryInMs : ℕ
  store : Store

def queueRelease (st : Store) (now : ℕ) (subject group : Bytes) (index : ℕ) (drop : Bool)
    (delay : ℕ) : Except BjErr Released :=
  match st.queueLoad subject group with
  | .error e => .error e
  | .ok (q, existed) =>
    if !existed then .ok ⟨false, 0, st⟩
    else match flFind q index with
      | none => .ok ⟨false, 0, st⟩
      | some at_ =>
        if drop then
          (st.queueStore subject group { q with fl := q.fl.swapRemove at_ }).map fun st =>
            ⟨true, 0, st⟩
        else
          let e := q.fl.rows.getD at_ ⟨0, 0, 0⟩
          let d := retryDelay q delay e
          (st.queueStore subject group
            { q with fl := q.fl.set at_ { e with expires := u64 (now + d) } }).map fun st =>
              ⟨true, d, st⟩

def bjmDone (st : Store) (now : ℕ) (subject group : Bytes) (index : ℕ) : Except BjErr Released :=
  st.queueRelease now subject group index true 0

def bjmFail (st : Store) (now : ℕ) (subject group : Bytes) (index delay : ℕ) :
    Except BjErr Released :=
  st.queueRelease now subject group index false delay

def bjmQueueConfig (st : Store) (subject group : Bytes)
    (leaseMs maxAttempts backoffMs maxBackoffMs : ℕ) : Except BjErr Store :=
  match st.queueLoad subject group with
  | .error e => .error e
  | .ok (q, _) => st.queueStore subject group
      { q with
        leaseMs := leaseMs
        maxAttempts := maxAttempts
        backoffMs := backoffMs
        maxBackoffMs := maxBackoffMs }

def bjmQueueDelete (st : Store) (subject group : Bytes) : Except BjErr (Bool × Store) :=
  match queueKey subject group with
  | none => .error .range
  | some key =>
    if st.queues.contains key then .ok (true, { st with queues := st.queues.erase key })
    else .ok (false, st)

/-- When the group next has work nobody holds; `none` while it is idle. -/
def bjmQueueNextDue (st : Store) (subject group : Bytes) : Except BjErr (Option ℕ) :=
  (st.queueLoad subject group).map fun (q, existed) =>
    if existed then (q.fl.rows.map Slot.expires).min? else none

theorem queueLoad_of_stored {st : Store} {s g : Bytes} {q : Qrec} (hq : q.Small)
    (hk : (queueKey s g).isSome = true)
    (h : st.queues[pairKey s g]? = some (queueRecord q)) : st.queueLoad s g = .ok (q, true) := by
  obtain ⟨key, hkey⟩ := Option.isSome_iff_exists.mp hk
  obtain rfl := boundedKey_eq hkey
  simp [queueLoad, hkey, h, queueDecode_queueRecord hq, Except.map]

theorem queueStore_eq {st st' : Store} {s g : Bytes} {q : Qrec}
    (h : st.queueStore s g q = .ok st') :
    (queueKey s g).isSome = true ∧
      st' = { st with queues := st.queues.insert (pairKey s g) (queueRecord q) } := by
  simp only [queueStore] at h
  split at h
  · contradiction
  · rename_i key hkey
    obtain rfl := boundedKey_eq hkey
    exact ⟨by simp [hkey], (Except.ok.inj h).symm⟩

theorem queueKey_of_load {st : Store} {s g : Bytes} {r : Qrec × Bool}
    (h : st.queueLoad s g = .ok r) : (queueKey s g).isSome = true := by
  simp only [queueLoad] at h
  split at h
  · contradiction
  · rename_i hkey
    simp [hkey]

theorem queueStore_of_key {st : Store} {s g : Bytes} (hk : (queueKey s g).isSome = true)
    (q : Qrec) : st.queueStore s g q =
      .ok { st with queues := st.queues.insert (pairKey s g) (queueRecord q) } := by
  obtain ⟨key, hkey⟩ := Option.isSome_iff_exists.mp hk
  simp [queueStore, hkey, boundedKey_eq hkey]

theorem flFind_eq_some {q : Qrec} {index at_ : ℕ} (h : flFind q index = some at_) :
    ∃ pre e suf, q.fl.rows = pre ++ e :: suf ∧ at_ = pre.length ∧ e.index = index := by
  obtain ⟨hlt, heq, -⟩ := List.findIdx?_eq_some_iff_getElem.mp h
  refine ⟨q.fl.rows.take at_, q.fl.rows[at_], q.fl.rows.drop (at_ + 1), ?_, ?_, by simpa using heq⟩
  · rw [← List.drop_eq_getElem_cons hlt, List.take_append_drop]
  · rw [List.length_take]
    omega

theorem flFind_eq_none {q : Qrec} {index : ℕ} (h : flFind q index = none) :
    ∀ e ∈ q.fl.rows, e.index ≠ index := by
  simpa [flFind] using h

/-- A settlement finds nothing and changes nothing, or rewrites the job's row. -/
theorem queueRelease_eq {st : Store} {now : ℕ} {s g : Bytes} {index delay : ℕ} {drop : Bool}
    {r : Released} (h : st.queueRelease now s g index drop delay = .ok r) :
    ∃ q existed, st.queueLoad s g = .ok (q, existed) ∧
      ((r = ⟨false, 0, st⟩ ∧ (existed = true → ∀ e ∈ q.fl.rows, e.index ≠ index)) ∨
        ∃ pre e suf q', q.fl.rows = pre ++ e :: suf ∧ e.index = index ∧ existed = true ∧
          r.found = true ∧
          r.store = { st with queues := st.queues.insert (pairKey s g) (queueRecord q') } ∧
          q' = { q with fl :=
            if drop then q.fl.swapRemove pre.length
            else q.fl.set pre.length { e with expires := u64 (now + retryDelay q delay e) } } ∧
          (drop = false → r.retryInMs = retryDelay q delay e)) := by
  simp only [queueRelease] at h
  cases hload : st.queueLoad s g with
  | error e => simp [hload] at h
  | ok p =>
    obtain ⟨q, existed⟩ := p
    simp only [hload] at h
    refine ⟨q, existed, rfl, ?_⟩
    cases existed with
    | false =>
      simp only [Bool.not_false, if_true] at h
      exact .inl ⟨(Except.ok.inj h).symm, by simp⟩
    | true =>
      simp only [Bool.not_true, Bool.false_eq_true, if_false] at h
      cases hfind : flFind q index with
      | none =>
        simp only [hfind] at h
        exact .inl ⟨(Except.ok.inj h).symm, fun _ => flFind_eq_none hfind⟩
      | some at_ =>
        obtain ⟨pre, e, suf, hrows, rfl, hindex⟩ := flFind_eq_some hfind
        have hget : q.fl.rows.getD pre.length ⟨0, 0, 0⟩ = e := by simp [hrows]
        simp only [hfind, hget, queueStore_of_key (queueKey_of_load hload), Except.map] at h
        cases drop with
        | true =>
          obtain rfl := Except.ok.inj h
          exact .inr ⟨pre, e, suf, _, hrows, hindex, rfl, rfl, rfl, rfl, by simp⟩
        | false =>
          obtain rfl := Except.ok.inj h
          exact .inr ⟨pre, e, suf, _, hrows, hindex, rfl, rfl, rfl, rfl, fun _ => rfl⟩

/-- The messages of a dead job list that still exist, in their envelopes. -/
def deadEntries (V : Vendor) (subject group : Bytes) (now : ℕ) (log : Elog)
    (ds : List (ℕ × ℕ)) : List Entry :=
  ds.filterMap fun d => (log.get d.1).map (envelopeEntry V subject group now d)

/-- Only one subject has been published to. -/
structure PublishedTo (name : Bytes) (st st' : Store) : Prop where
  marks : MarksOnly name { st with logs := st'.logs } st'
  others : ∀ other, other ≠ name → st'.logs[other]? = st.logs[other]?

namespace PublishedTo

variable {name : Bytes} {st st' st'' : Store}

theorem refl : PublishedTo name st st := ⟨.refl, fun _ _ => rfl⟩

theorem trans (h : PublishedTo name st st') (h' : PublishedTo name st' st'') :
    PublishedTo name st st'' := by
  refine ⟨⟨?_, fun k hk => ?_⟩, fun o ho => (h'.others o ho).trans (h.others o ho)⟩
  · rw [h'.marks.same, h.marks.same]
  · exact (h'.marks.others k hk).trans (h.marks.others k hk)

theorem of_publish {now index : ℕ} {e : Entry} (h : st.bjmPublish now name e = .ok (index, st')) :
    PublishedTo name st st' := by
  obtain ⟨-, hlogs, hm⟩ := bjmPublish_eq h
  refine ⟨hm, fun o ho => ?_⟩
  rw [hlogs, getElem?_insert, if_neg (Ne.symm ho)]

theorem queues_eq (h : PublishedTo name st st') : st'.queues = st.queues := h.marks.queues_eq
theorem cursors_eq (h : PublishedTo name st st') : st'.cursors = st.cursors := h.marks.cursors_eq
theorem push_eq (h : PublishedTo name st st') : st'.push = st.push := h.marks.push_eq

theorem logOf_eq (h : PublishedTo name st st') {other : Bytes} (ho : other ≠ name) :
    st'.logOf other = st.logOf other := by
  simp only [logOf, h.others other ho]

end PublishedTo

theorem subjectGet_logOf {st : Store} {name : Bytes} {log : Elog}
    (h : st.subjectGet name false = .ok log) :
    fileFits name = true ∧ st.logs[name]? = some log ∧ st.logOf name = log := by
  simp only [subjectGet] at h
  cases hf : fileFits name with
  | false => simp [hf] at h
  | true =>
    cases hl : st.logs[name]? with
    | none => simp [hf, hl] at h
    | some l =>
      simp only [hf, hl, Bool.not_true, Bool.false_eq_true, if_false] at h
      obtain rfl := Except.ok.inj h
      exact ⟨rfl, rfl, by simp [logOf, hl]⟩

theorem subjectGet_of_log (st : Store) {name : Bytes} {log : Elog} (hf : fileFits name = true)
    (hl : st.logs[name]? = some log) (create : Bool) : st.subjectGet name create = .ok log := by
  simp [subjectGet, hf, hl]

/-- The dead-letter loop appends the envelopes of its jobs, in order. -/
theorem foldl_deadLetter {V : Vendor} (now : ℕ) {s g dead : Bytes} {st : Store} {log : Elog}
    (hget : st.subjectGet s false = .ok log) (hne : dead ≠ s) (hfits : fileFits dead = true)
    (ds : List (ℕ × ℕ)) :
    PublishedTo dead st (ds.foldl (deadLetter V now s g dead) st) ∧
      (ds.foldl (deadLetter V now s g dead) st).logOf dead =
        ⟨(st.logOf dead).base,
          (st.logOf dead).entries ++ deadEntries V s g now log ds⟩ := by
  induction ds generalizing st with
  | nil => exact ⟨.refl, by simp [deadEntries]⟩
  | cons d ds ih =>
    simp only [List.foldl_cons]
    cases he : log.get d.1 with
    | none =>
      have hstep : deadLetter V now s g dead st d = st := by simp [deadLetter, hget, he]
      rw [hstep]
      refine ⟨(ih hget).1, ?_⟩
      rw [(ih hget).2]
      simp [deadEntries, he]
    | some e =>
      obtain ⟨index, st', hpub⟩ := bjmPublish_ok st now (envelopeEntry V s g now d e) hfits
      have hstep : deadLetter V now s g dead st d = st' := by simp [deadLetter, hget, he, hpub]
      have hto : PublishedTo dead st st' := .of_publish hpub
      obtain ⟨-, hlogs, -⟩ := bjmPublish_eq hpub
      obtain ⟨hsfits, hsl, -⟩ := subjectGet_logOf hget
      have hget' : st'.subjectGet s false = .ok log :=
        subjectGet_of_log st' hsfits ((hto.others s (Ne.symm hne)).trans hsl) false
      obtain ⟨hrest, hlog⟩ := ih hget'
      rw [hstep]
      refine ⟨hto.trans hrest, ?_⟩
      rw [hlog, logOf_insert hlogs, if_pos rfl]
      simp [deadEntries, he, Elog.append]

theorem fileFits_deadSubjectOf {s dead : Bytes} (h : deadSubjectOf s = some dead) :
    fileFits dead = true := by
  simp only [deadSubjectOf] at h
  split at h
  · contradiction
  · split at h
    · contradiction
    · rename_i hvalid
      obtain rfl := Option.some.inj h
      simp only [Bool.or_eq_true, Bool.not_eq_true', not_or, Bool.not_eq_false] at hvalid
      exact fileFits_of_valid hvalid.2

/-- A name that stays as it is changes nothing about the loop. -/
theorem deadLettersVia_const (V : Vendor) (now : ℕ) (s g : Bytes) (ds : List (ℕ × ℕ)) (st : Store) :
    st.deadLettersVia V now (fun _ => s) s g ds = st.deadLetters V now s g ds := by
  have hloop : ∀ (dead : Bytes) (ds : List (ℕ × ℕ)) (st : Store),
      deadLettersFrom V now (fun _ => s) g dead s ds st =
        ds.foldl (deadLetter V now s g dead) st := by
    intro dead ds
    induction ds with
    | nil => exact fun _ => rfl
    | cons d ds ih =>
      intro st
      rw [deadLettersFrom, List.foldl_cons, ite_self]
      exact ih _
  simp only [deadLettersVia, deadLetters, hloop]

theorem bjmTake_def (V : Vendor) (st : Store) (now : ℕ) (s g : Bytes) (max : ℤ) (lease : ℕ) :
    st.bjmTake V now s g max lease = match st.subjectGet s false with
      | .error e => .error e
      | .ok log => match st.queueLoad s g with
        | .error e => .error e
        | .ok (q, _) =>
          let lease := effectiveLease lease q
          let plan := takePlan now lease (clampMax max) log.last { q with leaseMs := lease }
          match st.queueStore s g plan.q with
          | .error e => .error e
          | .ok st => .ok
            { jobs := takenJobs now lease log plan.chosen
              dead := plan.deadNow.rows
              store := st.deadLetters V now s g plan.deadNow.rows } := by
  simp only [bjmTake, bjmTakeVia, deadLettersVia_const] <;> rfl

/-- A take stores what it planned, then publishes the dead jobs. -/
theorem bjmTakeVia_eq {V : Vendor} {again : Store → Bytes} {st : Store} {now : ℕ} {s g : Bytes}
    {max : ℤ} {lease : ℕ} {t : Taken} (h : st.bjmTakeVia V again now s g max lease = .ok t) :
    ∃ log q existed plan,
      st.subjectGet s false = .ok log ∧ st.queueLoad s g = .ok (q, existed) ∧
      plan = takePlan now (effectiveLease lease q) (clampMax max) log.last
        { q with leaseMs := effectiveLease lease q } ∧
      t.jobs = takenJobs now (effectiveLease lease q) log plan.chosen ∧
      t.dead = plan.deadNow.rows ∧
      t.store = ({ st with queues := st.queues.insert (pairKey s g) (queueRecord plan.q) } :
        Store).deadLettersVia V now again s g plan.deadNow.rows := by
  simp only [bjmTakeVia] at h
  cases hget : st.subjectGet s false with
  | error e => simp [hget] at h
  | ok log =>
    cases hload : st.queueLoad s g with
    | error e => simp [hget, hload] at h
    | ok p =>
      obtain ⟨q, existed⟩ := p
      simp only [hget, hload, queueStore_of_key (queueKey_of_load hload)] at h
      obtain rfl := Except.ok.inj h
      exact ⟨log, q, existed, _, rfl, rfl, rfl, rfl, rfl, rfl⟩

theorem bjmTake_eq {V : Vendor} {st : Store} {now : ℕ} {s g : Bytes} {max : ℤ} {lease : ℕ}
    {t : Taken} (h : st.bjmTake V now s g max lease = .ok t) :
    ∃ log q existed plan,
      st.subjectGet s false = .ok log ∧ st.queueLoad s g = .ok (q, existed) ∧
      plan = takePlan now (effectiveLease lease q) (clampMax max) log.last
        { q with leaseMs := effectiveLease lease q } ∧
      t.jobs = takenJobs now (effectiveLease lease q) log plan.chosen ∧
      t.dead = plan.deadNow.rows ∧
      t.store = ({ st with queues := st.queues.insert (pairKey s g) (queueRecord plan.q) } :
        Store).deadLetters V now s g plan.deadNow.rows := by
  obtain ⟨log, q, existed, plan, hget, hload, hplan, hjobs, hdead, hst⟩ := bjmTakeVia_eq h
  rw [deadLettersVia_const] at hst
  exact ⟨log, q, existed, plan, hget, hload, hplan, hjobs, hdead, hst⟩

/-- What becomes of the name decides what is published of the dead, and nothing else of a take. -/
theorem bjmTakeVia_any {V : Vendor} {again : Store → Bytes} {st : Store} {now : ℕ} {s g : Bytes}
    {max : ℤ} {lease : ℕ} {t : Taken} (h : st.bjmTakeVia V again now s g max lease = .ok t)
    (again' : Store → Bytes) :
    ∃ t', st.bjmTakeVia V again' now s g max lease = .ok t' ∧ t'.jobs = t.jobs ∧
      t'.dead = t.dead := by
  simp only [bjmTakeVia] at h ⊢
  cases hget : st.subjectGet s false with
  | error e => simp [hget] at h
  | ok log =>
    cases hload : st.queueLoad s g with
    | error e => simp [hget, hload] at h
    | ok p =>
      simp only [hget, hload] at h ⊢
      split at h
      · contradiction
      · rename_i st' hstore
        obtain rfl := Except.ok.inj h
        exact ⟨_, rfl, rfl, rfl⟩

/-- Publishing the dead touches the dead-letter channel, where there is one. -/
theorem deadLetters_eq (V : Vendor) (now : ℕ) {s : Bytes} (g : Bytes) {st : Store} {log : Elog}
    (hget : st.subjectGet s false = .ok log) (ds : List (ℕ × ℕ)) :
    (deadSubjectOf s = none ∧ st.deadLetters V now s g ds = st) ∨
      ∃ dead, deadSubjectOf s = some dead ∧
        PublishedTo dead st (st.deadLetters V now s g ds) ∧
        (st.deadLetters V now s g ds).logOf dead =
          ⟨(st.logOf dead).base,
            (st.logOf dead).entries ++ deadEntries V s g now log ds⟩ := by
  cases hd : deadSubjectOf s with
  | none => exact .inl ⟨rfl, by simp [deadLetters, hd]⟩
  | some dead =>
    refine .inr ⟨dead, rfl, ?_⟩
    simp only [deadLetters, hd]
    exact foldl_deadLetter _ hget (deadSubjectOf_ne hd) (fileFits_deadSubjectOf hd) ds

/-- One turn publishes to the channel or changes nothing. -/
theorem deadLetter_cases (V : Vendor) (now : ℕ) (s g : Bytes) {dead : Bytes} (st : Store)
    (hfits : fileFits dead = true) (d : ℕ × ℕ) :
    st.lettered s d = false ∧ deadLetter V now s g dead st d = st ∨
      st.lettered s d = true ∧ ∃ index e, st.bjmPublish now dead e =
        .ok (index, deadLetter V now s g dead st d) := by
  simp only [lettered, deadLetter]
  cases st.subjectGet s false with
  | error e => exact .inl ⟨rfl, rfl⟩
  | ok log =>
    cases he : log.get d.1 with
    | none => exact .inl ⟨by simp [he], by simp [he]⟩
    | some e =>
      obtain ⟨index, st', hpub⟩ := bjmPublish_ok st now (envelopeEntry V s g now d e) hfits
      exact .inr ⟨by simp [he], index, envelopeEntry V s g now d e, by simp [he, hpub]⟩

theorem any_lettered {st : Store} {s : Bytes} {log : Elog}
    (hget : st.subjectGet s false = .ok log) (ds : List (ℕ × ℕ)) :
    (ds.any fun d => st.lettered s d) = ds.any fun d => (log.get d.1).isSome := by
  simp only [lettered, hget]

/-- However the name reads, the loop appends to the channel, and something if the first name has a
message to bury. -/
theorem deadLettersFrom_eq (V : Vendor) (now : ℕ) (again : Store → Bytes) (g : Bytes)
    {dead : Bytes} (hfits : fileFits dead = true) (s : Bytes) (ds : List (ℕ × ℕ)) (st : Store) :
    PublishedTo dead st (deadLettersFrom V now again g dead s ds st) ∧
      ∃ es, (deadLettersFrom V now again g dead s ds st).logOf dead =
          ⟨(st.logOf dead).base, (st.logOf dead).entries ++ es⟩ ∧
        (es = [] ↔ (ds.any fun d => st.lettered s d) = false) ∧
        (es = [] → deadLettersFrom V now again g dead s ds st = st) := by
  induction ds generalizing s st with
  | nil => exact ⟨.refl, [], by simp [deadLettersFrom], by simp, fun _ => rfl⟩
  | cons d ds ih =>
    rw [deadLettersFrom]
    rcases deadLetter_cases V now s g st hfits d with ⟨hl, heq⟩ | ⟨hl, index, e, hpub⟩
    · simp only [hl, heq, Bool.false_eq_true, if_false, List.any_cons, Bool.false_or]
      exact ih s st
    · simp only [hl, if_true, List.any_cons, Bool.true_or]
      obtain ⟨hto, es, hlog, -, -⟩ :=
        ih (again (deadLetter V now s g dead st d)) (deadLetter V now s g dead st d)
      obtain ⟨-, hlogs, -⟩ := bjmPublish_eq hpub
      refine ⟨(PublishedTo.of_publish hpub).trans hto, e :: es, ?_, by simp, by simp⟩
      rw [hlog, logOf_insert hlogs, if_pos rfl]
      simp [Elog.append]

theorem deadLettersVia_eq (V : Vendor) (now : ℕ) (again : Store → Bytes) (s g : Bytes)
    (ds : List (ℕ × ℕ)) (st : Store) :
    (deadSubjectOf s = none ∧ st.deadLettersVia V now again s g ds = st) ∨
      ∃ dead, deadSubjectOf s = some dead ∧
        PublishedTo dead st (st.deadLettersVia V now again s g ds) ∧
        ∃ es, (st.deadLettersVia V now again s g ds).logOf dead =
            ⟨(st.logOf dead).base, (st.logOf dead).entries ++ es⟩ ∧
          (es = [] ↔ (ds.any fun d => st.lettered s d) = false) ∧
          (es = [] → st.deadLettersVia V now again s g ds = st) := by
  cases hd : deadSubjectOf s with
  | none => exact .inl ⟨rfl, by simp [deadLettersVia, hd]⟩
  | some dead =>
    refine .inr ⟨dead, rfl, ?_⟩
    simp only [deadLettersVia, hd]
    exact deadLettersFrom_eq V now again g (fileFits_deadSubjectOf hd) s ds st

end Store

end SukkalMsg
