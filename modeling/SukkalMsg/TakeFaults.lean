import SukkalMsg.Encoding
import SukkalMsg.QueueGuarantees

/-!
# Takes that fail on the way

A take that buries jobs stores the group's record without them first, and publishes
their envelopes afterwards, one by one, whatever becomes of each append. A failure
or a crash in between leaves a job neither in the table nor in the channel. It is
kept exactly when the record was not written, or its envelope was.
-/

namespace SukkalMsg

open Std Names Binjson OrderedScan Store

/-- How an append ends. A sync that fails leaves the entry in the log. -/
inductive Appending where
  | done | unsynced | refused
  deriving DecidableEq

def Appending.landed : Appending → Bool
  | .refused => false
  | _ => true

inductive TakeFate where
  /-- The record's write fails, or the broker dies before it. -/
  | unwritten
  /-- The record is written, and the dead-letter loop takes a turn for each append;
  none when the answer cannot be built, or the broker dies before the first. -/
  | written (appends : List Appending)

namespace Store

/-- `bjm_publish` up to the sync that fails. -/
def bjmPublishUnsynced (st : Store) (name : Bytes) (e : Entry) : Store :=
  match st.subjectGet name true with
  | .error _ => st
  | .ok log => { st with logs := st.logs.insert name (log.append e) }

/-- A turn of the dead-letter loop whose append ends so. -/
def deadLetterFated (V : Vendor) (now : ℕ) (subject group dead : Bytes) (st : Store)
    (d : ℕ × ℕ) : Appending → Store
  | .done => deadLetter V now subject group dead st d
  | .refused => st
  | .unsynced => match st.subjectGet subject false with
    | .error _ => st
    | .ok log => match log.get d.1 with
      | none => st
      | some e => st.bjmPublishUnsynced dead (envelopeEntry V subject group now d e)

def deadLettersFated (V : Vendor) (now : ℕ) (subject group : Bytes)
    (turns : List ((ℕ × ℕ) × Appending)) (st : Store) : Store :=
  match deadSubjectOf subject with
  | none => st
  | some dead => turns.foldl (fun st x => deadLetterFated V now subject group dead st x.1 x.2) st

/-- The jobs a take gives up on, and the store it leaves behind. -/
structure Cut where
  dead : List (ℕ × ℕ)
  store : Store

/-- `bjm_take`, as far as it comes. -/
def bjmTakeFated (V : Vendor) (st : Store) (now : ℕ) (subject group : Bytes) (max : ℤ)
    (lease : ℕ) (fate : TakeFate) : Except BjErr Cut :=
  match st.subjectGet subject false with
  | .error e => .error e
  | .ok log => match st.queueLoad subject group with
    | .error e => .error e
    | .ok (q, _) =>
      let lease := effectiveLease lease q
      let plan := takePlan now lease (clampMax max) log.last { q with leaseMs := lease }
      match fate with
      | .unwritten => .ok ⟨plan.deadNow.rows, st⟩
      | .written appends => match st.queueStore subject group plan.q with
        | .error e => .error e
        | .ok st => .ok ⟨plan.deadNow.rows,
            st.deadLettersFated V now subject group (plan.deadNow.rows.zip appends)⟩

def tableOf (r : Record) : List Slot := (r.foldl qVisit .zero).qrec.fl.rows

def Listed (st : Store) (subject group : Bytes) (index : ℕ) : Prop :=
  ∃ r, st.queues[pairKey subject group]? = some r ∧ index ∈ (tableOf r).map Slot.index

def Enveloped (V : Vendor) (st : Store) (subject group dead : Bytes) (index : ℕ) : Prop :=
  ∃ at_ now attempts e,
    (st.logOf dead).get at_ = some (envelopeEntry V subject group now (index, attempts) e)

end Store

/-- An envelope tells the index of its job. -/
structure Vendor.Legible (V : Vendor) : Prop where
  index : ∀ {subject group : Bytes} {now now' : ℕ} {d d' : ℕ × ℕ} {e e' : Entry},
    V.encode (envelopeRecord subject group now d e) =
      V.encode (envelopeRecord subject group now' d' e') → putInt d.1 = putInt d'.1

theorem Store.bjmTakeFated_done {V : Vendor} {st : Store} {now : ℕ} {s g : Bytes} {max : ℤ}
    {lease : ℕ} {appends : List Appending} (hdone : ∀ a ∈ appends, a = .done)
    (hlen : BJM_INFLIGHT_MAX ≤ appends.length) :
    st.bjmTakeFated V now s g max lease (.written appends) =
      (st.bjmTake V now s g max lease).map fun t => ⟨t.dead, t.store⟩ := by
  simp only [bjmTakeFated, bjmTake_def]
  cases st.subjectGet s false with
  | error e => rfl
  | ok log =>
    cases st.queueLoad s g with
    | error e => rfl
    | ok p =>
      dsimp only
      generalize takePlan _ _ _ _ _ = plan
      cases st.queueStore s g plan.q with
      | error e => rfl
      | ok st =>
        have hfold : ∀ (dead : Bytes) (ds : List (ℕ × ℕ)) (as : List Appending) (st : Store),
            (∀ a ∈ as, a = .done) → ds.length ≤ as.length →
            (ds.zip as).foldl (fun st x => deadLetterFated V now s g dead st x.1 x.2) st =
              ds.foldl (deadLetter V now s g dead) st := by
          intro dead ds
          induction ds with
          | nil => exact fun as st _ _ => rfl
          | cons d ds ih =>
            intro as st has hle
            cases as with
            | nil => exact absurd hle (by simp)
            | cons a as =>
              obtain rfl := has a List.mem_cons_self
              simp only [List.length_cons, Nat.add_le_add_iff_right] at hle
              exact ih as _ (fun a ha => has a (List.mem_cons_of_mem _ ha)) hle
        have hfits := plan.deadNow.fits
        simp only [Except.map, deadLettersFated, deadLetters]
        cases deadSubjectOf s with
        | none => rfl
        | some dead =>
          dsimp only
          rw [hfold dead _ _ _ hdone (by omega)]

namespace Store

variable {V : Vendor} {now : ℕ} {s g dead : Bytes} {st : Store} {log : Elog}

def landing (V : Vendor) (subject group : Bytes) (now : ℕ) (log : Elog)
    (x : (ℕ × ℕ) × Appending) : List Entry :=
  if x.2.landed then ((log.get x.1.1).map (envelopeEntry V subject group now x.1)).toList else []

variable (now) in
/-- A turn appends its envelope to the channel, unless it is refused, and touches
neither the groups nor the subject. -/
theorem deadLetterFated_eq (hget : st.subjectGet s false = .ok log) (hne : dead ≠ s)
    (hfits : fileFits dead = true) (d : ℕ × ℕ) (a : Appending) :
    (deadLetterFated V now s g dead st d a).queues = st.queues ∧
      (deadLetterFated V now s g dead st d a).subjectGet s false = .ok log ∧
      (deadLetterFated V now s g dead st d a).logOf dead =
        ⟨(st.logOf dead).base, (st.logOf dead).entries ++ landing V s g now log (d, a)⟩ := by
  obtain ⟨hsfits, hsl, -⟩ := subjectGet_logOf hget
  cases a with
  | refused => exact ⟨rfl, hget, by simp [landing, Appending.landed, deadLetterFated]⟩
  | done =>
    obtain ⟨hto, hlog⟩ := foldl_deadLetter (V := V) now (g := g) hget hne hfits [d]
    refine ⟨hto.queues_eq, subjectGet_of_log _ hsfits ((hto.others s hne.symm).trans hsl) false, ?_⟩
    simp only [deadLetterFated, landing, Appending.landed, if_true]
    rw [List.foldl_cons, List.foldl_nil] at hlog
    rw [hlog]
    cases he : log.get d.1 <;> simp [deadEntries, he]
  | unsynced =>
    simp only [deadLetterFated, hget, landing, Appending.landed, if_true]
    cases he : log.get d.1 with
    | none => exact ⟨rfl, hget, by simp⟩
    | some e =>
      have hdead : st.subjectGet dead true = .ok (st.logOf dead) := by
        simp only [subjectGet, hfits, logOf]
        cases st.logs[dead]? <;> rfl
      simp only [bjmPublishUnsynced, hdead, Option.map_some, Option.toList_some]
      refine ⟨trivial, subjectGet_of_log _ hsfits ?_ false, ?_⟩
      · rw [getElem?_insert, if_neg (by simpa using hne)]
        exact hsl
      · rw [logOf_insert rfl, if_pos rfl]
        rfl

variable (now st) in
theorem foldl_deadLetterFated (hget : st.subjectGet s false = .ok log) (hne : dead ≠ s)
    (hfits : fileFits dead = true) (turns : List ((ℕ × ℕ) × Appending)) :
    let st' := turns.foldl (fun st x => deadLetterFated V now s g dead st x.1 x.2) st
    st'.queues = st.queues ∧ st'.logOf dead =
      ⟨(st.logOf dead).base, (st.logOf dead).entries ++ turns.flatMap (landing V s g now log)⟩ := by
  induction turns generalizing st with
  | nil => exact ⟨rfl, by simp⟩
  | cons x turns ih =>
    obtain ⟨hq, hget', hlog⟩ := deadLetterFated_eq now (V := V) (g := g) hget hne hfits
      x.1 x.2
    obtain ⟨hq', hlog'⟩ := ih _ hget'
    refine ⟨hq'.trans hq, ?_⟩
    rw [List.foldl_cons, hlog', hlog, List.flatMap_cons, List.append_assoc]

end Store

theorem Elog.exists_get_iff {log : Elog} {e : Entry} :
    (∃ i, log.get i = some e) ↔ e ∈ log.entries := by
  constructor
  · rintro ⟨i, h⟩
    simp only [Elog.get] at h
    split at h
    · contradiction
    · exact List.mem_of_getElem? h
  · intro h
    obtain ⟨k, hk⟩ := List.mem_iff_getElem?.mp h
    have hlt : ¬ log.base + k + 1 ≤ log.base := by omega
    have hidx : log.base + k + 1 - log.base - 1 = k := by omega
    exact ⟨log.base + k + 1, by simp only [Elog.get, hlt, if_false, hidx, hk]⟩

theorem putInt_inj {n m : ℕ} (hn : n < 2 ^ 64) (hm : m < 2 ^ 64) (h : putInt n = putInt m) :
    n = m := by
  rw [← ofDouble_toInt64 hn, Item.int.inj h, ofDouble_toInt64 hm]

namespace Store

variable {V : Vendor} {now lease : ℕ} {max : ℤ} {s g dead : Bytes} {st : Store} {log : Elog}

theorem enveloped_iff {i : ℕ} : st.Enveloped V s g dead i ↔ ∃ now attempts e,
    envelopeEntry V s g now (i, attempts) e ∈ (st.logOf dead).entries := by
  constructor
  · rintro ⟨k, now, attempts, e, h⟩
    exact ⟨now, attempts, e, Elog.exists_get_iff.mp ⟨k, h⟩⟩
  · rintro ⟨now, attempts, e, h⟩
    obtain ⟨k, hk⟩ := Elog.exists_get_iff.mpr h
    exact ⟨k, now, attempts, e, hk⟩

variable (st) in
/-- The envelopes in the channel after some turns are the old ones and those that
have landed. -/
theorem enveloped_of_landings (hV : V.Legible) {st' : Store} {turns : List ((ℕ × ℕ) × Appending)}
    (hlog : (st'.logOf dead).entries =
      (st.logOf dead).entries ++ turns.flatMap (landing V s g now log))
    (hturns : ∀ x ∈ turns, x.1.1 < 2 ^ 64) {i : ℕ} (hi : i < 2 ^ 64) :
    st'.Enveloped V s g dead i ↔ st.Enveloped V s g dead i ∨
      (log.get i).isSome = true ∧ ∃ x ∈ turns, x.1.1 = i ∧ x.2.landed = true := by
  rw [enveloped_iff, enveloped_iff, hlog]
  constructor
  · rintro ⟨t, a, e, h⟩
    rcases List.mem_append.mp h with h | h
    · exact .inl ⟨t, a, e, h⟩
    · obtain ⟨x, hx, hl⟩ := List.mem_flatMap.mp h
      simp only [landing] at hl
      split at hl
      · rename_i hland
        rw [Option.mem_toList, Option.map_eq_some_iff] at hl
        obtain ⟨e', he', heq⟩ := hl
        obtain rfl := putInt_inj (hturns x hx) hi (hV.index (Entry.mk.inj heq).2)
        exact .inr ⟨by simp [he'], x, hx, rfl, hland⟩
      · exact absurd hl List.not_mem_nil
  · rintro (⟨t, a, e, h⟩ | ⟨hsome, x, hx, rfl, hland⟩)
    · exact ⟨t, a, e, List.mem_append_left _ h⟩
    · obtain ⟨e, he⟩ := Option.isSome_iff_exists.mp hsome
      refine ⟨now, x.1.2, e, List.mem_append_right _ (List.mem_flatMap.mpr ⟨x, hx, ?_⟩)⟩
      simp [landing, hland, he]

theorem bjmTakeFated_eq {fate : TakeFate} {t : Cut}
    (h : st.bjmTakeFated V now s g max lease fate = .ok t) :
    ∃ log q existed plan, st.subjectGet s false = .ok log ∧
      st.queueLoad s g = .ok (q, existed) ∧
      plan = takePlan now (effectiveLease lease q) (clampMax max) log.last
        { q with leaseMs := effectiveLease lease q } ∧
      t.dead = plan.deadNow.rows ∧
      t.store = match fate with
        | .unwritten => st
        | .written appends =>
          ({ st with queues := st.queues.insert (pairKey s g) (queueRecord plan.q) } :
            Store).deadLettersFated V now s g (plan.deadNow.rows.zip appends) := by
  simp only [bjmTakeFated] at h
  cases hget : st.subjectGet s false with
  | error e => simp [hget] at h
  | ok log =>
    cases hload : st.queueLoad s g with
    | error e => simp [hget, hload] at h
    | ok p =>
      obtain ⟨q, existed⟩ := p
      simp only [hget, hload] at h
      cases fate with
      | unwritten =>
        obtain rfl := Except.ok.inj h
        exact ⟨log, q, existed, _, rfl, rfl, rfl, rfl, rfl⟩
      | written appends =>
        simp only [queueStore_of_key (queueKey_of_load hload)] at h
        obtain rfl := Except.ok.inj h
        exact ⟨log, q, existed, _, rfl, rfl, rfl, rfl, rfl⟩

end Store

/-- The record a take writes still lists the job: the table had it twice, or the group
was about to hand it out again. -/
def Store.Relists (st : Store) (now : ℕ) (s g : Bytes) (max : ℤ) (lease i : ℕ) : Prop :=
  ∃ q existed, st.queueLoad s g = .ok (q, existed) ∧
    i ∈ (tableOf (queueRecord (plannedTake now max lease (st.logOf s) q).q)).map Slot.index

/-- What becomes of the take leaves the job in a place to be found. -/
def TakeFate.Keeps (V : Vendor) (st : Store) (s g dead : Bytes) (ds : List (ℕ × ℕ)) (i : ℕ) :
    TakeFate → Prop
  | .unwritten => True
  | .written appends => st.Enveloped V s g dead i ∨
      ((st.logOf s).get i).isSome = true ∧
        ∃ x ∈ ds.zip appends, x.1.1 = i ∧ x.2.landed = true

namespace Store

variable {V : Vendor} {now lease : ℕ} {max : ℤ} {s g dead : Bytes} {st : Store}

theorem tableOf_of_decode {r : Record} {q : Qrec} (h : queueDecode r = .ok q) :
    tableOf r = q.fl.rows := by
  by_cases hr : Readable r
  · rw [queueDecode, bjDecode_of_readable _ hr] at h
    obtain rfl := Except.ok.inj h
    rfl
  · simp [queueDecode, bjDecode_of_unreadable _ hr, Except.map] at h

theorem record_of_load {q : Qrec} {existed : Bool} (h : st.queueLoad s g = .ok (q, existed))
    (hrows : q.fl.rows ≠ []) :
    ∃ r, st.queues[pairKey s g]? = some r ∧ queueDecode r = .ok q := by
  obtain ⟨key, hkey⟩ := Option.isSome_iff_exists.mp (queueKey_of_load h)
  obtain rfl := boundedKey_eq hkey
  simp only [queueLoad, hkey] at h
  cases hr : st.queues[pairKey s g]? with
  | none =>
    rw [hr] at h
    dsimp only at h
    split at h <;> obtain ⟨rfl, -⟩ := Prod.mk.inj (Except.ok.inj h) <;> exact absurd rfl hrows
  | some r =>
    rw [hr] at h
    dsimp only at h
    cases hd : queueDecode r with
    | error e => simp [hd, Except.map] at h
    | ok q' =>
      rw [hd] at h
      obtain ⟨rfl, -⟩ := Prod.mk.inj (Except.ok.inj h)
      exact ⟨r, rfl, hd⟩

theorem index_lt_of_load {q : Qrec} {existed : Bool} (h : st.queueLoad s g = .ok (q, existed))
    {e : Slot} (he : e ∈ q.fl.rows) : e.index < 2 ^ 64 := by
  obtain ⟨r, -, hdec⟩ := record_of_load h (List.ne_nil_of_mem he)
  refine words_of_queueDecode hdec e.index ?_
  simp only [Qrec.ints, List.mem_append]
  exact .inl (.inr (mem_flat.mpr ⟨e, he, .inl rfl⟩))

theorem listed_of_dead {q : Qrec} {existed : Bool} (hload : st.queueLoad s g = .ok (q, existed))
    {d : ℕ × ℕ} {last : ℕ}
    (hd : d ∈ (takePlan now (effectiveLease lease q) (clampMax max) last
      { q with leaseMs := effectiveLease lease q }).deadNow.rows) :
    st.Listed s g d.1 ∧ d.1 < 2 ^ 64 := by
  obtain ⟨kept, old, buried, k, hout⟩ := takePlan_outcome now (effectiveLease lease q)
    (clampMax max) last { q with leaseMs := effectiveLease lease q }
  rw [hout.deadNow] at hd
  obtain ⟨e, he, rfl⟩ := List.mem_map.mp hd
  have hrow : e ∈ q.fl.rows := hout.before.mem_iff.mpr (by simp [he])
  obtain ⟨r, hr, hdec⟩ := record_of_load hload (List.ne_nil_of_mem hrow)
  refine ⟨⟨r, hr, ?_⟩, index_lt_of_load hload hrow⟩
  rw [tableOf_of_decode hdec]
  exact List.mem_map.mpr ⟨e, hrow, rfl⟩

end Store

theorem TakeOutcome.row_cases {now lease last k : ℕ} {q : Qrec} {s : TakeState}
    {kept old buried : List Slot} (h : TakeOutcome now lease last q s kept old buried k) {f : Slot}
    (hf : f ∈ s.q.fl.rows) :
    (∃ e ∈ kept ++ old, f.index = e.index) ∨ q.next ≤ f.index ∧ f.index ≤ last := by
  rcases List.mem_append.mp (h.after.mem_iff.mp hf) with hf | hf
  · rcases List.mem_append.mp hf with hf | hf
    · exact .inl ⟨f, List.mem_append_left _ hf, rfl⟩
    · obtain ⟨e, he, rfl⟩ := List.mem_map.mp hf
      exact .inl ⟨e, List.mem_append_right _ he, rfl⟩
  · simp only [freshRows] at hf
    split at hf
    · obtain ⟨i, hi, rfl⟩ := List.mem_map.mp hf
      obtain ⟨j, hj, rfl⟩ := List.mem_range'.mp hi
      have hle := h.fresh_le (by omega)
      refine .inr ⟨?_, ?_⟩ <;> simp only [Slot.first] <;> omega
    · exact absurd hf List.not_mem_nil

theorem Store.not_relists {st : Store} {now lease : ℕ} {s g : Bytes} {max : ℤ} {q : Qrec}
    {existed : Bool} (hload : st.queueLoad s g = .ok (q, existed))
    (hnodup : (q.fl.rows.map Slot.index).Nodup) (hnext : ∀ e ∈ q.fl.rows, e.index < q.next)
    (hlast : (st.logOf s).last < 2 ^ 64) {d : ℕ × ℕ}
    (hd : d ∈ (plannedTake now max lease (st.logOf s) q).deadNow.rows) :
    ¬ st.Relists now s g max lease d.1 := by
  rintro ⟨q', existed', hload', hrow⟩
  obtain ⟨rfl, -⟩ := Prod.mk.inj (Except.ok.inj (hload.symm.trans hload'))
  obtain ⟨kept, old, buried, k, hout⟩ := takePlan_outcome now (effectiveLease lease q)
    (clampMax max) (st.logOf s).last { q with leaseMs := effectiveLease lease q }
  rw [plannedTake] at hd hrow
  rw [hout.deadNow] at hd
  obtain ⟨e, he, rfl⟩ := List.mem_map.mp hd
  rw [← queueRecord_wrapped, tableOf, foldl_queueRecord (Qrec.wrapped_words _)] at hrow
  obtain ⟨_, hwrapped, heq⟩ := List.mem_map.mp hrow
  obtain ⟨f, hf, rfl⟩ := List.mem_map.mp hwrapped
  have hin : ∀ f ∈ kept ++ (old ++ buried), f ∈ q.fl.rows := fun f => hout.before.mem_iff.mpr
  have hwrap : ∀ n, n < 2 ^ 64 → n = f.index → n = e.index := by
    rintro n hn rfl
    exact (u64_of_lt hn).symm.trans heq
  rcases hout.row_cases hf with ⟨x, hx, hxe⟩ | ⟨hlo, hhi⟩
  · -- a job kept or let again is another one than the buried
    have hxin : x ∈ q.fl.rows := hin x (by rw [← List.append_assoc]; exact List.mem_append_left _ hx)
    have hne := (hout.before.map Slot.index).nodup_iff.mp hnodup
    rw [← List.append_assoc, List.map_append] at hne
    exact (List.nodup_append.mp hne).2.2 x.index (List.mem_map_of_mem hx) e.index
      (List.mem_map_of_mem he) (hwrap _ (index_lt_of_load hload hxin) hxe.symm)
  · have hlt := hnext e (hin e (by simp [he]))
    have := hwrap f.index (by omega) rfl
    dsimp only at hlo
    omega

/-- Every job a take gives up on is in the table or in the channel afterwards, exactly
when the record was not written, or each of their envelopes has landed, or stood in
the channel before. -/
theorem dead_jobs_kept_iff {V : Vendor} (hV : V.Legible) {st : Store} {now lease : ℕ}
    {s g dead : Bytes} {max : ℤ} {fate : TakeFate} {t : Cut} (hdead : deadSubjectOf s = some dead)
    (h : st.bjmTakeFated V now s g max lease fate = .ok t) :
    (∀ d ∈ t.dead, t.store.Listed s g d.1 ∨ t.store.Enveloped V s g dead d.1) ↔
      ∀ d ∈ t.dead, fate.Keeps V st s g dead t.dead d.1 ∨ st.Relists now s g max lease d.1 := by
  obtain ⟨log, q, existed, plan, hget, hload, hplan, hds, hst⟩ := bjmTakeFated_eq h
  have hlisted : ∀ d ∈ t.dead, st.Listed s g d.1 ∧ d.1 < 2 ^ 64 := by
    intro d hd
    rw [hds, hplan] at hd
    exact listed_of_dead hload hd
  refine forall₂_congr fun d hd => ?_
  cases fate with
  | unwritten =>
    rw [hst]
    exact ⟨fun _ => .inl trivial, fun _ => .inl (hlisted d hd).1⟩
  | written appends =>
    dsimp only at hst
    set st₁ : Store := { st with queues := st.queues.insert (pairKey s g) (queueRecord plan.q) }
      with hst₁
    simp only [deadLettersFated, hdead] at hst
    obtain ⟨hq, hlog⟩ := foldl_deadLetterFated now st₁ (V := V) (g := g) hget
      (deadSubjectOf_ne hdead) (fileFits_deadSubjectOf hdead) (plan.deadNow.rows.zip appends)
    rw [← hst] at hq hlog
    obtain ⟨-, -, rfl⟩ := subjectGet_logOf hget
    have henv := enveloped_of_landings st₁ hV (congrArg Elog.entries hlog)
      (fun x hx => (hlisted x.1 (hds ▸ (List.of_mem_zip hx).1)).2) (hlisted d hd).2
    have hrel : t.store.Listed s g d.1 ↔ st.Relists now s g max lease d.1 := by
      have hplan' : plan = plannedTake now max lease (st.logOf s) q := hplan
      simp only [Listed, Relists, hq, hst₁, hload, ExtTreeMap.getElem?_insert_self,
        Option.some.injEq, exists_eq_left', Except.ok.injEq, Prod.mk.injEq]
      constructor
      · exact fun hi => ⟨q, existed, ⟨rfl, rfl⟩, hplan' ▸ hi⟩
      · rintro ⟨_, _, ⟨rfl, rfl⟩, hi⟩
        exact hplan' ▸ hi
    rw [hrel, henv, or_comm, hds]
    rfl

def envelopeFront (s g : Bytes) : Bytes :=
  le 4 7 ++ (ascii "subject" ++ (0x05 :: (le 4 s.length ++ (s ++ (le 4 5 ++ (ascii "group" ++
    (0x05 :: (le 4 g.length ++ (g ++ (le 4 5 ++ ascii "index"))))))))))

theorem encode_envelope (s g : Bytes) (now : ℕ) (d : ℕ × ℕ) (e : Entry) : ∃ size rest,
    encode (envelopeRecord s g now d e) = 0x11 :: (le 4 size ++ (le 4 7 ++ (envelopeFront s g ++
      (0x03 :: (le 8 (ofDouble (toInt64 d.1)) ++ rest))))) := by
  have htag : (0x11 : UInt8) ≠ 0x10 := by decide
  simp only [encode, envelopeRecord, List.foldl_cons, List.foldl_nil, Builder.put, Builder.key,
    Builder.value, Builder.close, putInt, envelopeFront, List.append_assoc, List.cons_append,
    List.nil_append, htag, if_false]
  exact ⟨_, _, rfl⟩

def Vendor.binjson : Vendor := { Vendor.silent with encode := Binjson.encode }

theorem Vendor.binjson_legible : Vendor.binjson.Legible := by
  constructor
  intro s g now now' d d' e e' h
  obtain ⟨size, rest, h₁⟩ := encode_envelope s g now d e
  obtain ⟨size', rest', h₂⟩ := encode_envelope s g now' d' e'
  have h : Binjson.encode _ = Binjson.encode _ := h
  rw [h₁, h₂] at h
  have hsize := (List.append_inj (List.cons.inj h).2 (by rw [length_le, length_le])).2
  have hindex := (List.cons.inj (List.append_cancel_left (List.append_cancel_left hsize))).2
  have hword : ∀ v, ofDouble v < 256 ^ 8 := by
    intro v
    simp only [ofDouble]
    omega
  have hlow := le_injective (hword _) (hword _)
    (List.append_inj hindex (by rw [length_le, length_le])).1
  rw [ofDouble_toInt64_eq, ofDouble_toInt64_eq] at hlow
  rw [← putInt_u64, hlow, putInt_u64]

/-- A job has used up its one attempt, and its lease runs until 12. -/
def lastAttempt : Except BjErr Store := do
  let (_, st) ← Store.empty.bjmPublish 1 (ascii "jobs") ⟨BJM_ENTRY_PLAIN, [7]⟩
  let st ← st.bjmQueueConfig (ascii "jobs") (ascii "workers") 10 1 0 0
  let t ← st.bjmTake .binjson 2 (ascii "jobs") (ascii "workers") 1 UINT64_MAX
  pure t.store

def lastAttemptStore : Store := lastAttempt.toOption.getD .empty

def lastTake (a : Appending) : Except BjErr Cut :=
  lastAttemptStore.bjmTakeFated .binjson 20 (ascii "jobs") (ascii "workers") 1 UINT64_MAX
    (.written [a])

def lastCut (a : Appending) : Cut := (lastTake a).toOption.getD ⟨[], .empty⟩

theorem lastTake_eq (a : Appending) : lastTake a = .ok (lastCut a) := by
  have hok : ((lastTake a).toOption).isSome = true := by cases a <;> decide +kernel
  rw [lastCut]
  generalize lastTake a = r at hok
  cases r with
  | error e => exact absurd hok (by simp [Except.toOption])
  | ok t => rfl

/-- An append that fails loses the job: it has left the table, and there is no channel. -/
theorem refused_envelope_loses_job :
    lastTake .refused = .ok (lastCut .refused) ∧
    deadSubjectOf (ascii "jobs") = some (ascii "jobs.dead") ∧
    (lastCut .refused).dead = [(1, 1)] ∧
    lastAttemptStore.Listed (ascii "jobs") (ascii "workers") 1 ∧
    ¬ ∀ d ∈ (lastCut .refused).dead,
      (lastCut .refused).store.Listed (ascii "jobs") (ascii "workers") d.1 ∨
        (lastCut .refused).store.Enveloped .binjson (ascii "jobs") (ascii "workers")
          (ascii "jobs.dead") d.1 := by
  have hdead : (lastCut .refused).dead = [(1, 1)] := by decide +kernel
  refine ⟨lastTake_eq _, by decide, hdead, ?_, fun h => ?_⟩
  · have hrow : ((lastAttemptStore.queues[pairKey (ascii "jobs") (ascii "workers")]?).any fun r =>
        (tableOf r).any fun e => e.index = 1) = true := by decide +kernel
    simpa [Listed, Option.any_eq_true] using hrow
  · rcases h (1, 1) (by simp [hdead]) with ⟨r, hr, hi⟩ | henv
    · have hnone : ((lastCut .refused).store.queues[pairKey (ascii "jobs") (ascii "workers")]?).all
          (fun r => (tableOf r).isEmpty) = true := by decide +kernel
      rw [hr] at hnone
      simp only [Option.all_some, List.isEmpty_iff] at hnone
      simp [hnone] at hi
    · obtain ⟨now, attempts, e, he⟩ := enveloped_iff.mp henv
      have hnone : ((lastCut .refused).store.logOf (ascii "jobs.dead")).entries = [] := by
        decide +kernel
      rw [hnone] at he
      exact absurd he List.not_mem_nil

/-- The same take with its append done. -/
theorem landed_envelope_kept_iff :
    (∀ d ∈ (lastCut .done).dead,
      (lastCut .done).store.Listed (ascii "jobs") (ascii "workers") d.1 ∨
        (lastCut .done).store.Enveloped .binjson (ascii "jobs") (ascii "workers")
          (ascii "jobs.dead") d.1) ↔
    ∀ d ∈ (lastCut .done).dead,
      (TakeFate.written [.done]).Keeps .binjson lastAttemptStore (ascii "jobs") (ascii "workers")
        (ascii "jobs.dead") (lastCut .done).dead d.1 ∨
      lastAttemptStore.Relists 20 (ascii "jobs") (ascii "workers") 1 UINT64_MAX d.1 :=
  dead_jobs_kept_iff Vendor.binjson_legible (by decide) (lastTake_eq .done)

end SukkalMsg
