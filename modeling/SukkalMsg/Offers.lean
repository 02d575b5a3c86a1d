import SukkalMsg.StoreSteps

/-!
# What an offer finds

A search offers a subscription one subject after the other. A subscriber is offered
what its log holds above the receipt, a worker the jobs a take hands out. An offer
that finds nothing may have told the engine of the subject's dead-letter channel, and
leaves what every other subject has for the subscription.
-/

namespace SukkalMsg

open Std Names Binjson OrderedScan BoundedTable Store

theorem deadSubjectOf_dead {s dead : Bytes} (h : deadSubjectOf s = some dead) :
    deadSubjectOf dead = none := by
  simp only [deadSubjectOf] at h
  split at h
  · contradiction
  · split at h
    · contradiction
    · obtain rfl := Option.some.inj h
      simp [deadSubjectOf]

theorem getElem?_of_longer {α : Type*} {l l' : List α} (h : l <+: l') {i : ℕ} {x : α}
    (hx : l[i]? = some x) : l'[i]? = some x := by
  obtain ⟨t, rfl⟩ := h
  rwa [List.getElem?_append_left (List.getElem?_eq_some_iff.mp hx).1]

theorem idxOf_of_getElem? {names : List Bytes} (hn : names.Nodup) {i : ℕ} {x : Bytes}
    (hx : names[i]? = some x) : names.idxOf x = i := by
  obtain ⟨hlt, rfl⟩ := List.getElem?_eq_some_iff.mp hx
  exact hn.idxOf_getElem i hlt

section Takes

variable {now lease max last last' fuel : ℕ}

theorem takeFresh_longer (hle : last ≤ last') (s : TakeState) :
    (takeFresh now lease max last fuel s).chosen <+:
      (takeFresh now lease max last' fuel s).chosen := by
  induction fuel generalizing s with
  | zero => exact List.prefix_rfl
  | succ fuel ih =>
    have hgrows : s.chosen <+: (takeFresh now lease max last' (fuel + 1) s).chosen := by
      obtain ⟨k, -, -, -, hchosen, -⟩ := takeFresh_eq now lease max last' (fuel + 1) s
      rw [hchosen]
      exact List.prefix_append _ _
    by_cases hmore : s.chosen.length < max ∧ s.q.next ≤ last
    · have hmore' : s.chosen.length < max ∧ s.q.next ≤ last' := ⟨hmore.1, by omega⟩
      simp only [takeFresh, hmore, hmore', and_self, if_true]
      split
      · exact List.prefix_rfl
      · exact ih _
    · have hstop : (takeFresh now lease max last (fuel + 1) s).chosen = s.chosen := by
        simp only [takeFresh, hmore, if_false]
      rw [hstop]
      exact hgrows

theorem Elog.get_of_grown {log log' : Elog} (hb : log'.base = log.base)
    (hg : log.entries <+: log'.entries) {i : ℕ} {e : Entry} (h : log.get i = some e) :
    log'.get i = some e := by
  simp only [Elog.get, hb] at h ⊢
  split at h
  · contradiction
  · rename_i hi
    rw [if_neg hi]
    exact getElem?_of_longer hg h

theorem takenJobs_of_grown {log log' : Elog} (hb : log'.base = log.base)
    (hg : log.entries <+: log'.entries) {cs cs' : List (ℕ × ℕ)} (hc : cs <+: cs')
    (h : takenJobs now lease log cs ≠ []) : takenJobs now lease log' cs' ≠ [] := by
  obtain ⟨j, hj⟩ := List.exists_mem_of_ne_nil _ h
  obtain ⟨c, hcs, hjob⟩ := List.mem_filterMap.mp hj
  obtain ⟨e, he, -⟩ := Option.map_eq_some_iff.mp hjob
  have hmem : j ∈ takenJobs now lease log' cs' :=
    List.mem_filterMap.mpr ⟨c, hc.subset hcs, by rw [Elog.get_of_grown hb hg he, ← he, hjob]⟩
  exact List.ne_nil_of_mem hmem

/-- A take that hands out jobs does so also when the log has grown meanwhile. -/
theorem Store.take_hands_out {V : Vendor} {st st' : Store} {now : ℕ} {s g : Bytes} {max : ℤ}
    {lease : ℕ} {t t' : Taken} (hq : st'.queues[pairKey s g]? = st.queues[pairKey s g]?)
    (hb : (st'.logOf s).base = (st.logOf s).base)
    (hg : (st.logOf s).entries <+: (st'.logOf s).entries)
    (h : st.bjmTake V now s g max lease = .ok t) (h' : st'.bjmTake V now s g max lease = .ok t')
    (hjobs : t.jobs ≠ []) : t'.jobs ≠ [] := by
  obtain ⟨log, q, existed, plan, hget, hload, rfl, hj, -⟩ := bjmTake_eq h
  obtain ⟨log', q', existed', plan', hget', hload', rfl, hj', -⟩ := bjmTake_eq h'
  obtain ⟨-, -, rfl⟩ := subjectGet_logOf hget
  obtain ⟨-, -, rfl⟩ := subjectGet_logOf hget'
  have hsame : st'.queueLoad s g = st.queueLoad s g := by
    simp only [queueLoad, hget, hget', hb]
    cases hkey : queueKey s g with
    | none => rfl
    | some key =>
      obtain rfl := boundedKey_eq hkey
      simp only [hq]
  rw [hsame, hload] at hload'
  obtain ⟨rfl, rfl⟩ := Prod.mk.inj (Except.ok.inj hload')
  rw [hj] at hjobs
  rw [hj']
  refine takenJobs_of_grown hb hg ?_ hjobs
  refine takeFresh_longer ?_ _
  have := hg.length_le
  simp only [Elog.last, hb]
  omega

end Takes

namespace Scan

variable (V : Vendor) (clock : ℕ)

/-- How many jobs a worker is leased at once. -/
def wanted (a : Scan) : ℕ :=
  min (if a.sub.cfg.maxJobs ≠ 0 then a.sub.cfg.maxJobs else 1) BJM_PUSH_JOBS_MAX

/-- There is something to deliver: a job a take would hand out, or a message above the
receipt that the log still holds. -/
def deliverable (a : Scan) (name : Bytes) : Bool :=
  if a.sub.cfg.group ≠ [] then
    match a.store.bjmTake V clock name a.sub.cfg.group a.wanted UINT64_MAX with
    | .error _ => false
    | .ok t => !t.jobs.isEmpty
  else max (a.store.receiptOf name a.sub.consumer) (a.store.logOf name).base <
    (a.store.logOf name).last

/-- The take, or the reads, that offering a subject makes succeed. -/
def served (a : Scan) (name : Bytes) : Bool :=
  if a.sub.cfg.group ≠ [] then
    match a.store.bjmTake V clock name a.sub.cfg.group a.wanted UINT64_MAX with
    | .error _ => false
    | .ok t => decide (Readable (takeRecord t.jobs))
  else match a.store.bjmSubjectInfo V name, a.store.bjmCursorGet name a.sub.consumer with
    | .ok (base, last, _), .ok _ =>
      (List.range' (base + 1) (last - base)).all fun start =>
        0 < V.batchCount (a.store.logOf name) start a.batchBytes
    | _, _ => false

end Scan

/-- The engine may have learnt of the subject's dead-letter channel, and of nothing else. -/
def Pusher.Tells (name : Bytes) (p p' : Pusher) : Prop :=
  p'.names = p.names ∨
    ∃ dead, deadSubjectOf name = some dead ∧ dead ∉ p.names ∧ p'.names = p.names ++ [dead]

namespace Pusher

theorem namesAdd_of_valid (p : Pusher) {name : Bytes} (h : bjmSubjectValid name = true) :
    p.namesAdd name = if name ∈ p.names then p else { p with names := p.names ++ [name] } := by
  have hcut : cut (BJM_SUBJECT_MAX + 1) name = name :=
    List.take_of_length_le (nameValid_length h)
  simp only [namesAdd, hcut]

theorem mem_namesAdd (p : Pusher) {name : Bytes} (h : bjmSubjectValid name = true) :
    name ∈ (p.namesAdd name).names := by
  rw [p.namesAdd_of_valid h]
  split
  · assumption
  · simp

theorem tells_notifyDead (p : Pusher) (st : Store) (name : Bytes) (ds : List (ℕ × ℕ)) :
    p.Tells name (p.notifyDead st name ds) := by
  simp only [notifyDead]
  split
  · exact .inl rfl
  · rename_i dead hd
    split
    · simp only [notify, p.namesAdd_of_valid (deadSubjectOf_valid hd)]
      split
      · exact .inl rfl
      · exact .inr ⟨dead, hd, ‹_›, rfl⟩
    · exact .inl rfl

namespace Tells

variable {p p' : Pusher} {name : Bytes}

theorem longer (h : p.Tells name p') : p.names <+: p'.names := by
  rcases h with h | ⟨dead, -, -, h⟩
  · exact h ▸ List.prefix_rfl
  · exact h ▸ List.prefix_append _ _

theorem nodup (h : p.Tells name p') (hn : p.names.Nodup) : p'.names.Nodup := by
  rcases h with h | ⟨dead, -, hnew, h⟩ <;> rw [h]
  · exact hn
  · rw [List.nodup_append]
    refine ⟨hn, List.nodup_singleton _, fun x hx y hy => ?_⟩
    obtain rfl := List.mem_singleton.mp hy
    rintro rfl
    exact hnew hx

theorem length_le (h : p.Tells name p') : p'.names.length ≤ p.names.length + 1 := by
  rcases h with h | ⟨dead, -, -, h⟩ <;> rw [h]
  · exact Nat.le_succ _
  · simp

end Tells

end Pusher

/-- A subject a take has published to is known to the engine afterwards. -/
theorem Store.take_told {V : Vendor} {again : Store → Bytes} {st : Store} {now : ℕ} {s g : Bytes}
    {max : ℤ} {lease : ℕ} {t : Taken} (h : st.bjmTakeVia V again now s g max lease = .ok t)
    (p : Pusher) (x : Bytes) (hx : (t.store.logOf x).last ≠ (st.logOf x).last) :
    x ∈ (p.notifyDead st s t.dead).names := by
  obtain ⟨log, q, existed, plan, hget, -, -, -, hdead, hst⟩ := bjmTakeVia_eq h
  obtain ⟨-, -, rfl⟩ := subjectGet_logOf hget
  set st₁ : Store := { st with queues := st.queues.insert (pairKey s g) (queueRecord plan.q) }
  have hget₁ : st₁.subjectGet s false = .ok (st.logOf s) := hget
  rw [hst] at hx
  rw [hdead]
  rcases deadLettersVia_eq V now again s g plan.deadNow.rows st₁ with
    ⟨-, heq⟩ | ⟨dead, hd, hto, es, hlog, hsome, -⟩
  · rw [heq] at hx
    exact absurd rfl hx
  · by_cases hxd : x = dead
    · subst hxd
      have hes : es ≠ [] := by
        rintro rfl
        rw [hlog, List.append_nil] at hx
        exact hx rfl
      have hany : (plan.deadNow.rows.any fun d => ((st.logOf s).get d.1).isSome) = true := by
        rw [← any_lettered hget₁, ← Bool.not_eq_false]
        exact fun hnone => hes (hsome.mpr hnone)
      simp only [Pusher.notifyDead, hd, hany, if_true]
      exact p.mem_namesAdd (deadSubjectOf_valid hd)
    · rw [hto.logOf_eq hxd] at hx
      exact absurd rfl hx

namespace Scan

variable {V : Vendor} {clock i : ℕ} {a a' : Scan} {name x : Bytes}

theorem deliverable_worker (hg : a.sub.cfg.group ≠ []) :
    a.deliverable V clock name = true ↔ ∃ t, t.jobs ≠ [] ∧
      a.store.bjmTake V clock name a.sub.cfg.group a.wanted UINT64_MAX = .ok t := by
  simp only [deliverable, hg, ne_eq, not_false_eq_true, if_true]
  split
  · rename_i he
    simp [he]
  · rename_i t ht
    simp [ht]

theorem deliverable_plain (hg : a.sub.cfg.group = []) : a.deliverable V clock name = true ↔
    max (a.store.receiptOf name a.sub.consumer) (a.store.logOf name).base <
      (a.store.logOf name).last := by
  simp [deliverable, hg]

theorem pos_of_deliverable (h : a.deliverable V clock name = true) :
    0 < (a.store.logOf name).last := by
  by_cases hg : a.sub.cfg.group = []
  · have := (deliverable_plain hg).mp h
    omega
  · obtain ⟨t, hjobs, ht⟩ := (deliverable_worker hg).mp h
    obtain ⟨log, q, existed, plan, hget, -, -, hj, -, -⟩ := bjmTake_eq ht
    obtain ⟨-, -, rfl⟩ := subjectGet_logOf hget
    rw [hj] at hjobs
    obtain ⟨j, hjm⟩ := List.exists_mem_of_ne_nil _ hjobs
    obtain ⟨c, -, hjob⟩ := List.mem_filterMap.mp hjm
    obtain ⟨e, he, -⟩ := Option.map_eq_some_iff.mp hjob
    have hin := Elog.get_isSome_iff.mp (Option.isSome_of_eq_some he)
    omega

theorem noteWake_fields (a : Scan) (name : Bytes) : (a.noteWake name).push = a.push ∧
    (a.noteWake name).store = a.store ∧ (a.noteWake name).sub.rr = a.sub.rr := by
  simp only [noteWake]
  split
  · split <;> exact ⟨rfl, rfl, rfl⟩
  · exact ⟨rfl, rfl, rfl⟩

/-- What a worker's offer does, told apart by its answer. -/
theorem offerJobs_served (hg : a.sub.cfg.group ≠ []) (hs : a.served V clock name = true) :
    ∃ t, a.store.bjmTakeVia V (a.again V name) clock name a.sub.cfg.group a.wanted UINT64_MAX =
        .ok t ∧
      ((t.jobs = [] ∧ ∃ wake, (V.KeepsNames → wake = name) ∧ a.offer V clock i name =
          (({ a with store := t.store, push := a.push.notifyDead a.store name t.dead } :
            Scan).noteWake wake, none)) ∨
        (t.jobs ≠ [] ∧ ∃ b, a.offer V clock i name = (b, some t.jobs.length) ∧
          b.push = a.push.notifyDead a.store name t.dead ∧
          (V.KeepsNames → b.sub.subject = name) ∧
          b.sub.rr = (i + 1) % b.push.names.length)) := by
  simp only [served, hg, ne_eq, not_false_eq_true, if_true] at hs
  split at hs
  · contradiction
  · rename_i t₀ ht₀
    have hread₀ : Readable (takeRecord t₀.jobs) := of_decide_eq_true hs
    obtain ⟨t, ht, hjobs, -⟩ := bjmTakeVia_any ht₀ (a.again V name)
    have hread : Readable (takeRecord t.jobs) := hjobs ▸ hread₀
    refine ⟨t, ht, ?_⟩
    have ht' : a.store.bjmTakeVia V (a.again V name) clock name a.sub.cfg.group
        ((min (if a.sub.cfg.maxJobs ≠ 0 then a.sub.cfg.maxJobs else 1) BJM_PUSH_JOBS_MAX : ℕ) : ℤ)
        UINT64_MAX = .ok t := ht
    simp only [offer, hg, ne_eq, not_false_eq_true, if_true, offerJobs, takeBatch, ht']
    by_cases hj : t.jobs = []
    · simp only [hj, if_true]
      exact .inl ⟨trivial, _, fun hV => reread_of_keepsNames hV name, rfl⟩
    · have hgrab : grabJobs (takeRecord t.jobs) ≠ [] := by
        rw [grabJobs_takeRecord hread]
        obtain ⟨j, js, hjs⟩ := List.exists_cons_of_ne_nil hj
        simp [hjs, BJM_PUSH_JOBS_MAX]
      refine .inr ⟨hj, ?_⟩
      simp only [hj, if_false, hread, hgrab, not_false_eq_true, and_self, if_true]
      exact ⟨_, rfl, rfl, fun hV => subject_of_keepsNames hV _ name _, rfl⟩

theorem skipTrimmed_fields (a : Scan) (name : Bytes) (acked base : ℕ) :
    (a.skipTrimmed name acked base).push = a.push ∧ (a.skipTrimmed name acked base).sub = a.sub ∧
      (a.skipTrimmed name acked base).store =
        { a.store with cursors := (a.skipTrimmed name acked base).store.cursors } := by
  simp only [skipTrimmed]
  split
  · split
    · exact ⟨rfl, rfl, rfl⟩
    · exact ⟨rfl, rfl, bjmCursorSet_same ‹_›⟩
  · exact ⟨rfl, rfl, rfl⟩

theorem readBatch_serves {b : Scan} (i acked : ℕ)
    (hlog : b.store.subjectGet name false = .ok (b.store.logOf name))
    (hlow : (b.store.logOf name).base ≤ acked)
    (hlast : acked < (b.store.logOf name).last)
    (hcount : 0 < V.batchCount (b.store.logOf name) (acked + 1) b.batchBytes) :
    ∃ b' count, b.readBatch V i name acked = (b', some count) ∧ b'.push = b.push ∧
      b'.sub.subject = name ∧ b'.sub.rr = (i + 1) % b.push.names.length := by
  have hread : b.store.bjmRead V name (acked + 1) b.batchBytes =
      .ok (min (V.batchCount (b.store.logOf name) (acked + 1) b.batchBytes)
        ((b.store.logOf name).last - acked), (b.store.logOf name).last) := by
    have hstart : ¬ acked + 1 ≤ (b.store.logOf name).base := by omega
    have hroom : (b.store.logOf name).last + 1 - (acked + 1) =
        (b.store.logOf name).last - acked := by
      omega
    simp only [bjmRead, hlog, Nat.succ_ne_zero, if_false, hstart, hroom]
  have hsome : min (V.batchCount (b.store.logOf name) (acked + 1) b.batchBytes)
      ((b.store.logOf name).last - acked) ≠ 0 := by omega
  simp only [readBatch, hread, hsome, if_false]
  exact ⟨_, _, rfl, rfl, rfl, rfl⟩

/-- What a subscriber's offer does, told apart by what is above its receipt. -/
theorem offerBatch_served (hg : a.sub.cfg.group = []) (hs : a.served V clock name = true)
    (ha : a.Sound) (hn : slash ∉ name) :
    (a.deliverable V clock name = false ∧ ∃ b, a.offer V clock i name = (b, none) ∧
        b.push = a.push ∧ b.sub = a.sub) ∨
      (a.deliverable V clock name = true ∧ ∃ b count, a.offer V clock i name = (b, some count) ∧
        b.push = a.push ∧ b.sub.subject = name ∧ b.sub.rr = (i + 1) % b.push.names.length) := by
  simp only [served, hg, ne_eq, not_true_eq_false, if_false] at hs
  cases hinfo : a.store.bjmSubjectInfo V name with
  | error e => simp [hinfo] at hs
  | ok info => cases hget : a.store.bjmCursorGet name a.sub.consumer with
    | error e => simp [hinfo, hget] at hs
    | ok found =>
      obtain ⟨base, last, bytes⟩ := info
      obtain ⟨hlog, rfl, rfl⟩ := subjectInfo_eq hinfo
      simp only [hinfo, hget, List.all_eq_true, List.mem_range'_1, decide_eq_true_eq] at hs
      have hreceipt : a.store.receiptOf name a.sub.consumer = found.getD 0 := by
        cases found with
        | none => exact receiptOf_of_get_none hget
        | some n => exact receiptOf_of_get hget
      obtain ⟨hsub, hlogs, -⟩ := skipTrimmed_max ha hn hget
      have hoffer : a.offer V clock i name =
          if (a.store.logOf name).last ≤ found.getD 0 then (a, none)
          else if found.getD 0 < (a.store.logOf name).base ∧
              (a.store.logOf name).last ≤ (a.store.logOf name).base then
            (a.skipTrimmed name (found.getD 0) (a.store.logOf name).base, none)
          else (a.skipTrimmed name (found.getD 0) (a.store.logOf name).base).readBatch V i name
            (max (found.getD 0) (a.store.logOf name).base) := by
        simp only [offer, hg, ne_eq, not_true_eq_false, if_false, offerBatch, hinfo, hget]
      rw [hoffer]
      by_cases hd : max (found.getD 0) (a.store.logOf name).base < (a.store.logOf name).last
      · refine .inr ⟨by rw [deliverable_plain hg, hreceipt]; exact hd, ?_⟩
        rw [if_neg (by omega), if_neg (by omega)]
        set b := a.skipTrimmed name (found.getD 0) (a.store.logOf name).base with hb
        have hblog : b.store.logOf name = a.store.logOf name := by simp only [logOf, hlogs]
        have hbget : b.store.subjectGet name false = .ok (b.store.logOf name) := by
          rw [hblog, ← hlog]
          simp only [subjectGet, hlogs]
        have hbpush : b.push = a.push := (a.skipTrimmed_fields _ _ _).1
        have hbytes : b.batchBytes = a.batchBytes := by simp only [batchBytes, hsub, hbpush]
        obtain ⟨b', count, hread, hpush, hsubj, hrr⟩ := readBatch_serves i
          (max (found.getD 0) (a.store.logOf name).base) hbget
          (by rw [hblog]; exact Nat.le_max_right _ _) (by rw [hblog]; exact hd)
          (by rw [hblog, hbytes]; exact hs _ ⟨by omega, by omega⟩)
        exact ⟨b', count, hread, hpush.trans hbpush, hsubj, by rw [hrr, hpush]⟩
      · refine .inl ⟨by rw [← Bool.not_eq_true, deliverable_plain hg, hreceipt]; exact hd, ?_⟩
        by_cases hcaught : (a.store.logOf name).last ≤ found.getD 0
        · rw [if_pos hcaught]
          exact ⟨a, rfl, rfl, rfl⟩
        · rw [if_neg hcaught, if_pos (by omega)]
          exact ⟨_, rfl, (a.skipTrimmed_fields _ _ _).1, hsub⟩

/-- An offer that is served and finds nothing: nothing was deliverable there, and the
engine has at most learnt of the dead-letter channel. -/
structure Passes (V : Vendor) (clock : ℕ) (name : Bytes) (a a' : Scan) : Prop where
  nothing : a.deliverable V clock name = false
  tells : a.push.Tells name a'.push
  rr : a'.sub.rr = a.sub.rr

theorem offer_served (hs : a.served V clock name = true) (ha : a.Sound) (hn : slash ∉ name) :
    (∃ b, a.offer V clock i name = (b, none) ∧ Passes V clock name a b) ∨
      (a.deliverable V clock name = true ∧ ∃ b count, a.offer V clock i name = (b, some count) ∧
        a.push.Tells name b.push ∧ (V.KeepsNames → b.sub.subject = name) ∧
        b.sub.rr = (i + 1) % b.push.names.length) := by
  by_cases hg : a.sub.cfg.group = []
  · rcases offerBatch_served (i := i) hg hs ha hn with
      ⟨hnone, b, hoffer, hpush, hsub⟩ | ⟨hd, b, count, hoffer, hpush, hsub, hrr⟩
    · exact .inl ⟨b, hoffer, hnone, .inl (by rw [hpush]), by rw [hsub]⟩
    · exact .inr ⟨hd, b, count, hoffer, .inl (by rw [hpush]), fun _ => hsub, hrr⟩
  · obtain ⟨t, ht, ⟨hj, wake, -, hoffer⟩ | ⟨hj, b, hoffer, hpush, hsub, hrr⟩⟩ :=
      offerJobs_served (i := i) hg hs
    · refine .inl ⟨_, hoffer, ?_, ?_, ?_⟩
      · rw [← Bool.not_eq_true, deliverable_worker hg]
        rintro ⟨t', hj', ht'⟩
        obtain ⟨t'', ht'', hjobs, -⟩ := bjmTakeVia_any ht' (a.again V name)
        obtain rfl := Except.ok.inj (ht.symm.trans ht'')
        exact hj' (hjobs ▸ hj)
      · rw [(noteWake_fields _ _).1]
        exact a.push.tells_notifyDead _ _ _
      · rw [(noteWake_fields _ _).2.2]
    · obtain ⟨t₀, ht₀, hjobs, -⟩ := bjmTakeVia_any ht fun _ => name
      refine .inr ⟨(deliverable_worker hg).mpr ⟨t₀, hjobs ▸ hj, ht₀⟩, b, _, hoffer, ?_, hsub, hrr⟩
      rw [hpush]
      exact a.push.tells_notifyDead _ _ _

/-- The cursor moves behind the slot exactly when something is found there. -/
def Steers (i : ℕ) (a : Scan) (r : Scan × Option ℕ) : Prop :=
  (r.2 = none → r.1.sub.rr = a.sub.rr) ∧
    (r.2 ≠ none → r.1.sub.rr = (i + 1) % r.1.push.names.length)

theorem steers_none {b : Scan} (h : b.sub.rr = a.sub.rr) : Steers i a (b, none) :=
  ⟨fun _ => h, fun hne => absurd rfl hne⟩

theorem steers_some {b : Scan} {count : ℕ} (h : b.sub.rr = (i + 1) % b.push.names.length) :
    Steers i a (b, some count) :=
  ⟨by simp, fun _ => h⟩

variable (V) in
/-- A subscriber's offer moves a receipt at most. -/
theorem offerBatch_fields (a : Scan) (i : ℕ) (name : Bytes) :
    (a.offerBatch V i name).1.push = a.push ∧
      (a.offerBatch V i name).1.store =
        { a.store with cursors := (a.offerBatch V i name).1.store.cursors } ∧
      Steers i a (a.offerBatch V i name) := by
  have hread : ∀ (b : Scan) acked, (b.readBatch V i name acked).1.store = b.store ∧
      (b.readBatch V i name acked).1.push = b.push ∧ Steers i b (b.readBatch V i name acked) := by
    intro b acked
    simp only [readBatch]
    split
    · exact ⟨rfl, rfl, steers_none rfl⟩
    · split
      · exact ⟨rfl, rfl, steers_none rfl⟩
      · exact ⟨rfl, rfl, steers_some rfl⟩
  simp only [offerBatch]
  split
  · exact ⟨rfl, rfl, steers_none rfl⟩
  rename_i base last bytes hinfo
  split
  · exact ⟨rfl, rfl, steers_none rfl⟩
  rename_i found hget
  obtain ⟨hpush, hsub, hstore⟩ := a.skipTrimmed_fields name (found.getD 0) base
  split
  · exact ⟨rfl, rfl, steers_none rfl⟩
  split
  · exact ⟨hpush, hstore, steers_none (by rw [hsub])⟩
  · obtain ⟨hs, hp, hr⟩ := hread (a.skipTrimmed name (found.getD 0) base) (max (found.getD 0) base)
    refine ⟨hp.trans hpush, ?_, ?_⟩
    · rw [hs]
      exact hstore
    · simpa only [Steers, hsub] using hr

variable (V clock) in
theorem offer_steers (a : Scan) (i : ℕ) (name : Bytes) : Steers i a (a.offer V clock i name) := by
  simp only [offer]
  split
  · have htake : (a.takeBatch V clock name).1.sub.rr = a.sub.rr := by
      simp only [takeBatch]
      split
      · rfl
      · split
        · rfl
        · split <;> rfl
    simp only [offerJobs]
    split
    · rename_i b hb
      rw [hb] at htake
      exact steers_none ((noteWake_fields b _).2.2.trans htake)
    · exact steers_some rfl
  · exact (offerBatch_fields V a i name).2.2

variable (V clock) in
/-- A worker's offer writes no record but the group's own. -/
theorem offerJobs_queues (a : Scan) (i : ℕ) (name : Bytes) :
    (a.offerJobs V clock i name).1.store.queues = a.store.queues ∨
      ∃ r, (a.offerJobs V clock i name).1.store.queues =
        a.store.queues.insert (pairKey name a.sub.cfg.group) r := by
  have htake : (a.takeBatch V clock name).1.store.queues = a.store.queues ∨
      ∃ r, (a.takeBatch V clock name).1.store.queues =
        a.store.queues.insert (pairKey name a.sub.cfg.group) r := by
    simp only [takeBatch]
    split
    · exact .inl rfl
    · rename_i t ht
      obtain ⟨log, q, existed, plan, hget, -, -, -, -, hst⟩ := bjmTakeVia_eq ht
      refine .inr ⟨queueRecord plan.q, ?_⟩
      have hqueues : t.store.queues =
          a.store.queues.insert (pairKey name a.sub.cfg.group) (queueRecord plan.q) := by
        set st₁ : Store := { a.store with
          queues := a.store.queues.insert (pairKey name a.sub.cfg.group) (queueRecord plan.q) }
        rw [hst]
        rcases deadLettersVia_eq V clock (a.again V name) name a.sub.cfg.group plan.deadNow.rows st₁
          with ⟨-, heq⟩ | ⟨dead, -, hto, -⟩
        · rw [heq]
        · rw [hto.queues_eq]
      split
      · exact hqueues
      · split <;> exact hqueues
  simp only [offerJobs]
  split
  · rename_i b hb
    rw [hb] at htake
    rwa [(noteWake_fields b _).2.1]
  · rename_i b count hb
    rw [hb] at htake
    exact htake

/-- What a search has done so far leaves what the subject `x` has for the subscription. -/
structure Keeps (x : Bytes) (a a' : Scan) : Prop where
  cfg_eq : a'.sub.cfg = a.sub.cfg
  consumer_eq : a'.sub.consumer = a.sub.consumer
  record : a'.store.queues[pairKey x a.sub.cfg.group]? = a.store.queues[pairKey x a.sub.cfg.group]?
  base : (a'.store.logOf x).base = (a.store.logOf x).base
  grown : (a.store.logOf x).entries <+: (a'.store.logOf x).entries
  reached : max (a'.store.receiptOf x a.sub.consumer) (a'.store.logOf x).base =
    max (a.store.receiptOf x a.sub.consumer) (a.store.logOf x).base

namespace Keeps

variable {b c : Scan}

theorem refl : Keeps x a a := ⟨rfl, rfl, rfl, rfl, List.prefix_rfl, rfl⟩

theorem trans (h : Keeps x a b) (h' : Keeps x b c) : Keeps x a c where
  cfg_eq := h'.cfg_eq.trans h.cfg_eq
  consumer_eq := h'.consumer_eq.trans h.consumer_eq
  record := by
    rw [← h.record, ← h.cfg_eq]
    exact h'.record
  base := h'.base.trans h.base
  grown := h.grown.trans h'.grown
  reached := by
    rw [← h.reached, ← h.consumer_eq]
    exact h'.reached

theorem isMatch_eq (h : Keeps x a b) (name : Bytes) : b.sub.isMatch name = a.sub.isMatch name := by
  simp only [Psub.isMatch, h.cfg_eq]

theorem deliverable (h : Keeps x a b) (hd : a.deliverable V clock x = true)
    (hs : b.served V clock x = true) : b.deliverable V clock x = true := by
  by_cases hg : a.sub.cfg.group = []
  · have hg' : b.sub.cfg.group = [] := by rw [h.cfg_eq, hg]
    rw [deliverable_plain hg] at hd
    rw [deliverable_plain hg', h.consumer_eq, h.reached]
    have hbase := h.base
    have hlen := h.grown.length_le
    simp only [Elog.last] at hd ⊢
    omega
  · have hg' : b.sub.cfg.group ≠ [] := by rwa [h.cfg_eq]
    obtain ⟨t, hjobs, ht⟩ := (deliverable_worker hg).mp hd
    obtain ⟨t'', ht'', -⟩ := offerJobs_served (i := 0) hg' hs
    obtain ⟨t', ht', -⟩ := bjmTakeVia_any ht'' fun _ => x
    refine (deliverable_worker hg').mpr ⟨t', ?_, ht'⟩
    have hwanted : b.wanted = a.wanted := by simp only [wanted, h.cfg_eq]
    rw [hwanted, h.cfg_eq] at ht'
    exact take_hands_out h.record h.base h.grown ht ht' hjobs

end Keeps

theorem keeps_offer (ha : a.Sound) (hn : slash ∉ name) (hx : slash ∉ x) (hne : x ≠ name)
    (h : a.offer V clock i name = (a', none)) : Keeps x a a' := by
  have hsearched := searched_offer V clock ha i hn
  rw [h] at hsearched
  obtain ⟨hstore, -, hsub⟩ := hsearched
  dsimp only at hstore hsub
  refine ⟨hsub.cfg_eq, hsub.consumer_eq, ?_, hstore.base x, hstore.grown x, ?_⟩
  · by_cases hg : a.sub.cfg.group = []
    · obtain ⟨-, hstore', -⟩ := offerBatch_fields V a i name
      simp only [offer, hg, ne_eq, not_true_eq_false, if_false] at h
      rw [h] at hstore'
      rw [hstore']
    · have hqueues := offerJobs_queues V clock a i name
      simp only [offer, hg, ne_eq, not_false_eq_true, if_true] at h
      rw [h] at hqueues
      rcases hqueues with heq | ⟨r, heq⟩
      · rw [heq]
      · -- another group's record is where the take has left its own
        rw [heq, getElem?_insert, if_neg]
        exact fun hkey => hne (pairKey_injective hn hx hkey).1.symm
  · have hbase := hstore.base x
    rcases hstore.receipt x a.sub.consumer hx with hr | ⟨hlow, hr⟩ <;> rw [hr, hbase]
    omega

end Scan

end SukkalMsg
