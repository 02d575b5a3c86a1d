import SukkalMsg.StoreCalls

/-!
# Calls made twice

Most of what a request asks of the store has no further effect when it is asked again:
a receipt that has moved is where it was to go, a trimmed log has nothing left to drop,
what was deleted is not there. What moves on with every call is a publish, a take, and
the due time a failed job is given.
-/

namespace SukkalMsg

open Std Names Binjson OrderedScan

theorem Qrec.wrapped_wrapped (q : Qrec) : q.wrapped.wrapped = q.wrapped := by
  have hslot : Slot.wrapped ∘ Slot.wrapped = Slot.wrapped := by
    funext e
    simp only [Function.comp_apply, Slot.wrapped, u64_u64]
  have hword : u64 ∘ u64 = u64 := by
    funext n
    exact u64_u64 n
  simp only [Qrec.wrapped, u64_u64, List.map_map, hslot, hword]

/-- What has been loaded is wrapped already. -/
theorem Qrec.Words.wrapped_eq {q : Qrec} (h : q.Words) : q.wrapped = q := by
  have hw : ∀ n ∈ q.ints, u64 n = n := fun n hn => u64_of_lt (h n hn)
  have hfl : q.wrapped.fl = q.fl := by
    apply BoundedTable.ext
    refine (List.map_congr_left fun e he => ?_).trans (List.map_id _)
    have hrow : ∀ n, n = e.index ∨ n = e.expires ∨ n = e.attempts → u64 n = n := by
      intro n hn
      apply hw
      simp only [Qrec.ints, List.mem_append]
      exact .inl (.inr (mem_flat.mpr ⟨e, he, hn⟩))
    simp only [Slot.wrapped, hrow e.index (.inl rfl), hrow e.expires (.inr (.inl rfl)),
      hrow e.attempts (.inr (.inr rfl)), id_eq]
  have hdead : q.wrapped.dead = q.dead := by
    apply BoundedTable.ext
    refine (List.map_congr_left fun n hn => ?_).trans (List.map_id _)
    exact hw n (by simp [Qrec.ints, hn])
  cases q
  simp only [Qrec.ints, List.mem_append, List.mem_cons] at hw
  simp only [Qrec.wrapped, Qrec.mk.injEq] at hfl hdead ⊢
  exact ⟨hw _ (by tauto), hw _ (by tauto), hw _ (by tauto), hw _ (by tauto), hw _ (by tauto), hfl,
    hw _ (by tauto), hdead⟩

namespace Store

/-- The same logs, receipts, policies, registrations and tables of the groups. -/
structure SameFiles (st st' : Store) : Prop where
  logs : st'.logs = st.logs
  cursors : st'.cursors = st.cursors
  queues : st'.queues = st.queues
  push : st'.push = st.push
  policies : ∀ s, st'.bjmPolicyGet s = st.bjmPolicyGet s

namespace SameFiles

variable {st st' st'' : Store}

theorem refl : SameFiles st st := ⟨rfl, rfl, rfl, rfl, fun _ => rfl⟩

theorem trans (h : SameFiles st st') (h' : SameFiles st' st'') : SameFiles st st'' :=
  ⟨h'.logs.trans h.logs, h'.cursors.trans h.cursors, h'.queues.trans h.queues,
    h'.push.trans h.push, fun s => (h'.policies s).trans (h.policies s)⟩

theorem symm (h : SameFiles st st') : SameFiles st' st :=
  ⟨h.logs.symm, h.cursors.symm, h.queues.symm, h.push.symm, fun s => (h.policies s).symm⟩

theorem of_policy (hl : st'.logs = st.logs) (hc : st'.cursors = st.cursors)
    (hq : st'.queues = st.queues) (hp : st'.push = st.push)
    (hpol : ∀ s k, policyKey (ascii "p") s = some k → st'.policy[k]? = st.policy[k]?) :
    SameFiles st st' := by
  refine ⟨hl, hc, hq, hp, fun s => ?_⟩
  simp only [bjmPolicyGet]
  cases hkey : policyKey (ascii "p") s with
  | none => rfl
  | some k => simp only [hpol s k hkey]

end SameFiles

theorem policyKey_ne_marks {s t k : Bytes} (h : policyKey (ascii "p") s = some k) :
    policyKey (ascii "m") t ≠ some k := by
  intro h'
  have hhead := (List.cons.inj ((boundedKey_eq h).symm.trans (boundedKey_eq h'))).1
  exact absurd hhead (by decide)

theorem policyKey_ne_state {s k : Bytes} (h : policyKey (ascii "p") s = some k) :
    k ≠ ddStateKey := by
  rintro rfl
  have hhead := (List.cons.inj (boundedKey_eq h)).1
  exact absurd hhead (by decide)

variable {st st' st'' : Store}

theorem MarksOnly.sameFiles {name : Bytes} (h : MarksOnly name st st') : SameFiles st st' :=
  .of_policy h.logs_eq h.cursors_eq h.queues_eq h.push_eq
    fun _ _ hk => h.others _ (policyKey_ne_marks hk)

theorem DedupOnly.sameFiles (h : DedupOnly st st') : SameFiles st st' :=
  .of_policy h.logs_eq h.cursors_eq h.queues_eq h.push_eq
    fun _ _ hk => h.others _ (policyKey_ne_state hk)

/-- A receipt that has been set is set already. -/
theorem bjmCursorSet_again {s c : Bytes} {n : ℕ} (h : st.bjmCursorSet s c n = .ok st')
    (h' : st'.bjmCursorSet s c n = .ok st'') : st'' = st' := by
  rcases bjmCursorSet_eq h' with ⟨rfl, -⟩ | ⟨hst'', -⟩
  · rfl
  · rcases bjmCursorSet_eq h with ⟨rfl, -⟩ | ⟨hst', -⟩
    · rw [h] at h'
      exact (Except.ok.inj h').symm
    · rw [hst'', insert_eq_self (by rw [hst']; exact ExtTreeMap.getElem?_insert_self)]

theorem bjmCursorGet_set {s c : Bytes} {n : ℕ} (h : st.bjmCursorSet s c n = .ok st') :
    st'.bjmCursorGet s c ≠ .ok none := by
  intro hget
  simp only [bjmCursorSet] at h
  cases hcur : st.bjmCursorGet s c with
  | error e => simp [hcur] at h
  | ok current =>
    simp only [hcur] at h
    split at h
    · rename_i hle
      obtain rfl := Except.ok.inj h
      rw [hget] at hcur
      obtain rfl := Except.ok.inj hcur
      simp at hle
    · cases hkey : cursorKey s c with
      | none => simp [hkey] at h
      | some key =>
        simp only [hkey, Except.ok.injEq] at h
        subst h
        simp only [bjmCursorGet, hkey, ExtTreeMap.getElem?_insert_self] at hget
        cases hd : decodeIndex (indexRecord n) <;> simp [hd, Except.map] at hget

private theorem contains_erase_self (t : Tree) (key : Bytes) :
    (t.erase key).contains key = false := by simp

theorem bjmCursorDelete_again {s c : Bytes} {b b' : Bool}
    (h : st.bjmCursorDelete s c = .ok (b, st')) (h' : st'.bjmCursorDelete s c = .ok (b', st'')) :
    st'' = st' := by
  simp only [bjmCursorDelete] at h h'
  cases hk : cursorKey s c with
  | none => simp [hk] at h
  | some key =>
    simp only [hk] at h h'
    have hno : st'.cursors.contains key = false := by
      split at h
      · obtain ⟨-, rfl⟩ := Prod.mk.inj (Except.ok.inj h)
        exact contains_erase_self ..
      · rename_i hno
        obtain ⟨-, rfl⟩ := Prod.mk.inj (Except.ok.inj h)
        exact Bool.not_eq_true _ ▸ hno
    simp only [hno, Bool.false_eq_true, if_false] at h'
    exact (Prod.mk.inj (Except.ok.inj h')).2.symm

theorem bjmQueueDelete_again {s g : Bytes} {b b' : Bool}
    (h : st.bjmQueueDelete s g = .ok (b, st')) (h' : st'.bjmQueueDelete s g = .ok (b', st'')) :
    st'' = st' := by
  simp only [bjmQueueDelete] at h h'
  cases hk : queueKey s g with
  | none => simp [hk] at h
  | some key =>
    simp only [hk] at h h'
    have hno : st'.queues.contains key = false := by
      split at h
      · obtain ⟨-, rfl⟩ := Prod.mk.inj (Except.ok.inj h)
        exact contains_erase_self ..
      · rename_i hno
        obtain ⟨-, rfl⟩ := Prod.mk.inj (Except.ok.inj h)
        exact Bool.not_eq_true _ ▸ hno
    simp only [hno, Bool.false_eq_true, if_false] at h'
    exact (Prod.mk.inj (Except.ok.inj h')).2.symm

/-- Nobody holds a receipt twice forgotten. -/
theorem bjmCursorDeleteConsumer_again (c : Bytes) :
    ((st.bjmCursorDeleteConsumer c).2.bjmCursorDeleteConsumer c).2 =
      (st.bjmCursorDeleteConsumer c).2 := by
  have hfilter : (st.cursors.filter fun k _ => !heldBy c k).filter (fun k _ => !heldBy c k) =
      st.cursors.filter fun k _ => !heldBy c k := by
    apply ExtTreeMap.ext_getElem?
    intro k
    simp only [ExtTreeMap.getElem?_filter']
    cases st.cursors[k]? with
    | none => rfl
    | some r => cases heldBy c k <;> rfl
  simp only [bjmCursorDeleteConsumer, hfilter]

theorem bjmLastIndex_trim {s : Bytes} {before base removed : ℕ} {force : Bool}
    (h : st.bjmTrim s before force = .ok (base, removed, st')) :
    st'.bjmLastIndex s = st.bjmLastIndex s := by
  obtain ⟨log, hget⟩ : ∃ log, st.subjectGet s false = .ok log := by
    simp only [bjmTrim] at h
    split at h
    · contradiction
    split at h
    · contradiction
    · exact ⟨_, by assumption⟩
  obtain ⟨hfits, hlog, rfl⟩ := subjectGet_logOf hget
  have hget' : st'.subjectGet s false = .ok (st'.logOf s) := by
    refine subjectGet_of_log st' hfits ?_ false
    rcases bjmTrim_store h with rfl | hm
    · exact hlog
    · simp [logOf, hm.logs_eq]
  simp only [bjmLastIndex, hget, hget', (bjmTrim_log h).2.1]

/-- A trim has dropped all that the same trim would drop. -/
theorem bjmTrim_again {s : Bytes} {before base removed base' removed' : ℕ} {force : Bool}
    (h : st.bjmTrim s before force = .ok (base, removed, st'))
    (h' : st'.bjmTrim s before force = .ok (base', removed', st'')) : st'' = st' := by
  obtain ⟨hc, hq, -⟩ := bjmTrim_trees h
  obtain ⟨hbase, hlast, -⟩ := bjmTrim_log h
  have htarget : st'.trimTarget s (st'.logOf s).last before force =
      st.trimTarget s (st.logOf s).last before force := by
    have hacks : st'.acks s = st.acks s := by simp only [acks, hc]
    have hfloors : st'.queueFloors s = st.queueFloors s := by simp only [queueFloors, hq]
    have hprotect : st'.trimProtect s = st.trimProtect s := by
      have hstats : st'.bjmConsumerStats s = st.bjmConsumerStats s := by
        simp only [bjmConsumerStats, hacks]
      have hfloor : st'.bjmQueueFloor s = st.bjmQueueFloor s := by
        simp only [bjmQueueFloor, hfloors]
      rw [trimProtect, hstats, hfloor]
      rfl
    simp only [trimTarget, hprotect, hlast]
  have hle : st'.trimTarget s (st'.logOf s).last before force ≤ (st'.logOf s).base := by
    have := (bjmTrim_eq h).1
    omega
  simp only [bjmTrim] at h'
  split at h'
  · contradiction
  split at h'
  · contradiction
  rename_i log hget
  obtain ⟨-, -, rfl⟩ := subjectGet_logOf hget
  rw [if_pos hle] at h'
  exact (Prod.mk.inj (Prod.mk.inj (Except.ok.inj h')).2).2.symm

/-- What a group loads as when its record has been stored. -/
theorem queueLoad_stored {s g : Bytes} {q : Qrec} (hk : (queueKey s g).isSome = true)
    (hrow : st.queues[pairKey s g]? = some (queueRecord q)) :
    (¬ Readable (queueRecord q) ∧ st.queueLoad s g = .error .intRange) ∨
      (Readable (queueRecord q) ∧ st.queueLoad s g = .ok (q.wrapped, true)) := by
  obtain ⟨key, hkey⟩ := Option.isSome_iff_exists.mp hk
  obtain rfl := boundedKey_eq hkey
  simp only [queueLoad, hkey, hrow]
  by_cases hr : Readable (queueRecord q)
  · refine .inr ⟨hr, ?_⟩
    rw [← queueRecord_wrapped] at hr ⊢
    rw [queueDecode_of_readable q.wrapped_words hr]
    rfl
  · refine .inl ⟨hr, ?_⟩
    rw [queueDecode_of_unreadable hr]
    rfl

/-- Settings that are not wrapped are stored as those that are. -/
private theorem queueRecord_settings {q q' : Qrec} (h : q' = q.wrapped) :
    queueRecord { q' with
      leaseMs := q.leaseMs
      maxAttempts := q.maxAttempts
      backoffMs := q.backoffMs
      maxBackoffMs := q.maxBackoffMs } = queueRecord q := by
  have hw : ({ q' with
      leaseMs := q.leaseMs
      maxAttempts := q.maxAttempts
      backoffMs := q.backoffMs
      maxBackoffMs := q.maxBackoffMs } : Qrec).wrapped = q.wrapped.wrapped := by
    subst h
    simp only [Qrec.wrapped, u64_u64]
  rw [← queueRecord_wrapped, hw, Qrec.wrapped_wrapped, queueRecord_wrapped]

/-- The settings a group has been given are the settings it has. -/
theorem bjmQueueConfig_again {s g : Bytes} {lease attempts backoff maxBackoff : ℕ}
    (h : st.bjmQueueConfig s g lease attempts backoff maxBackoff = .ok st')
    (h' : st'.bjmQueueConfig s g lease attempts backoff maxBackoff = .ok st'') : st'' = st' := by
  obtain ⟨q, existed, hload, hst'⟩ := bjmQueueConfig_eq h
  obtain ⟨q', existed', hload', hst''⟩ := bjmQueueConfig_eq h'
  have hrow : st'.queues[pairKey s g]? = some (queueRecord { q with
      leaseMs := lease
      maxAttempts := attempts
      backoffMs := backoff
      maxBackoffMs := maxBackoff }) := by
    rw [hst']
    exact ExtTreeMap.getElem?_insert_self
  rcases queueLoad_stored (queueKey_of_load hload) hrow with ⟨-, he⟩ | ⟨-, he⟩
  · rw [he] at hload'
    contradiction
  · rw [he] at hload'
    have hq' := (Prod.mk.inj (Except.ok.inj hload')).1.symm
    rw [hst'', insert_eq_self (hrow.trans (congrArg some (queueRecord_settings hq').symm))]

theorem bjmPolicySet_again {s : Bytes} {p : Policy} (h : st.bjmPolicySet s p = .ok st')
    (h' : st'.bjmPolicySet s p = .ok st'') : SameFiles st' st'' := by
  obtain ⟨key, hkey, hst⟩ := bjmPolicySet_eq h
  obtain ⟨key', hkey', hst'⟩ := bjmPolicySet_eq h'
  obtain rfl := Option.some.inj (hkey.symm.trans hkey')
  have hrow : st'.policy[key]? = some (policyRecord p) := by
    rw [hst]
    exact ExtTreeMap.getElem?_insert_self
  rw [hst', insert_eq_self hrow]
  exact ⟨rfl, rfl, rfl, rfl, fun _ => rfl⟩

theorem bjmPolicyClear_again {s : Bytes} {b b' : Bool}
    (h : st.bjmPolicyClear s = .ok (b, st')) (h' : st'.bjmPolicyClear s = .ok (b', st'')) :
    SameFiles st' st'' := by
  simp only [bjmPolicyClear] at h'
  cases hk : policyKey (ascii "p") s with
  | none => simp [hk] at h'
  | some key =>
    have hno : st'.policy.contains key = false := by
      simp only [bjmPolicyClear, hk] at h
      split at h
      · rename_i hno
        obtain ⟨-, rfl⟩ := Prod.mk.inj (Except.ok.inj h)
        simpa using hno
      · obtain ⟨-, rfl⟩ := Prod.mk.inj (Except.ok.inj h)
        rw [policyUncache_same]
        dsimp only
        split
        · simp
        · simp
    simp only [hk, hno, Bool.not_false, if_true] at h'
    obtain ⟨-, rfl⟩ := Prod.mk.inj (Except.ok.inj h')
    exact ⟨rfl, rfl, rfl, rfl, fun _ => rfl⟩

end Store

end SukkalMsg
