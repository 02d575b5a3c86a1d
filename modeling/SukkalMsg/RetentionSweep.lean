import Mathlib.Order.Bounds.Basic
import SukkalMsg.RetentionTurns

/-!
# A retention sweep

A sweep brings each subject that has a policy to where its limits, its receipts and
its groups let it go, and changes nothing else. What it goes by has to read back: a
record with an integer the codec refuses is passed over.
-/

namespace SukkalMsg

open Std Names Binjson OrderedScan

namespace Store

variable {V : Vendor} {st st' : Store} {s : Bytes} {log : Elog} {nowS : ℕ}

/-- The marks of a subject, as they were written. -/
def MarksAt (st : Store) (s : Bytes) (m : List ℕ) : Prop :=
  (∀ n ∈ m, n < 2 ^ 64) ∧ m.length ≤ 2 * BJM_MARKS_MAX ∧
    (st.policy[pairKey (ascii "m") s]? = some (marksRecord m) ∨
      st.policy[pairKey (ascii "m") s]? = none ∧ m = [])

/-- How far a policy lets the base of a log go: below what its limits keep, no further
than the log's end, and unless it ignores the consumers no further than they allow. -/
def SweepBounds (V : Vendor) (nowS : ℕ) (st : Store) (s : Bytes) (p : Policy) (m : List ℕ)
    (log : Elog) (such : Record → Prop) : Set ℕ :=
  {b | b = limits V log p (.ok m) nowS - 1 ∨ b = log.last ∨
    (p.ignoreConsumers = false ∧ Bound st s such b)}

/-- A sweep that applied every policy, and did nothing else. -/
structure SweepApplied (V : Vendor) (nowS : ℕ) (st : Store) (removed trimmed : ℕ) (st' : Store) :
    Prop where
  swept : ∀ s p m log, PolicyAt st s p → MarksAt st s m → st.logs[s]? = some log →
    ∃ r, IsLeast (SweepBounds V nowS st s p m log fun _ => True) r ∧
      st'.logs[s]? = some (log.compact (max log.base r))
  others : ∀ s, (st.logs[s]? = none ∨ ∀ p, ¬ PolicyAt st s p) → st'.logs[s]? = st.logs[s]?
  rest : ∀ s i, (st'.logOf s).base < i → (st'.logOf s).get i = (st.logOf s).get i
  same : st' = { st with logs := st'.logs, policy := st'.policy, policyOpen := true }
  policies : ∀ k, (∀ s, k ≠ pairKey (ascii "m") s) → st'.policy[k]? = st.policy[k]?
  marks : ∀ s, (st'.logOf s).base = (st.logOf s).base →
    st'.policy[pairKey (ascii "m") s]? = st.policy[pairKey (ascii "m") s]?
  listed : st.policyNames.Nodup ∧ ∀ s, s ∈ st.policyNames ↔ ∃ p, PolicyAt st s p
  removed_eq : removed =
    (st.policyNames.map fun s => (st'.logOf s).base - (st.logOf s).base).sum
  trimmed_eq : trimmed =
    st.policyNames.countP fun s => decide ((st.logOf s).base < (st'.logOf s).base)
  order : ∀ names : List Bytes, names.Perm st.policyNames →
    sweepNames V nowS { st with policyOpen := true } names = (removed, trimmed, st')

/-- What of some marks reads back: all of them, or none. -/
def readMarks (m : List ℕ) : List ℕ := if Readable (marksRecord m) then m else []

/-- A record that does not read back makes no difference to where a base comes to rest. -/
def UnreadHarmless (V : Vendor) (nowS : ℕ) (st : Store) : Prop :=
  ∀ s p m log, PolicyAt st s p → MarksAt st s m → st.logs[s]? = some log →
    ∀ r, IsLeast (SweepBounds V nowS st s p m log fun _ => True) r →
      (Readable (policyRecord p) →
        ∀ r', IsLeast (SweepBounds V nowS st s p (readMarks m) log Readable) r' →
          max log.base r' = max log.base r) ∧
      (¬ Readable (policyRecord p) → r ≤ log.base)

theorem exists_isLeast {S : Set ℕ} (h : S.Nonempty) : ∃ r, IsLeast S r := by
  classical
  exact ⟨Nat.find h, Nat.find_spec h, fun b hb => Nat.find_min' h hb⟩

theorem sweepBounds_nonempty (V : Vendor) (nowS : ℕ) (st : Store) (s : Bytes) (p : Policy)
    (m : List ℕ) (log : Elog) (such : Record → Prop) :
    (SweepBounds V nowS st s p m log such).Nonempty := ⟨_, .inl rfl⟩

theorem policyGet_at {p : Policy} (hs : bjmSubjectValid s = true) (hp : PolicyAt st s p) :
    st.bjmPolicyGet s =
      if Readable (policyRecord p) then .ok (true, p) else .error .intRange := by
  simp only [bjmPolicyGet, polKey_of_valid hs, hp.2]
  split
  · rename_i hr
    have hcarried : ∀ n ∈ p.ints, Carried n := by
      intro n hn
      refine (putInt_safe_iff (hp.1 n hn)).mp (hr _ ?_) |>.imp id fun h => ⟨h, hp.1 n hn⟩
      simp only [Policy.ints, List.mem_cons, List.not_mem_nil, or_false] at hn
      rcases hn with rfl | rfl | rfl <;> simp [policyRecord]
    rw [policyDecode_of_carried hcarried]
    rfl
  · rename_i hr
    rw [policyDecode, bjDecode_of_unreadable _ hr]
    rfl

theorem foldl_markVisit (m acc : List ℕ) (hw : ∀ n ∈ m, n < 2 ^ 64)
    (hlen : acc.length + m.length ≤ 2 * BJM_MARKS_MAX) :
    (m.map putInt).foldl markVisit acc = acc ++ m := by
  induction m generalizing acc with
  | nil => simp
  | cons n m ih =>
    obtain ⟨hn, hw⟩ := List.forall_mem_cons.mp hw
    simp only [List.length_cons] at hlen
    have hroom : acc.length < BJM_MARKS_MAX * 2 := by omega
    have hvisit : markVisit acc (putInt n) = acc ++ [n] := by
      simp only [markVisit, putInt, if_pos hroom, ofDouble_toInt64 hn]
    rw [List.map_cons, List.foldl_cons, hvisit, ih _ hw (by simp; omega), List.append_assoc,
      List.singleton_append]

theorem marksRead_at {m : List ℕ} (hm : MarksAt st s m) :
    marksRead st.policy[pairKey (ascii "m") s]? =
      if Readable (marksRecord m) then .ok m else .error .intRange := by
  obtain ⟨hw, hlen, hget | ⟨hget, rfl⟩⟩ := hm
  · rw [hget]
    simp only [marksRead]
    split
    · rename_i hr
      rw [bjDecode_of_readable _ hr]
      have hfold := foldl_markVisit m [] hw (by simpa using hlen)
      simp only [List.nil_append] at hfold
      simp only [marksRecord, List.cons_append, List.foldl_cons, List.foldl_append,
        List.foldl_nil, markVisit, hfold]
    · rename_i hr
      exact bjDecode_of_unreadable _ hr
  · rw [hget, if_pos (by decide)]
    rfl

theorem limits_read {p : Policy} {m : List ℕ} (hm : MarksAt st s m) :
    limits V log p (marksRead st.policy[pairKey (ascii "m") s]?) nowS =
      limits V log p (.ok (readMarks m)) nowS := by
  rw [marksRead_at hm, readMarks]
  split
  · rfl
  · simp only [limits, ageLimit, ageBoundary]

theorem ageBoundary_lt (cutoff : ℕ) (m : List ℕ) : ageBoundary cutoff m < 2 ^ 64 := by
  induction m using ageBoundary.induct with
  | case1 i t m ih =>
    simp only [ageBoundary]
    have := u64_lt (i + 1)
    split <;> omega
  | case2 m h => 
    unfold ageBoundary
    split
    · exact absurd rfl (h _ _ _)
    · decide

theorem limits_lt (V : Vendor) (nowS : ℕ) (p : Policy) (m : List ℕ)
    (hw : log.last + 1 < 2 ^ 64) : limits V log p (.ok m) nowS < 2 ^ 64 := by
  have hage : ageLimit p.maxAgeS nowS (.ok m) < 2 ^ 64 := by
    simp only [ageLimit]
    split
    · exact ageBoundary_lt ..
    · decide
  have hcount : countBoundary log p.maxMessages ≤ log.last + 1 := by
    simp only [countBoundary]
    split <;> omega
  have hbyte : byteBoundary V log p.maxBytes ≤ log.last + 1 := by
    have hlen := Elog.length_eq log
    have hdrop := (byteDrop_le_iff V log p.maxBytes log.entries.length).mpr (.inl (Nat.le_refl _))
    simp only [byteBoundary, Elog.last] at *
    split <;> omega
  simp only [limits]
  split
  · decide
  · omega

theorem sweptBase_read {p : Policy} {m : List ℕ} (hs : bjmSubjectValid s = true)
    (hp : PolicyAt st s p) (hr : Readable (policyRecord p)) (hm : MarksAt st s m) :
    sweptBase V nowS st s log st.policy[pairKey (ascii "m") s]? = max log.base
      (st.trimTarget s log.last (limits V log p (.ok (readMarks m)) nowS) p.ignoreConsumers) := by
  rw [← limits_read hm, sweptBase, policyGet_at hs hp, if_pos hr]

theorem sweptBase_unread {p : Policy} (hs : bjmSubjectValid s = true) (hp : PolicyAt st s p)
    (hr : ¬ Readable (policyRecord p)) (marks : Option Record) :
    sweptBase V nowS st s log marks = log.base := by
  rw [sweptBase, policyGet_at hs hp, if_neg hr]

theorem sweptBase_isLeast (hk : Kept st) (hs : bjmSubjectValid s = true) {p : Policy}
    {m : List ℕ} (hp : PolicyAt st s p) (hr : Readable (policyRecord p)) (hm : MarksAt st s m)
    (hl : st.logs[s]? = some log) (hw : log.last + 1 < 2 ^ 64) :
    ∃ r, IsLeast (SweepBounds V nowS st s p (readMarks m) log Readable) r ∧
      sweptBase V nowS st s log st.policy[pairKey (ascii "m") s]? = max log.base r := by
  have hlog : st.logOf s = log := by simp [logOf, hl]
  refine ⟨_, ?_, sweptBase_read hs hp hr hm⟩
  cases hforce : p.ignoreConsumers with
  | false =>
    have hleast := trimTarget_isLeast hk hs (limits_lt V nowS p (readMarks m) hw)
    have hset : SweepBounds V nowS st s p (readMarks m) log Readable =
        TrimBounds st s (limits V log p (.ok (readMarks m)) nowS) Readable := by
      simp only [SweepBounds, TrimBounds, hforce, true_and, hlog]
    rw [hlog] at hleast
    rw [hset]
    exact hleast
  | true =>
    have hset : SweepBounds V nowS st s p (readMarks m) log Readable =
        {b | b = limits V log p (.ok (readMarks m)) nowS - 1 ∨ b = log.last} := by
      simp only [SweepBounds, hforce, Bool.true_eq_false, false_and, or_false]
    rw [hset]
    simp only [trimTarget, if_true]
    refine ⟨?_, fun b hb => ?_⟩
    · rcases Nat.le_total (limits V log p (.ok (readMarks m)) nowS - 1) log.last with h | h
      · exact .inl (Nat.min_eq_left h)
      · exact .inr (Nat.min_eq_right h)
    · rcases hb with rfl | rfl
      · exact Nat.min_le_left _ _
      · exact Nat.min_le_right _ _

theorem le_sweptBase (marks : Option Record) : log.base ≤ sweptBase V nowS st s log marks := by
  simp only [sweptBase]
  split
  · exact Nat.le_max_left _ _
  · exact Nat.le_refl _

/-- What a sweep leaves of a subject that has a log. -/
structure Turned (V : Vendor) (nowS : ℕ) (st st' : Store) (s : Bytes) (log : Elog) (base : ℕ) :
    Prop where
  forward : log.base ≤ base
  log_eq : st'.logs[s]? = some (log.compact base)
  listed : s ∈ st.policyNames →
    base = sweptBase V nowS st s log st.policy[pairKey (ascii "m") s]?
  unlisted : s ∉ st.policyNames → base = log.base
  marks : base = log.base →
    st'.policy[pairKey (ascii "m") s]? = st.policy[pairKey (ascii "m") s]?

theorem retentionRun_cells (V : Vendor) (nowS : ℕ) (hpol : PoliciesKept st)
    (hadopt : st.adopt = true) :
    Shares { st with policyOpen := true } (st.bjmRetentionRun V nowS).2.2 ∧
      ∀ s, (st.bjmRetentionRun V nowS).2.2.ownCell s =
        if s ∈ st.policyNames then sweepTurn V nowS st s (st.ownCell s) else st.ownCell s := by
  have hopened : ∀ opened : Store, opened.policyOpen = true → opened.adopt = true →
      Shares opened (sweepNames V nowS opened st.policyNames).2.2 ∧
        ∀ s, (sweepNames V nowS opened st.policyNames).2.2.ownCell s =
          if s ∈ st.policyNames then sweepTurn V nowS opened s (opened.ownCell s)
          else opened.ownCell s := fun opened ho ha =>
    sweepNames_cells V nowS ho ha (fun s hs => valid_of_mem_policyNames hpol hs)
      (policyNames_nodup hpol)
  exact hopened { st with policyOpen := true } rfl hadopt

theorem retentionRun_turned (V : Vendor) (nowS : ℕ) (hpol : PoliciesKept st)
    (hadopt : st.adopt = true) (hl : st.logs[s]? = some log) :
    ∃ base, Turned V nowS st (st.bjmRetentionRun V nowS).2.2 s log base := by
  have hcell := (retentionRun_cells V nowS hpol hadopt).2 s
  rw [ownCell, ownCell, hl] at hcell
  by_cases hs : s ∈ st.policyNames
  · rw [if_pos hs] at hcell
    obtain ⟨hlog, hmarks⟩ := Prod.mk.inj hcell
    refine ⟨_, le_sweptBase _, hlog, fun _ => rfl, fun h => absurd hs h, fun hb => ?_⟩
    rw [hmarks, if_pos hb]
  · rw [if_neg hs] at hcell
    obtain ⟨hlog, hmarks⟩ := Prod.mk.inj hcell
    refine ⟨log.base, Nat.le_refl _, ?_, fun h => absurd h hs, fun _ => rfl, fun _ => hmarks⟩
    rw [hlog, Elog.compact_base]

theorem retentionRun_missing (V : Vendor) (nowS : ℕ) (hpol : PoliciesKept st)
    (hadopt : st.adopt = true) (hl : st.logs[s]? = none) :
    (st.bjmRetentionRun V nowS).2.2.ownCell s = st.ownCell s := by
  have hcell := (retentionRun_cells V nowS hpol hadopt).2 s
  rw [ownCell, ownCell, hl] at hcell
  rw [ownCell, ownCell, hl, hcell]
  split <;> rfl

theorem turnRemoved_eq (V : Vendor) (nowS : ℕ) (hpol : PoliciesKept st) (hadopt : st.adopt = true)
    (hs : s ∈ st.policyNames) :
    turnRemoved V nowS st s (st.ownCell s) =
      ((st.bjmRetentionRun V nowS).2.2.logOf s).base - (st.logOf s).base := by
  cases hl : st.logs[s]? with
  | none =>
    have hlogs := congrArg Prod.fst (retentionRun_missing V nowS hpol hadopt hl)
    simp only [ownCell] at hlogs
    simp only [ownCell, hl, turnRemoved, logOf, hlogs, Nat.sub_self]
  | some log =>
    obtain ⟨base, ht⟩ := retentionRun_turned V nowS hpol hadopt hl
    simp only [ownCell, hl, turnRemoved, logOf, ht.log_eq, Option.getD_some, Elog.compact,
      ht.listed hs]

/-- Whatever reads back, a sweep does nothing but apply policies. -/
theorem sweep_applied_of_swept (V : Vendor) (nowS : ℕ) (hpol : PoliciesKept st)
    (hadopt : st.adopt = true)
    (hswept : ∀ s p m log, PolicyAt st s p → MarksAt st s m → st.logs[s]? = some log →
      ∃ r, IsLeast (SweepBounds V nowS st s p m log fun _ => True) r ∧
        (st.bjmRetentionRun V nowS).2.2.logs[s]? = some (log.compact (max log.base r))) :
    SweepApplied V nowS st (st.bjmRetentionRun V nowS).1 (st.bjmRetentionRun V nowS).2.1
      (st.bjmRetentionRun V nowS).2.2 := by
  have hv : ∀ s ∈ st.policyNames, bjmSubjectValid s = true :=
    fun s hs => valid_of_mem_policyNames hpol hs
  have hnd := policyNames_nodup hpol
  have hshares := (retentionRun_cells V nowS hpol hadopt).1
  have hcounts : ∀ opened : Store, opened.policyOpen = true → opened.adopt = true →
      (sweepNames V nowS opened st.policyNames).1 =
          (st.policyNames.map fun s => turnRemoved V nowS opened s (opened.ownCell s)).sum ∧
        (sweepNames V nowS opened st.policyNames).2.1 = st.policyNames.countP fun s =>
          decide (turnRemoved V nowS opened s (opened.ownCell s) ≠ 0) := fun opened ho ha =>
    (sweepNames_eq V nowS ho ha hv hnd).2
  have hremoved : (st.bjmRetentionRun V nowS).1 =
      (st.policyNames.map fun s => turnRemoved V nowS st s (st.ownCell s)).sum :=
    (hcounts { st with policyOpen := true } rfl hadopt).1
  have htrimmed : (st.bjmRetentionRun V nowS).2.1 = st.policyNames.countP fun s =>
      decide (turnRemoved V nowS st s (st.ownCell s) ≠ 0) :=
    (hcounts { st with policyOpen := true } rfl hadopt).2
  constructor
  · exact hswept
  · intro s hs
    cases hl : st.logs[s]? with
    | none =>
      rw [← hl]
      exact congrArg Prod.fst (retentionRun_missing V nowS hpol hadopt hl)
    | some log =>
      have hnone := hs.resolve_left (by simp [hl])
      obtain ⟨base, ht⟩ := retentionRun_turned V nowS hpol hadopt hl
      have hnot : s ∉ st.policyNames := fun hmem => by
        obtain ⟨p, hp⟩ := (mem_policyNames hpol).mp hmem
        exact hnone p hp
      rw [ht.log_eq, ht.unlisted hnot, Elog.compact_base]
  · intro s i hi
    cases hl : st.logs[s]? with
    | none =>
      have hlogs := congrArg Prod.fst (retentionRun_missing V nowS hpol hadopt hl)
      simp only [ownCell] at hlogs
      simp only [logOf, hlogs]
    | some log =>
      obtain ⟨base, ht⟩ := retentionRun_turned V nowS hpol hadopt hl
      simp only [logOf, ht.log_eq, hl, Option.getD_some] at hi ⊢
      exact Elog.get_compact ht.forward hi
  · exact hshares.same
  · exact hshares.others
  · intro s hbase
    cases hl : st.logs[s]? with
    | none => exact congrArg Prod.snd (retentionRun_missing V nowS hpol hadopt hl)
    | some log =>
      obtain ⟨base, ht⟩ := retentionRun_turned V nowS hpol hadopt hl
      simp only [logOf, ht.log_eq, hl, Option.getD_some] at hbase
      exact ht.marks hbase
  · exact ⟨hnd, fun s => mem_policyNames hpol⟩
  · rw [hremoved]
    exact congrArg List.sum (List.map_congr_left fun s hs =>
      turnRemoved_eq V nowS hpol hadopt hs)
  · rw [htrimmed]
    refine List.countP_congr fun s hs => ?_
    have hturn := turnRemoved_eq V nowS hpol hadopt hs
    rw [decide_eq_true_eq, decide_eq_true_eq, ← Nat.sub_pos_iff_lt, ← hturn]
    exact Nat.pos_iff_ne_zero.symm
  · intro names hperm
    have hsame : ∀ opened : Store, opened.policyOpen = true → opened.adopt = true →
        sweepNames V nowS opened names = sweepNames V nowS opened st.policyNames :=
      fun opened ho ha => sweepNames_perm V nowS ho ha hv hnd hperm
    exact hsame { st with policyOpen := true } rfl hadopt

/-- A sweep applies every policy exactly when the records that do not read back make no
difference to where the bases come to rest. -/
theorem sweep_applied_iff (V : Vendor) (nowS : ℕ) {st : Store} (hk : Kept st)
    (hpol : PoliciesKept st) (hadopt : st.adopt = true)
    (hw : ∀ s, (st.logOf s).last + 1 < 2 ^ 64) :
    SweepApplied V nowS st (st.bjmRetentionRun V nowS).1 (st.bjmRetentionRun V nowS).2.1
        (st.bjmRetentionRun V nowS).2.2 ↔
      UnreadHarmless V nowS st := by
  -- where the base of a subject with a policy comes to rest, by what is read
  have hrest : ∀ s p m log, PolicyAt st s p → MarksAt st s m → st.logs[s]? = some log →
      ∃ base, (st.bjmRetentionRun V nowS).2.2.logs[s]? = some (log.compact base) ∧
        (Readable (policyRecord p) → ∃ r',
          IsLeast (SweepBounds V nowS st s p (readMarks m) log Readable) r' ∧
            base = max log.base r') ∧
        (¬ Readable (policyRecord p) → base = log.base) := by
    intro s p m log hp hm hl
    have hs := (hpol.policies s _ hp.2).1
    have hlast : log.last + 1 < 2 ^ 64 := by simpa [logOf, hl] using hw s
    obtain ⟨base, ht⟩ := retentionRun_turned V nowS hpol hadopt hl
    have hbase := ht.listed ((mem_policyNames hpol).mpr ⟨p, hp⟩)
    refine ⟨base, ht.log_eq, fun hr => ?_, fun hr => ?_⟩
    · obtain ⟨r', hleast, heq⟩ := sweptBase_isLeast hk hs hp hr hm hl hlast
      exact ⟨r', hleast, hbase.trans heq⟩
    · exact hbase.trans (sweptBase_unread hs hp hr _)
  constructor
  · intro happlied s p m log hp hm hl r hr
    obtain ⟨base, hlog, hread, hunread⟩ := hrest s p m log hp hm hl
    obtain ⟨r₀, hr₀, hlog₀⟩ := happlied.swept s p m log hp hm hl
    obtain rfl := hr₀.unique hr
    have hbase : base = max log.base r₀ :=
      congrArg Elog.base (Option.some.inj (hlog.symm.trans hlog₀))
    refine ⟨fun hpr r' hr' => ?_, fun hpr => ?_⟩
    · obtain ⟨r₁, hr₁, heq⟩ := hread hpr
      obtain rfl := hr₁.unique hr'
      exact heq.symm.trans hbase
    · have := hunread hpr
      omega
  · intro hharmless
    refine sweep_applied_of_swept V nowS hpol hadopt fun s p m log hp hm hl => ?_
    obtain ⟨base, hlog, hread, hunread⟩ := hrest s p m log hp hm hl
    obtain ⟨r, hr⟩ := exists_isLeast (sweepBounds_nonempty V nowS st s p m log fun _ => True)
    obtain ⟨hreadable, hunreadable⟩ := hharmless s p m log hp hm hl r hr
    refine ⟨r, hr, ?_⟩
    rw [hlog]
    by_cases hpr : Readable (policyRecord p)
    · obtain ⟨r', hr', heq⟩ := hread hpr
      rw [heq, hreadable hpr r' hr']
    · rw [hunread hpr, Nat.max_eq_left (hunreadable hpr)]

/-- With a bound on the count, and nothing to protect the log, that many messages remain. -/
theorem SweepApplied.at_most {removed trimmed : ℕ} {p : Policy} {m : List ℕ}
    (h : SweepApplied V nowS st removed trimmed st') (hp : PolicyAt st s p) (hm : MarksAt st s m)
    (hl : st.logs[s]? = some log) (hcount : 0 < p.maxMessages)
    (hfree : p.ignoreConsumers = true ∨ ∀ b, ¬ Bound st s (fun _ => True) b) :
    (st'.logOf s).entries.length ≤ p.maxMessages := by
  obtain ⟨r, hr, hlog⟩ := h.swept s p m log hp hm hl
  have hkept : log.last ≤ max log.base r + p.maxMessages := by
    have hlast : log.last - log.base = log.entries.length := Elog.length_eq log
    have hlim : log.last - log.base = 0 ∨
        countBoundary log p.maxMessages ≤ limits V log p (.ok m) nowS := by
      simp only [limits]
      split
      · exact .inl ‹_›
      · exact .inr (Nat.le_max_left _ _)
    have hcb : log.last ≤ log.base + p.maxMessages ∨
        countBoundary log p.maxMessages = log.last - p.maxMessages + 1 := by
      simp only [countBoundary]
      split
      · exact .inr rfl
      · exact .inl (by omega)
    rcases hr.1 with hb | hb | ⟨hforce, hb⟩
    · omega
    · omega
    · rcases hfree with hf | hf
      · rw [hf] at hforce
        contradiction
      · exact absurd hb (hf r)
  have hlen := Elog.length_eq log
  simp only [logOf, hlog, Option.getD_some, Elog.compact, List.length_drop]
  omega

theorem unreadHarmless_of_readable (hpol : ∀ (k : Bytes) r, st.policy[k]? = some r → Readable r)
    (hcur : ∀ (k : Bytes) r, st.cursors[k]? = some r → Readable r)
    (hq : ∀ (k : Bytes) r, st.queues[k]? = some r → Readable r) : UnreadHarmless V nowS st := by
  intro s p m log hp hm hl r hr
  refine ⟨fun _ r' hr' => ?_, fun hnot => absurd (hpol _ _ hp.2) hnot⟩
  have hmarks : readMarks m = m := by
    rcases hm.2.2 with hget | ⟨-, rfl⟩
    · exact if_pos (hpol _ _ hget)
    · rfl
  have hbound : ∀ b, Bound st s Readable b ↔ Bound st s (fun _ => True) b := by
    intro b
    refine ⟨Bound.any, fun hb => ?_⟩
    rcases hb with ⟨hrec, -⟩ | ⟨q, hg, -, heq⟩
    · obtain ⟨c, -, -, hget⟩ := id hrec
      exact .inl ⟨hrec, hcur _ _ hget⟩
    · obtain ⟨g, -, -, hget⟩ := id hg
      exact .inr ⟨q, hg, hq _ _ hget, heq⟩
  have hset : SweepBounds V nowS st s p (readMarks m) log Readable =
      SweepBounds V nowS st s p m log fun _ => True := by
    simp only [SweepBounds, hmarks, hbound]
  rw [hset] at hr'
  rw [hr.unique hr']

namespace PoliciesKept

theorem empty (h : st.policy = ∅) : PoliciesKept st :=
  ⟨fun s r hr => by simp [h] at hr, fun s r hr => by simp [h] at hr⟩

theorem policySet {p : Policy} (hk : PoliciesKept st) (hs : bjmSubjectValid s = true)
    (hp : ∀ n ∈ p.ints, n < 2 ^ 64) (h : st.bjmPolicySet s p = .ok st') : PoliciesKept st' := by
  obtain ⟨key, hkey, hst⟩ := bjmPolicySet_eq h
  rw [polKey_of_valid hs] at hkey
  obtain rfl := Option.some.inj hkey
  have hget : ∀ k, st'.policy[k]? =
      if pairKey (ascii "p") s = k then some (policyRecord p) else st.policy[k]? := by
    intro k
    rw [hst]
    exact getElem?_insert ..
  refine ⟨fun t r hr => ?_, fun t r hr => ?_⟩
  · rw [hget] at hr
    split at hr
    · rename_i heq
      obtain ⟨-, rfl⟩ := pairKey_injective (by decide) (by decide) heq
      exact ⟨hs, p, hp, (Option.some.inj hr).symm⟩
    · exact hk.policies t r hr
  · have hne : pairKey (ascii "p") s ≠ pairKey (ascii "m") t := fun heq =>
      absurd (List.cons.inj heq).1 (by decide)
    rw [hget, if_neg hne] at hr
    exact hk.marks t r hr

end PoliciesKept

/-- The jobs of a group the decoder refuses, and a policy that keeps the newest message. -/
def countedStore : Store :=
  (longLeaseStore.bjmPolicySet (ascii "jobs") ⟨0, 1, 0, false⟩).toOption.getD .empty

theorem countedStore_set :
    longLeaseStore.bjmPolicySet (ascii "jobs") ⟨0, 1, 0, false⟩ = .ok countedStore := rfl

theorem countedStore_kept : Kept countedStore ∧ PoliciesKept countedStore ∧
    countedStore.adopt = true ∧ ∀ s, (countedStore.logOf s).last + 1 < 2 ^ 64 := by
  refine ⟨longLeaseStore_kept.congr rfl rfl,
    (PoliciesKept.empty rfl).policySet (by decide) (by decide) countedStore_set, rfl,
    fun s => ?_⟩
  have hlogs : countedStore.logs = ((∅ : ExtTreeMap Bytes Elog).insert (ascii "jobs")
      ⟨0, [⟨BJM_ENTRY_PLAIN, [7]⟩]⟩).insert (ascii "jobs")
        ⟨0, [⟨BJM_ENTRY_PLAIN, [7]⟩, ⟨BJM_ENTRY_PLAIN, [8]⟩]⟩ := rfl
  rw [logOf_insert hlogs]
  split
  · decide
  · rename_i hne
    rw [getElem?_insert, if_neg hne]
    simp [Elog.last]

/-- The sweep drops a job that the group has not been handed. -/
theorem counted_swept :
    longLeaseStore.bjmPolicySet (ascii "jobs") ⟨0, 1, 0, false⟩ = .ok countedStore ∧
    Kept countedStore ∧ PoliciesKept countedStore ∧
    GroupAt countedStore (ascii "jobs") longLeaseGroup ∧ longLeaseGroup.next = 1 ∧
    (countedStore.bjmRetentionRun .silent 0).1 = 1 ∧
    ((countedStore.bjmRetentionRun .silent 0).2.2.logOf (ascii "jobs")).base = 1 ∧
    ¬ SweepApplied .silent 0 countedStore (countedStore.bjmRetentionRun .silent 0).1
      (countedStore.bjmRetentionRun .silent 0).2.1
      (countedStore.bjmRetentionRun .silent 0).2.2 := by
  have hgroup : GroupAt countedStore (ascii "jobs") longLeaseGroup :=
    ⟨ascii "workers", by decide, by decide, rfl⟩
  have hbase : ((countedStore.bjmRetentionRun .silent 0).2.2.logOf (ascii "jobs")).base = 1 := by
    decide +kernel
  refine ⟨rfl, countedStore_kept.1, countedStore_kept.2.1, hgroup, rfl, by decide +kernel, hbase,
    fun h => ?_⟩
  have hlog : countedStore.logs[ascii "jobs"]? =
      some ⟨0, [⟨BJM_ENTRY_PLAIN, [7]⟩, ⟨BJM_ENTRY_PLAIN, [8]⟩]⟩ := rfl
  obtain ⟨r, hr, hlog'⟩ := h.swept (ascii "jobs") ⟨0, 1, 0, false⟩ [] _ ⟨by decide, rfl⟩
    ⟨by simp, by decide, .inr ⟨rfl, rfl⟩⟩ hlog
  -- nothing of the group has been handed out, so the base has to stay
  have hzero : r ≤ 0 := hr.2 (.inr (.inr ⟨rfl, .inr ⟨longLeaseGroup, hgroup, trivial, rfl⟩⟩))
  have hstays : ((countedStore.bjmRetentionRun .silent 0).2.2.logOf (ascii "jobs")).base = 0 := by
    simp only [logOf, hlog', Option.getD_some, Elog.compact]
    omega
  exact absurd (hbase.symm.trans hstays) (by decide)

theorem counted_swept_iff :
    SweepApplied .silent 0 countedStore (countedStore.bjmRetentionRun .silent 0).1
        (countedStore.bjmRetentionRun .silent 0).2.1
        (countedStore.bjmRetentionRun .silent 0).2.2 ↔
      UnreadHarmless .silent 0 countedStore :=
  sweep_applied_iff .silent 0 countedStore_kept.1 countedStore_kept.2.1 countedStore_kept.2.2.1
    countedStore_kept.2.2.2

end Store

end SukkalMsg
