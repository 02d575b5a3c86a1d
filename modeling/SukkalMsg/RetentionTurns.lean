import SukkalMsg.Boundaries
import SukkalMsg.Dedup
import SukkalMsg.KeyedSweep
import SukkalMsg.StoreCalls
import SukkalMsg.StoreSteps

/-!
# The turns of a retention sweep

A sweep takes a turn at every subject that has a policy. The turn reads the policy,
the receipts and the groups, which no turn changes, and the subject's own log and
marks, which no other turn does.
-/

namespace SukkalMsg

open Std Names Binjson OrderedScan KeyedSweep

theorem Elog.compact_base (log : Elog) : log.compact log.base = log := by
  simp [Elog.compact]

namespace Store

/-- What a record of marks reads as. -/
def marksRead : Option Record → Except BjErr (List ℕ)
  | none => .ok []
  | some r => bjDecode markVisit r []

/-- What is left of a record of marks after the log's base went up. -/
def prunedMarks (base : ℕ) (r : Option Record) : Option Record :=
  match marksRead r with
  | .error _ => r
  | .ok m => if (liveMarks base m).length = m.length then r
    else some (marksRecord (liveMarks base m))

/-- What the age limit proposes by these marks. -/
def ageLimit (maxAgeS nowS : ℕ) (m : Except BjErr (List ℕ)) : ℕ :=
  if maxAgeS ≠ 0 ∧ nowS > maxAgeS then match m with
    | .error _ => 0
    | .ok m => ageBoundary (nowS - maxAgeS) m
  else 0

/-- The largest of the boundaries the limits propose. -/
def limits (V : Vendor) (log : Elog) (p : Policy) (m : Except BjErr (List ℕ)) (nowS : ℕ) : ℕ :=
  if log.last - log.base = 0 then 0
  else max (countBoundary log p.maxMessages)
    (max (byteBoundary V log p.maxBytes) (ageLimit p.maxAgeS nowS m))

variable {V : Vendor} {st st' : Store} {s : Bytes} {log : Elog} {nowS : ℕ}

theorem key_of_valid {kind : Bytes} (hk : kind.length = 1) (hs : bjmSubjectValid s = true) :
    policyKey kind s = some (pairKey kind s) := by
  have hlen := nameValid_length hs
  have hfits : ¬ (pairKey kind s).length ≥ BJM_SUBJECT_MAX + 4 := by
    simp only [pairKey, List.length_append, List.length_cons, hk]
    omega
  simp only [policyKey, boundedKey, if_neg hfits]

theorem marksKey_of_valid (hs : bjmSubjectValid s = true) :
    policyKey (ascii "m") s = some (pairKey (ascii "m") s) := key_of_valid rfl hs

theorem polKey_of_valid (hs : bjmSubjectValid s = true) :
    policyKey (ascii "p") s = some (pairKey (ascii "p") s) := key_of_valid rfl hs

theorem marksLoad_eq (hs : bjmSubjectValid s = true) :
    st.marksLoad s = marksRead st.policy[pairKey (ascii "m") s]? := by
  simp only [marksLoad, marksKey_of_valid hs]
  cases st.policy[pairKey (ascii "m") s]? <;> rfl

theorem policyBoundary_limits (hs : bjmSubjectValid s = true) (p : Policy) :
    st.policyBoundary V s log p nowS =
      limits V log p (marksRead st.policy[pairKey (ascii "m") s]?) nowS := by
  rw [policyBoundary_eq, markBoundary, marksLoad_eq hs]
  rfl

theorem marksPrune_get (hs : bjmSubjectValid s = true) (base : ℕ) (k : Bytes) :
    (st.marksPrune s base).policy[k]? =
      if k = pairKey (ascii "m") s then prunedMarks base st.policy[k]? else st.policy[k]? := by
  simp only [marksPrune, marksLoad_eq hs, marksStore, marksKey_of_valid hs]
  by_cases hk : k = pairKey (ascii "m") s
  · subst hk
    simp only [if_true, prunedMarks]
    cases marksRead st.policy[pairKey (ascii "m") s]? with
    | error e => rfl
    | ok m =>
      dsimp only
      split
      · rfl
      · exact ExtTreeMap.getElem?_insert_self
  · rw [if_neg hk]
    cases marksRead st.policy[pairKey (ascii "m") s]? with
    | error e => rfl
    | ok m =>
      dsimp only
      split
      · rfl
      · exact (getElem?_insert ..).trans (if_neg (Ne.symm hk))

/-- The base a turn leaves a log at. -/
def sweptBase (V : Vendor) (nowS : ℕ) (st : Store) (s : Bytes) (log : Elog)
    (marks : Option Record) : ℕ :=
  match st.bjmPolicyGet s with
  | .ok (true, p) => max log.base
      (st.trimTarget s log.last (limits V log p (marksRead marks) nowS) p.ignoreConsumers)
  | _ => log.base

/-- What belongs to one subject alone: its log, and its marks. -/
def ownCell (st : Store) (s : Bytes) : Option Elog × Option Record :=
  (st.logs[s]?, st.policy[pairKey (ascii "m") s]?)

/-- A turn: the log goes up to its base, and the marks with it. -/
def sweepTurn (V : Vendor) (nowS : ℕ) (st : Store) (s : Bytes) :
    Option Elog × Option Record → Option Elog × Option Record
  | (none, marks) => (none, marks)
  | (some log, marks) =>
    (some (log.compact (sweptBase V nowS st s log marks)),
      if sweptBase V nowS st s log marks = log.base then marks
      else prunedMarks (sweptBase V nowS st s log marks) marks)

/-- How far a turn moves the base. -/
def turnRemoved (V : Vendor) (nowS : ℕ) (st : Store) (s : Bytes) :
    Option Elog × Option Record → ℕ
  | (none, _) => 0
  | (some log, marks) => sweptBase V nowS st s log marks - log.base

/-- The store once a log's base is there, and the marks below it forgotten. -/
def advance (st : Store) (s : Bytes) (log : Elog) (base : ℕ) : Store :=
  if base = log.base then st
  else ({ st with logs := st.logs.insert s (log.compact base) } : Store).marksPrune s base

theorem trimTarget_zero (s : Bytes) (last : ℕ) (force : Bool) :
    st.trimTarget s last 0 force = 0 := by
  simp only [trimTarget]
  split
  · omega
  · split <;> omega

theorem bjmTrim_advance (hf : fileFits s = true) (hl : st.logs[s]? = some log)
    (hopen : st.policyOpen = true) (hadopt : st.adopt = true) (before : ℕ) (force : Bool) :
    st.bjmTrim s before force =
      .ok (max log.base (st.trimTarget s log.last before force),
        max log.base (st.trimTarget s log.last before force) - log.base,
        st.advance s log (max log.base (st.trimTarget s log.last before force))) := by
  simp only [bjmTrim]
  rw [if_neg (by simp [hadopt]), subjectGet_of_log st hf hl]
  dsimp only
  by_cases hle : st.trimTarget s log.last before force ≤ log.base
  · rw [if_pos hle, Nat.max_eq_left hle, Nat.sub_self, advance, if_pos rfl]
  · have hne : st.trimTarget s log.last before force ≠ log.base := fun h => hle (by omega)
    rw [if_neg hle, Nat.max_eq_right (by omega), advance, if_neg hne, if_pos hopen]

/-- What a turn of the sweep does to a log that exists. -/
theorem sweepOne_eq (hs : bjmSubjectValid s = true) (hl : st.logs[s]? = some log)
    (hopen : st.policyOpen = true) (hadopt : st.adopt = true) :
    st.sweepOne V nowS s = (turnRemoved V nowS st s (st.ownCell s),
      st.advance s log (sweptBase V nowS st s log st.policy[pairKey (ascii "m") s]?)) := by
  have hf := fileFits_of_valid hs
  have hcell : st.ownCell s = (some log, st.policy[pairKey (ascii "m") s]?) := by
    rw [ownCell, hl]
  rw [hcell]
  by_cases hp : ∃ p, st.bjmPolicyGet s = .ok (true, p)
  · obtain ⟨p, hp⟩ := hp
    have hbase : sweptBase V nowS st s log st.policy[pairKey (ascii "m") s]? = max log.base
        (st.trimTarget s log.last (st.policyBoundary V s log p nowS) p.ignoreConsumers) := by
      rw [sweptBase, hp, policyBoundary_limits hs]
    simp only [sweepOne, hp, subjectGet_of_log st hf hl, turnRemoved, hbase]
    split
    · rename_i hzero
      rw [hzero, trimTarget_zero, Nat.max_eq_left (Nat.zero_le _), Nat.sub_self, advance,
        if_pos rfl]
    · rw [bjmTrim_advance hf hl hopen hadopt]
  · have hbase : sweptBase V nowS st s log st.policy[pairKey (ascii "m") s]? = log.base := by
      simp only [sweptBase]
      split
      · rename_i p hp'
        exact absurd ⟨p, hp'⟩ hp
      · rfl
    have hidle : st.sweepOne V nowS s = (0, st) := by
      simp only [sweepOne]
      split
      · rename_i p hp'
        exact absurd ⟨p, hp'⟩ hp
      · rfl
    rw [hidle, turnRemoved, hbase, Nat.sub_self, advance, if_pos rfl]

theorem sweepOne_missing (hs : bjmSubjectValid s = true) (hl : st.logs[s]? = none) :
    st.sweepOne V nowS s = (0, st) := by
  have hget : st.subjectGet s false = .error .state := by
    simp [subjectGet, fileFits_of_valid hs, hl]
  simp only [sweepOne, hget]
  split <;> rfl

/-- What the turns of a sweep share: everything but the logs and the marks. -/
structure Shares (st st' : Store) : Prop where
  same : st' = { st with logs := st'.logs, policy := st'.policy }
  others : ∀ k, (∀ s, k ≠ pairKey (ascii "m") s) → st'.policy[k]? = st.policy[k]?

namespace Shares

theorem refl : Shares st st := ⟨rfl, fun _ _ => rfl⟩

theorem trans {st'' : Store} (h : Shares st st') (h' : Shares st' st'') : Shares st st'' := by
  refine ⟨?_, fun k hk => (h'.others k hk).trans (h.others k hk)⟩
  rw [h'.same, h.same]

theorem policyGet (h : Shares st st') (hs : bjmSubjectValid s = true) :
    st'.bjmPolicyGet s = st.bjmPolicyGet s := by
  have hk : ∀ t, pairKey (ascii "p") s ≠ pairKey (ascii "m") t := fun t heq =>
    absurd (List.cons.inj heq).1 (by decide)
  simp only [bjmPolicyGet, polKey_of_valid hs, h.others _ hk]

theorem cursors_eq (h : Shares st st') : st'.cursors = st.cursors := by rw [h.same]
theorem queues_eq (h : Shares st st') : st'.queues = st.queues := by rw [h.same]
theorem adopt_eq (h : Shares st st') : st'.adopt = st.adopt := by rw [h.same]
theorem policyOpen_eq (h : Shares st st') : st'.policyOpen = st.policyOpen := by rw [h.same]

theorem trimTarget (h : Shares st st') (last before : ℕ) (force : Bool) :
    st'.trimTarget s last before force = st.trimTarget s last before force := by
  have hprotect : st'.trimProtect s = st.trimProtect s := by
    simp only [trimProtect_eq, acks, queueFloors, h.cursors_eq, h.queues_eq]
  simp only [Store.trimTarget, hprotect]

theorem sweptBase (h : Shares st st') (hs : bjmSubjectValid s = true) (marks : Option Record) :
    sweptBase V nowS st' s log marks = sweptBase V nowS st s log marks := by
  simp only [Store.sweptBase, h.policyGet hs, h.trimTarget]

theorem sweepTurn (h : Shares st st') (hs : bjmSubjectValid s = true) :
    sweepTurn V nowS st' s = sweepTurn V nowS st s := by
  funext ⟨log, marks⟩
  cases log with
  | none => rfl
  | some log => simp only [Store.sweepTurn, h.sweptBase hs]

theorem turnRemoved (h : Shares st st') (hs : bjmSubjectValid s = true) :
    turnRemoved V nowS st' s = turnRemoved V nowS st s := by
  funext ⟨log, marks⟩
  cases log with
  | none => rfl
  | some log => simp only [Store.turnRemoved, h.sweptBase hs]

end Shares

theorem marksPrune_same (st : Store) (s : Bytes) (base : ℕ) :
    st.marksPrune s base = { st with policy := (st.marksPrune s base).policy } := by
  simp only [marksPrune, marksStore]
  cases st.marksLoad s with
  | error e => rfl
  | ok m =>
    dsimp only
    split
    · rfl
    · cases policyKey (ascii "m") s <;> rfl

theorem advance_shares (hs : bjmSubjectValid s = true) (base : ℕ) :
    Shares st (st.advance s log base) := by
  simp only [advance]
  split
  · exact .refl
  · refine ⟨?_, fun k hk => ?_⟩
    · rw [marksPrune_same]
    · rw [marksPrune_get hs, if_neg (hk s)]

theorem advance_own (hs : bjmSubjectValid s = true) (hl : st.logs[s]? = some log) (base : ℕ) :
    (st.advance s log base).ownCell s = (some (log.compact base),
      if base = log.base then st.policy[pairKey (ascii "m") s]?
      else prunedMarks base st.policy[pairKey (ascii "m") s]?) := by
  simp only [advance, ownCell]
  split
  · rename_i hbase
    rw [hl, hbase, Elog.compact_base]
  · rw [(marksPrune_marksOnly _ _ _).logs_eq, marksPrune_get hs, if_pos rfl]
    exact congrArg (Prod.mk · _) ExtTreeMap.getElem?_insert_self

theorem advance_other (hs : bjmSubjectValid s = true) {s' : Bytes} (hne : s' ≠ s) (base : ℕ) :
    (st.advance s log base).ownCell s' = st.ownCell s' := by
  have hkey : pairKey (ascii "m") s' ≠ pairKey (ascii "m") s := fun h =>
    hne (pairKey_injective (by decide) (by decide) h).2
  simp only [advance, ownCell]
  split
  · rfl
  · rw [(marksPrune_marksOnly _ _ _).logs_eq, marksPrune_get hs, if_neg hkey]
    exact congrArg (Prod.mk · _) ((getElem?_insert ..).trans (if_neg (Ne.symm hne)))

/-- The policy tree holds what the store writes there: a policy under the name of a
subject, and marks, which come in a ring of words. -/
structure PoliciesKept (st : Store) : Prop where
  policies : ∀ s r, st.policy[pairKey (ascii "p") s]? = some r →
    bjmSubjectValid s = true ∧ ∃ p : Policy, (∀ n ∈ p.ints, n < 2 ^ 64) ∧ r = policyRecord p
  marks : ∀ s r, st.policy[pairKey (ascii "m") s]? = some r →
    ∃ m, (∀ n ∈ m, n < 2 ^ 64) ∧ m.length ≤ 2 * BJM_MARKS_MAX ∧ r = marksRecord m

/-- The subject has this policy. -/
def PolicyAt (st : Store) (s : Bytes) (p : Policy) : Prop :=
  (∀ n ∈ p.ints, n < 2 ^ 64) ∧ st.policy[pairKey (ascii "p") s]? = some (policyRecord p)

theorem mem_policyScan {x : Bytes × Record} :
    x ∈ scan st.policy (ascii "p/") (ascii "p0") ↔
      st.policy[x.1]? = some x.2 ∧ (ascii "p/" <+: x.1 ∨ x.1 = ascii "p0") := by
  have hnext : ∀ x, (compare slash x).isLE = true → compare x 0x30 = .lt → x = slash := by
    intro x hlo hhi
    rw [isLE_compare, UInt8.le_iff_toNat_le] at hlo
    rw [compare_eq_lt, UInt8.lt_iff_toNat_lt] at hhi
    simp only [slash, UInt8.reduceToNat] at hlo hhi
    simp only [slash, ← UInt8.toNat_inj, UInt8.reduceToNat]
    omega
  obtain ⟨k, r⟩ := x
  rw [mem_scan]
  exact and_congr_right fun _ => between_iff_extends (by decide) hnext (ascii "p") k

/-- The subjects a sweep comes to are those with a policy. -/
theorem mem_policyNames (hk : PoliciesKept st) :
    s ∈ st.policyNames ↔ ∃ p, PolicyAt st s p := by
  simp only [policyNames, List.mem_filterMap]
  constructor
  · rintro ⟨⟨k, r⟩, hmem, hname⟩
    obtain ⟨hget, hpre | rfl⟩ := mem_policyScan.mp hmem
    · obtain ⟨t, rfl⟩ := hpre
      obtain ⟨hv, p, hw, rfl⟩ := hk.policies t r hget
      split at hname
      · contradiction
      · have ht : s = t := by
          rw [← Option.some.inj hname]
          exact cString_of_nameValid hv
        subst ht
        exact ⟨p, hw, hget⟩
    · exact absurd hname (by simp [ascii])
  · rintro ⟨p, hw, hget⟩
    obtain ⟨hv, -⟩ := hk.policies s _ hget
    have hlen := nameValid_length hv
    have hne : s ≠ [] := by
      rintro rfl
      exact absurd hv (by decide)
    have hpos := List.length_pos_iff.mpr hne
    have hkey : pairKey (ascii "p") s = ascii "p/" ++ s := rfl
    refine ⟨(pairKey (ascii "p") s, policyRecord p), mem_policyScan.mpr ⟨hget, .inl ⟨s, rfl⟩⟩, ?_⟩
    have htwo : (ascii "p/").length = 2 := rfl
    have hfits : ¬ ((pairKey (ascii "p") s).length ≤ 2 ∨
        (pairKey (ascii "p") s).length - 2 > BJM_SUBJECT_MAX) := by
      rw [hkey, List.length_append, htwo]
      omega
    rw [if_neg hfits]
    exact congrArg some (cString_of_nameValid hv)

theorem valid_of_mem_policyNames (hk : PoliciesKept st) (hs : s ∈ st.policyNames) :
    bjmSubjectValid s = true := by
  obtain ⟨p, -, hget⟩ := (mem_policyNames hk).mp hs
  exact (hk.policies s _ hget).1

theorem policyNames_nodup (hk : PoliciesKept st) : st.policyNames.Nodup := by
  have hkeys := List.pairwise_map.mp (scan_keys_nodup st.policy (ascii "p/") (ascii "p0"))
  refine List.pairwise_filterMap.mpr (hkeys.imp_of_mem ?_)
  intro x y hx hy hne a ha b hb heq
  have hkey : ∀ z ∈ scan st.policy (ascii "p/") (ascii "p0"), ∀ n,
      (if z.1.length ≤ 2 ∨ z.1.length - 2 > BJM_SUBJECT_MAX then none
        else some (cString (z.1.drop 2))) = some n → z.1 = pairKey (ascii "p") n := by
    intro z hz n hn
    obtain ⟨hget, hpre | hedge⟩ := mem_policyScan.mp hz
    · obtain ⟨t, ht⟩ := hpre
      rw [← ht] at hget hn ⊢
      obtain ⟨hv, -⟩ := hk.policies t z.2 hget
      split at hn
      · contradiction
      · rw [← Option.some.inj hn]
        exact congrArg (pairKey (ascii "p")) (cString_of_nameValid hv).symm
    · rw [hedge] at hn
      exact absurd hn (by simp [ascii])
  apply hne
  rw [hkey x hx a ha, hkey y hy b hb, heq]

theorem sweep_local (V : Vendor) (nowS : ℕ) (hopen : st.policyOpen = true)
    (hadopt : st.adopt = true) :
    Local ownCell (Shares st) (fun s => bjmSubjectValid s = true)
      (fun st' s => (st'.sweepOne V nowS s).2) (sweepTurn V nowS st) := by
  have hturn : ∀ st' s, Shares st st' → bjmSubjectValid s = true →
      (st'.sweepOne V nowS s).2 = match st'.logs[s]? with
        | none => st'
        | some log => st'.advance s log
            (sweptBase V nowS st' s log st'.policy[pairKey (ascii "m") s]?) := by
    intro st' s h hs
    cases hl : st'.logs[s]? with
    | none => rw [sweepOne_missing hs hl]
    | some log => rw [sweepOne_eq hs hl (h.policyOpen_eq.trans hopen) (h.adopt_eq.trans hadopt)]
  refine ⟨fun st' s h hs => ?_, fun st' s h hs => ?_, fun st' s s' h hs hne => ?_⟩
  · rw [hturn st' s h hs]
    split
    · exact h
    · exact h.trans (advance_shares hs _)
  · rw [hturn st' s h hs, ← h.sweepTurn hs]
    split
    · rename_i hl
      rw [ownCell, hl]
      rfl
    · rename_i log hl
      rw [advance_own hs hl, ownCell, hl]
      rfl
  · rw [hturn st' s h hs]
    split
    · rfl
    · exact advance_other hs hne _

theorem Shares.ext {a b : Store} (ha : Shares st a) (hb : Shares st b)
    (h : ∀ s, a.ownCell s = b.ownCell s) : a = b := by
  have hlogs : a.logs = b.logs := by
    apply ExtTreeMap.ext_getElem?
    intro s
    exact congrArg Prod.fst (h s)
  have hpolicy : a.policy = b.policy := by
    apply ExtTreeMap.ext_getElem?
    intro k
    by_cases hk : ∃ s, k = pairKey (ascii "m") s
    · obtain ⟨s, rfl⟩ := hk
      exact congrArg Prod.snd (h s)
    · have hne : ∀ s, k ≠ pairKey (ascii "m") s := fun s heq => hk ⟨s, heq⟩
      rw [ha.others k hne, hb.others k hne]
  rw [ha.same, hb.same, hlogs, hpolicy]

/-- One turn of the loop, with what it adds to the totals. -/
def sweepStep (V : Vendor) (nowS : ℕ) (x : ℕ × ℕ × Store) (s : Bytes) : ℕ × ℕ × Store :=
  (x.1 + (x.2.2.sweepOne V nowS s).1,
    if (x.2.2.sweepOne V nowS s).1 ≠ 0 then x.2.1 + 1 else x.2.1,
    (x.2.2.sweepOne V nowS s).2)

/-- The loop of a sweep, over any list of names. -/
def sweepNames (V : Vendor) (nowS : ℕ) (st : Store) (names : List Bytes) : ℕ × ℕ × Store :=
  names.foldl (sweepStep V nowS) (0, 0, st)

private theorem foldl_totals (f : Bytes → ℕ) (l : List Bytes) (a b : ℕ) :
    l.foldl (fun x k => (x.1 + f k, if f k ≠ 0 then x.2 + 1 else x.2)) (a, b) =
      (a + (l.map f).sum, b + l.countP fun k => decide (f k ≠ 0)) := by
  induction l generalizing a b with
  | nil => rfl
  | cons k l ih =>
    rw [List.foldl_cons, ih, List.map_cons, List.sum_cons, List.countP_cons]
    by_cases hk : f k = 0
    · simp [hk]
    · simp only [ne_eq, hk, not_false_eq_true, if_true, decide_true]
      congr 1
      · omega
      · omega

theorem sweepNames_eq (V : Vendor) (nowS : ℕ) (hopen : st.policyOpen = true)
    (hadopt : st.adopt = true) {names : List Bytes} (hv : ∀ s ∈ names, bjmSubjectValid s = true)
    (hnd : names.Nodup) :
    (sweepNames V nowS st names).2.2 =
        names.foldl (fun st' s => (st'.sweepOne V nowS s).2) st ∧
      (sweepNames V nowS st names).1 =
        (names.map fun s => turnRemoved V nowS st s (st.ownCell s)).sum ∧
      (sweepNames V nowS st names).2.1 =
        names.countP fun s => decide (turnRemoved V nowS st s (st.ownCell s) ≠ 0) := by
  have hstep : ∀ (x : ℕ × ℕ × Store) s, Shares st x.2.2 → bjmSubjectValid s = true →
      (x.2.2.sweepOne V nowS s).1 = turnRemoved V nowS st s (x.2.2.ownCell s) := by
    intro x s h hs
    rw [← h.turnRemoved hs]
    cases hl : x.2.2.logs[s]? with
    | none =>
      rw [sweepOne_missing hs hl, ownCell, hl]
      rfl
    | some log =>
      rw [sweepOne_eq hs hl (h.policyOpen_eq.trans hopen) (h.adopt_eq.trans hadopt)]
  obtain ⟨hst, htotals⟩ := (sweep_local V nowS hopen hadopt).foldl_tally
    (fun x : ℕ × ℕ × Store => x.2.2) (fun x => (x.1, x.2.1))
    (fun a s v => (a.1 + turnRemoved V nowS st s v,
      if turnRemoved V nowS st s v ≠ 0 then a.2 + 1 else a.2))
    (sweepStep V nowS)
    (fun x s h hs => ⟨rfl, by simp only [sweepStep, hstep x s h hs]⟩) (0, 0, st) .refl hv hnd
  have hsum := foldl_totals (fun s => turnRemoved V nowS st s (st.ownCell s)) names 0 0
  obtain ⟨hremoved, htrimmed⟩ := Prod.mk.inj (htotals.trans hsum)
  refine ⟨hst, hremoved.trans (Nat.zero_add _), htrimmed.trans (Nat.zero_add _)⟩

theorem sweepNames_cells (V : Vendor) (nowS : ℕ) (hopen : st.policyOpen = true)
    (hadopt : st.adopt = true) {names : List Bytes} (hv : ∀ s ∈ names, bjmSubjectValid s = true)
    (hnd : names.Nodup) :
    Shares st (sweepNames V nowS st names).2.2 ∧
      ∀ s, (sweepNames V nowS st names).2.2.ownCell s =
        if s ∈ names then sweepTurn V nowS st s (st.ownCell s) else st.ownCell s := by
  have hloc := sweep_local V nowS hopen hadopt
  rw [(sweepNames_eq V nowS hopen hadopt hv hnd).1]
  refine ⟨hloc.foldl_keeps .refl hv, fun s => ?_⟩
  split
  · rename_i hs
    exact hloc.foldl_mem .refl hv hnd hs
  · rename_i hs
    exact hloc.foldl_not_mem .refl hv hs

theorem sweepNames_perm (V : Vendor) (nowS : ℕ) (hopen : st.policyOpen = true)
    (hadopt : st.adopt = true) {names names' : List Bytes}
    (hv : ∀ s ∈ names, bjmSubjectValid s = true) (hnd : names.Nodup)
    (hperm : names'.Perm names) :
    sweepNames V nowS st names' = sweepNames V nowS st names := by
  have hv' : ∀ s ∈ names', bjmSubjectValid s = true := fun s hs => hv s (hperm.mem_iff.mp hs)
  have hnd' : names'.Nodup := hperm.nodup_iff.mpr hnd
  obtain ⟨hst, hremoved, htrimmed⟩ := sweepNames_eq V nowS hopen hadopt hv hnd
  obtain ⟨hst', hremoved', htrimmed'⟩ := sweepNames_eq V nowS hopen hadopt hv' hnd'
  have hsame := (sweep_local V nowS hopen hadopt).foldl_perm (fun a b => Shares.ext) .refl hv' hnd'
    hperm
  refine Prod.ext ?_ (Prod.ext ?_ ?_)
  · rw [hremoved, hremoved']
    exact (hperm.map _).sum_nat
  · rw [htrimmed, htrimmed']
    exact hperm.countP_eq _
  · rw [hst, hst', hsame]

end Store

end SukkalMsg
