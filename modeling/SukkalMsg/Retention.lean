import Mathlib.Data.Nat.Find
import Mathlib.Order.Bounds.Defs
import SukkalMsg.QueueSettlement

/-!
# Trimming a log

A trim drops the oldest messages of a log, up to a bound the caller asks for and
no further than what the subject's receipts and queue groups still need. Both are
found by scanning a range of their tree, and a record the decoder refuses is passed
over by the scan.
-/

namespace SukkalMsg

open Std Names Binjson OrderedScan

def Qrec.owed (q : Qrec) : ℕ := q.fl.rows.foldl (fun owed e => min owed e.index) q.next

namespace Store

/-- What each readable group of a subject lets go of. -/
def queueFloors (st : Store) (subject : Bytes) : List ℕ :=
  (subjectRange st.queues subject).filterMap fun p =>
    if p.1.length ≤ subject.length + 1 then none
    else (queueDecode p.2).toOption.map fun q => q.owed - 1

/-- How far the groups of a subject have all got, and how many there are. -/
def bjmQueueFloor (st : Store) (subject : Bytes) : ℕ × ℕ :=
  ((st.queueFloors subject).foldl min UINT64_MAX, (st.queueFloors subject).length)

def trimProtect (st : Store) (subject : Bytes) : ℕ :=
  let (nconsumers, minAcked) := st.bjmConsumerStats subject
  let protect := if nconsumers > 0 then minAcked else UINT64_MAX
  let (qfloor, ngroups) := st.bjmQueueFloor subject
  if ngroups > 0 ∧ qfloor < protect then qfloor else protect

/-- The base a trim moves to, when that is above the old one. -/
def trimTarget (st : Store) (subject : Bytes) (last before : ℕ) (force : Bool) : ℕ :=
  let newBase := min (before - 1) last
  if force then newBase
  else if st.trimProtect subject ≠ UINT64_MAX ∧ newBase > st.trimProtect subject then
    st.trimProtect subject
  else newBase

/-- Drop the messages below `before`: the base afterwards, and how many went. -/
def bjmTrim (st : Store) (subject : Bytes) (before : ℕ) (force : Bool) :
    Except BjErr (ℕ × ℕ × Store) :=
  if !st.adopt then .error .state
  else match st.subjectGet subject false with
    | .error e => .error e
    | .ok log =>
      let newBase := st.trimTarget subject log.last before force
      if newBase ≤ log.base then .ok (log.base, 0, st)
      else
        let st := { st with logs := st.logs.insert subject (log.compact newBase) }
        .ok (newBase, newBase - log.base, if st.policyOpen then st.marksPrune subject newBase else st)

/-- The trees hold what the store writes: a key of two valid names, and a receipt
or a group under it. -/
structure Kept (st : Store) : Prop where
  receipts : ∀ k r, st.cursors[k]? = some r → ∃ s c n, bjmSubjectValid s = true ∧
    bjmConsumerValid c = true ∧ k = pairKey s c ∧ n < 2 ^ 64 ∧ r = indexRecord n
  groups : ∀ k r, st.queues[k]? = some r → ∃ s g q, bjmSubjectValid s = true ∧
    bjmGroupValid g = true ∧ k = pairKey s g ∧ q.Words ∧ r = queueRecord q

/-- A consumer holds a receipt for `n` on the subject. -/
def ReceiptAt (st : Store) (s : Bytes) (n : ℕ) : Prop :=
  ∃ c, bjmConsumerValid c = true ∧ n < 2 ^ 64 ∧ st.cursors[pairKey s c]? = some (indexRecord n)

def GroupAt (st : Store) (s : Bytes) (q : Qrec) : Prop :=
  ∃ g, bjmGroupValid g = true ∧ q.Words ∧ st.queues[pairKey s g]? = some (queueRecord q)

/-- A receipt or a group of the subject, with such a record, lets go up to `b`. -/
def Bound (st : Store) (s : Bytes) (such : Record → Prop) (b : ℕ) : Prop :=
  (ReceiptAt st s b ∧ such (indexRecord b)) ∨
    ∃ q, GroupAt st s q ∧ such (queueRecord q) ∧ b = q.owed - 1

/-- Where a trim may go: what is asked for, what there is, and what records allow. -/
def TrimBounds (st : Store) (s : Bytes) (before : ℕ) (such : Record → Prop) : Set ℕ :=
  {b | b = before - 1 ∨ b = (st.logOf s).last ∨ Bound st s such b}

/-- A trim that took nothing that is still owed, and all it was asked to. -/
structure TrimKept (st : Store) (s : Bytes) (before base removed : ℕ) (st' : Store) : Prop where
  acked : ∀ i, ((st.logOf s).get i).isSome = true → (st'.logOf s).get i = none →
    ∀ n, ReceiptAt st s n → i ≤ n
  run : ∀ i, ((st.logOf s).get i).isSome = true → (st'.logOf s).get i = none →
    ∀ q, GroupAt st s q → i < q.next ∧ ∀ e ∈ q.fl.rows, i < e.index
  base_eq : (st'.logOf s).base = base
  last_eq : (st'.logOf s).last = (st.logOf s).last
  rest : ∀ i, base < i → (st'.logOf s).get i = (st.logOf s).get i
  forward : (st.logOf s).base ≤ base
  within : base ≤ (st'.logOf s).last
  exact : ∃ m, IsLeast (TrimBounds st s before fun _ => True) m ∧ base = max (st.logOf s).base m
  removed_eq : removed = base - (st.logOf s).base

end Store

theorem foldl_min_isLeast (l : List ℕ) (a : ℕ) :
    IsLeast {b | b = a ∨ b ∈ l} (l.foldl min a) := by
  induction l generalizing a with
  | nil =>
    refine ⟨.inl rfl, fun b hb => ?_⟩
    rcases hb with rfl | hb
    · exact Nat.le_refl _
    · exact absurd hb List.not_mem_nil
  | cons x l ih =>
    obtain ⟨hmem, hlow⟩ := ih (min a x)
    refine ⟨?_, fun b hb => ?_⟩
    · rcases hmem with h | h
      · simp only [List.foldl_cons, h]
        rcases Nat.le_total a x with hx | hx
        · exact .inl (Nat.min_eq_left hx)
        · exact .inr (by simp [Nat.min_eq_right hx])
      · exact .inr (List.mem_cons_of_mem _ h)
    · have hmin : l.foldl min (min a x) ≤ min a x := hlow (.inl rfl)
      rcases hb with rfl | hb
      · exact Nat.le_trans hmin (Nat.min_le_left _ _)
      · rcases List.mem_cons.mp hb with rfl | hb
        · exact Nat.le_trans hmin (Nat.min_le_right _ _)
        · exact hlow (.inr hb)

namespace Qrec

theorem owed_isLeast (q : Qrec) : IsLeast {b | b = q.next ∨ ∃ e ∈ q.fl.rows, b = e.index} q.owed := by
  have h := foldl_min_isLeast (q.fl.rows.map Slot.index) q.next
  rw [List.foldl_map] at h
  simpa [owed, eq_comm] using h

theorem lt_of_lt_owed {q : Qrec} {i : ℕ} (h : i < q.owed) :
    i < q.next ∧ ∀ e ∈ q.fl.rows, i < e.index :=
  ⟨Nat.lt_of_lt_of_le h (q.owed_isLeast.2 (.inl rfl)),
    fun e he => Nat.lt_of_lt_of_le h (q.owed_isLeast.2 (.inr ⟨e, he, rfl⟩))⟩

end Qrec

namespace Store

variable {st st' : Store} {s : Bytes} {before base removed : ℕ}

theorem Bound.any {such : Record → Prop} {b : ℕ} (h : Bound st s such b) :
    Bound st s (fun _ => True) b := by
  rcases h with ⟨hr, -⟩ | ⟨q, hq, -, he⟩
  · exact .inl ⟨hr, trivial⟩
  · exact .inr ⟨q, hq, trivial, he⟩

theorem mem_subjectRange {t : Tree} {n : Bytes} {s' : Bytes} {r : Record} (hs : slash ∉ s)
    (hs' : slash ∉ s') :
    (pairKey s' n, r) ∈ subjectRange t s ↔ s' = s ∧ t[pairKey s' n]? = some r := by
  have hnext : ∀ x, (compare slash x).isLE = true → compare x 0x30 = .lt → x = slash := by
    intro x hlo hhi
    rw [isLE_compare, UInt8.le_iff_toNat_le] at hlo
    rw [compare_eq_lt, UInt8.lt_iff_toNat_lt] at hhi
    simp only [slash, UInt8.reduceToNat] at hlo hhi
    simp only [slash, ← UInt8.toNat_inj, UInt8.reduceToNat]
    omega
  rw [subjectRange, mem_scan, between_iff_extends (by decide) hnext]
  have hkey : s ++ [slash] <+: pairKey s' n ↔ s' = s := by
    constructor
    · rintro ⟨t, ht⟩
      rw [List.append_assoc, List.singleton_append] at ht
      exact (split_at_mark hs hs' ht).1.symm
    · rintro rfl
      exact ⟨n, by simp [pairKey]⟩
  have hend : pairKey s' n ≠ s ++ [0x30] := by
    intro h
    have hm : slash ∈ s ++ [0x30] := h ▸ List.mem_append_right _ List.mem_cons_self
    rcases List.mem_append.mp hm with hm | hm
    · exact hs hm
    · exact absurd hm (by decide)
  simp only [hkey, hend, or_false]
  exact and_comm

theorem mem_acks (hk : Kept st) (hs : bjmSubjectValid s = true) {n : ℕ} :
    n ∈ st.acks s ↔ ReceiptAt st s n ∧ Readable (indexRecord n) := by
  have hslash := slash_notMem_of_nameValid hs
  simp only [acks, List.mem_filterMap]
  constructor
  · rintro ⟨⟨k, r⟩, hmem, hd⟩
    have hget := (mem_scan.mp hmem).1
    obtain ⟨s', c, m, hs', hc, rfl, hm, rfl⟩ := hk.receipts k r hget
    obtain ⟨rfl, -⟩ := (mem_subjectRange hslash (slash_notMem_of_nameValid hs')).mp hmem
    have hr : Readable (indexRecord m) := by
      by_contra hr
      simp [decodeIndex_unreadable hr, Except.toOption] at hd
    simp only [decodeIndex_eq _ hr, foldl_grabInt_indexRecord, ofDouble_toInt64 hm,
      Except.toOption, Option.some.injEq] at hd
    subst hd
    exact ⟨⟨c, hc, hm, hget⟩, hr⟩
  · rintro ⟨⟨c, hc, hn, hget⟩, hr⟩
    refine ⟨_, (mem_subjectRange hslash hslash).mpr ⟨rfl, hget⟩, ?_⟩
    simp only [decodeIndex_eq _ hr, foldl_grabInt_indexRecord, ofDouble_toInt64 hn, Except.toOption]

theorem mem_queueFloors (hk : Kept st) (hs : bjmSubjectValid s = true) {b : ℕ} :
    b ∈ st.queueFloors s ↔ ∃ q, GroupAt st s q ∧ Readable (queueRecord q) ∧ b = q.owed - 1 := by
  have hslash := slash_notMem_of_nameValid hs
  simp only [queueFloors, List.mem_filterMap]
  constructor
  · rintro ⟨⟨k, r⟩, hmem, hd⟩
    have hget := (mem_scan.mp hmem).1
    obtain ⟨s', g, q, hs', hg, rfl, hw, rfl⟩ := hk.groups k r hget
    obtain ⟨rfl, -⟩ := (mem_subjectRange hslash (slash_notMem_of_nameValid hs')).mp hmem
    split at hd
    · contradiction
    · have hr : Readable (queueRecord q) := by
        by_contra hr
        simp [queueDecode_of_unreadable hr, Except.toOption] at hd
      simp only [queueDecode_of_readable hw hr, Except.toOption, Option.map_some,
        Option.some.injEq] at hd
      exact ⟨q, ⟨g, hg, hw, hget⟩, hr, hd.symm⟩
  · rintro ⟨q, ⟨g, hg, hw, hget⟩, hr, rfl⟩
    refine ⟨_, (mem_subjectRange hslash hslash).mpr ⟨rfl, hget⟩, ?_⟩
    have hne : g ≠ [] := by
      rintro rfl
      exact absurd hg (by decide)
    have hlen : ¬ (pairKey s g).length ≤ s.length + 1 := by
      have := List.length_pos_iff.mpr hne
      simp only [pairKey, List.length_append, List.length_cons]
      omega
    simp only [hlen, if_false, queueDecode_of_readable hw hr, Except.toOption, Option.map_some]

theorem trimProtect_eq (st : Store) (s : Bytes) :
    st.trimProtect s = (st.acks s ++ st.queueFloors s).foldl min UINT64_MAX := by
  have hsplit : ∀ (l : List ℕ) (a : ℕ), a ≤ UINT64_MAX →
      l.foldl min a = min a (l.foldl min UINT64_MAX) := by
    intro l
    induction l with
    | nil => exact fun a ha => (Nat.min_eq_left ha).symm
    | cons x l ih =>
      intro a ha
      simp only [List.foldl_cons]
      rw [ih (min a x) (by omega), ih (min UINT64_MAX x) (by omega)]
      omega
  have hle : ∀ l : List ℕ, l.foldl min UINT64_MAX ≤ UINT64_MAX :=
    fun l => (foldl_min_isLeast l UINT64_MAX).2 (.inl rfl)
  have hnone : ∀ l : List ℕ, l.length = 0 → l.foldl min UINT64_MAX = UINT64_MAX := by
    intro l h
    rw [List.length_eq_zero_iff.mp h]
    rfl
  rw [List.foldl_append, hsplit _ _ (hle (st.acks s))]
  rcases hstats : st.bjmConsumerStats s with ⟨nconsumers, minAcked⟩
  rcases hfloor : st.bjmQueueFloor s with ⟨qfloor, ngroups⟩
  obtain ⟨hn, rfl⟩ := Prod.mk.inj hstats
  obtain ⟨rfl, hg⟩ := Prod.mk.inj hfloor
  have hacks := hle (st.acks s)
  have hgroups := hle (st.queueFloors s)
  have hnoacks := hnone (st.acks s)
  have hnogroups := hnone (st.queueFloors s)
  rw [hn] at hnoacks
  rw [hg] at hnogroups
  simp only [trimProtect, hstats, hfloor]
  split <;> split at * <;> omega

theorem trimTarget_isLeast (hk : Kept st) (hs : bjmSubjectValid s = true)
    (hbefore : before < 2 ^ 64) :
    IsLeast (TrimBounds st s before Readable)
      (st.trimTarget s (st.logOf s).last before false) := by
  have hprotect := trimProtect_eq st s
  have hleast := foldl_min_isLeast (st.acks s ++ st.queueFloors s) UINT64_MAX
  rw [← hprotect] at hleast
  have hbound : ∀ b, b ∈ st.acks s ++ st.queueFloors s ↔ Bound st s Readable b := by
    intro b
    rw [List.mem_append, mem_acks hk hs, mem_queueFloors hk hs]
    rfl
  have hmax : UINT64_MAX = 2 ^ 64 - 1 := rfl
  have hfalse : st.trimTarget s (st.logOf s).last before false =
      min (min (before - 1) (st.logOf s).last) (st.trimProtect s) := by
    simp only [trimTarget, Bool.false_eq_true, if_false]
    split <;> omega
  have hasked : min (before - 1) (st.logOf s).last ∈ TrimBounds st s before Readable := by
    rcases Nat.le_total (before - 1) (st.logOf s).last with h | h
    · exact .inl (Nat.min_eq_left h)
    · exact .inr (.inl (Nat.min_eq_right h))
  rw [hfalse]
  refine ⟨?_, fun b hb => ?_⟩
  · rcases hleast.1 with h | h
    · rw [Nat.min_eq_left (by omega)]
      exact hasked
    · rcases Nat.le_total (min (before - 1) (st.logOf s).last) (st.trimProtect s) with hle | hle
      · rw [Nat.min_eq_left hle]
        exact hasked
      · rw [Nat.min_eq_right hle]
        exact .inr (.inr ((hbound _).mp h))
  · rcases hb with rfl | rfl | hb
    · omega
    · omega
    · have := hleast.2 (.inr ((hbound b).mpr hb))
      omega

theorem trimTarget_le (st : Store) (s : Bytes) (last before : ℕ) (force : Bool) :
    st.trimTarget s last before force ≤ last := by
  simp only [trimTarget]
  split
  · omega
  · split <;> omega

theorem bjmTrim_eq {force : Bool} (h : st.bjmTrim s before force = .ok (base, removed, st')) :
    base = max (st.logOf s).base (st.trimTarget s (st.logOf s).last before force) ∧
      removed = base - (st.logOf s).base ∧
      (base = (st.logOf s).base ∧ st'.logOf s = st.logOf s ∨
        (st.logOf s).base < base ∧ st'.logOf s = (st.logOf s).compact base) := by
  simp only [bjmTrim] at h
  split at h
  · contradiction
  split at h
  · contradiction
  rename_i log hget
  obtain ⟨-, hlog, rfl⟩ := subjectGet_logOf hget
  split at h
  · rename_i hle
    obtain ⟨rfl, rfl, rfl⟩ := by simpa using h
    exact ⟨(Nat.max_eq_left hle).symm, (Nat.sub_self _).symm, .inl ⟨rfl, rfl⟩⟩
  · rename_i hgt
    obtain ⟨rfl, rfl, rfl⟩ := by simpa using h
    refine ⟨(Nat.max_eq_right (by omega)).symm, rfl, .inr ⟨by omega, ?_⟩⟩
    have hlogs : ∀ st₁ : Store, st₁.logs = st.logs.insert s ((st.logOf s).compact
        (st.trimTarget s (st.logOf s).last before force)) → st₁.logOf s =
          (st.logOf s).compact (st.trimTarget s (st.logOf s).last before force) :=
      fun st₁ h₁ => by rw [logOf_insert h₁, if_pos rfl]
    split
    · exact hlogs _ (marksPrune_marksOnly _ _ _).logs_eq
    · exact hlogs _ rfl

theorem bjmTrim_log {force : Bool} (h : st.bjmTrim s before force = .ok (base, removed, st')) :
    (st'.logOf s).base = base ∧ (st'.logOf s).last = (st.logOf s).last ∧
      (st.logOf s).base ≤ base ∧ base ≤ (st'.logOf s).last ∧
      ∀ i, base < i → (st'.logOf s).get i = (st.logOf s).get i := by
  obtain ⟨hbase, -, hlog⟩ := bjmTrim_eq h
  have hlast := st.trimTarget_le s (st.logOf s).last before force
  have hown : (st.logOf s).base ≤ (st.logOf s).last := Nat.le_add_right _ _
  rcases hlog with ⟨hb, hl⟩ | ⟨hb, hl⟩
  · rw [hl]
    exact ⟨hb.symm, rfl, by omega, by omega, fun _ _ => rfl⟩
  · have hcl : ((st.logOf s).compact base).last = (st.logOf s).last :=
      Elog.compact_last (by omega) (by omega)
    rw [hl]
    exact ⟨rfl, hcl, by omega, by omega, fun i hi => Elog.get_compact (by omega) hi⟩

/-- An unforced trim keeps what is still owed exactly when every receipt and group
that does not read back lets go of as much as the others let the trim take. -/
theorem trim_kept_iff (hk : Kept st) (hs : bjmSubjectValid s = true) (hbefore : before < 2 ^ 64)
    (h : st.bjmTrim s before false = .ok (base, removed, st')) :
    TrimKept st s before base removed st' ↔
      ∀ b, Bound st s (fun r => ¬ Readable r) b →
        ∀ m, IsLeast (TrimBounds st s before Readable) m → m ≤ max (st.logOf s).base b := by
  have hleast := trimTarget_isLeast hk hs hbefore
  obtain ⟨hbase, hremoved, -⟩ := bjmTrim_eq h
  obtain ⟨hb', hl', hforward, hwithin, hrest⟩ := bjmTrim_log h
  generalize st.trimTarget s (st.logOf s).last before false = t at hleast hbase
  constructor
  · intro hkept b hb m hm
    obtain ⟨m', hm', heq⟩ := hkept.exact
    have hmt : m ≤ t := hm.2 hleast.1
    have hmb : m' ≤ b := hm'.2 (.inr (.inr hb.any))
    omega
  · intro hcond
    have hne : ∃ b, b ∈ TrimBounds st s before fun _ => True := ⟨_, .inl rfl⟩
    obtain ⟨m, hm⟩ : ∃ m, IsLeast (TrimBounds st s before fun _ => True) m := by
      classical
      exact ⟨Nat.find hne, Nat.find_spec hne, fun b hb => Nat.find_min' hne hb⟩
    have hmt : m ≤ t := hm.2 (hleast.1.imp_right fun ht => ht.imp_right Bound.any)
    have hexact : base = max (st.logOf s).base m := by
      have htm : t ≤ max (st.logOf s).base m := by
        rcases hm.1 with hm' | hm' | hm'
        · exact Nat.le_trans (hleast.2 (.inl hm')) (Nat.le_max_right _ _)
        · exact Nat.le_trans (hleast.2 (.inr (.inl hm'))) (Nat.le_max_right _ _)
        · by_cases hr : Bound st s Readable m
          · exact Nat.le_trans (hleast.2 (.inr (.inr hr))) (Nat.le_max_right _ _)
          · refine hcond m ?_ t hleast
            rcases hm' with ⟨ha, -⟩ | ⟨q, hq, -, he⟩
            · exact .inl ⟨ha, fun hread => hr (.inl ⟨ha, hread⟩)⟩
            · exact .inr ⟨q, hq, fun hread => hr (.inr ⟨q, hq, hread, he⟩), he⟩
      omega
    have hgone : ∀ i, ((st.logOf s).get i).isSome = true → (st'.logOf s).get i = none →
        0 < i ∧ i ≤ m := by
      intro i hi hnone
      obtain ⟨hlo, -⟩ := Elog.get_isSome_iff.mp hi
      have hle : i ≤ base := by
        by_contra hgt
        rw [hrest i (by omega)] at hnone
        simp [hnone] at hi
      omega
    refine ⟨fun i hi hnone n hn => ?_, fun i hi hnone q hq => ?_, hb', hl', hrest, hforward,
      hwithin, ⟨m, hm, hexact⟩, hremoved⟩
    · exact Nat.le_trans (hgone i hi hnone).2 (hm.2 (.inr (.inr (.inl ⟨hn, trivial⟩))))
    · have hmq : m ≤ q.owed - 1 := hm.2 (.inr (.inr (.inr ⟨q, hq, trivial, rfl⟩)))
      have hi' := hgone i hi hnone
      exact Qrec.lt_of_lt_owed (by omega)

namespace Kept

theorem empty : Kept Store.empty :=
  ⟨fun k r h => by simp [Store.empty] at h, fun k r h => by simp [Store.empty] at h⟩

theorem congr (hk : Kept st) (hc : st'.cursors = st.cursors) (hq : st'.queues = st.queues) :
    Kept st' :=
  ⟨fun k r h => hk.receipts k r (hc ▸ h), fun k r h => hk.groups k r (hq ▸ h)⟩

theorem publish {now n : ℕ} {e : Entry} (hk : Kept st)
    (h : st.bjmPublish now s e = .ok (n, st')) : Kept st' :=
  hk.congr (bjmPublish_eq h).2.2.cursors_eq (bjmPublish_eq h).2.2.queues_eq

theorem cursorSet {c : Bytes} {n : ℕ} (hk : Kept st) (hs : bjmSubjectValid s = true)
    (hc : bjmConsumerValid c = true) (hn : n < 2 ^ 64) (h : st.bjmCursorSet s c n = .ok st') :
    Kept st' := by
  rcases bjmCursorSet_eq h with ⟨rfl, -⟩ | ⟨rfl, -⟩
  · exact hk
  · refine ⟨fun k r hr => ?_, hk.groups⟩
    simp only [getElem?_insert] at hr
    split at hr
    · rename_i hkey
      exact ⟨s, c, n, hs, hc, hkey.symm, hn, (Option.some.inj hr).symm⟩
    · exact hk.receipts k r hr

theorem queueStore {g : Bytes} {q : Qrec} (hk : Kept st) (hs : bjmSubjectValid s = true)
    (hg : bjmGroupValid g = true) (hw : q.Words) (h : st.queueStore s g q = .ok st') : Kept st' := by
  rw [queueStore_of_key (by simp [queueKey_of_valid hs hg])] at h
  obtain rfl := Except.ok.inj h
  refine ⟨hk.receipts, fun k r hr => ?_⟩
  simp only [getElem?_insert] at hr
  split at hr
  · rename_i hkey
    exact ⟨s, g, q, hs, hg, hkey.symm, hw, (Option.some.inj hr).symm⟩
  · exact hk.groups k r hr

end Kept

def longLeaseGroup : Qrec := { Qrec.fresh 1 with leaseMs := 2 ^ 53 }

/-- Two jobs are published, and a group is configured for them. -/
def longLease : Except BjErr Store := do
  let (_, st) ← Store.empty.bjmPublish 0 (ascii "jobs") ⟨BJM_ENTRY_PLAIN, [7]⟩
  let (_, st) ← st.bjmPublish 0 (ascii "jobs") ⟨BJM_ENTRY_PLAIN, [8]⟩
  st.bjmQueueConfig (ascii "jobs") (ascii "workers") (2 ^ 53) BJM_MAX_ATTEMPTS_DEFAULT
    BJM_BACKOFF_DEFAULT_MS BJM_MAX_BACKOFF_DEFAULT_MS

def longLeaseStore : Store := longLease.toOption.getD .empty

theorem longLeaseStore_eq : longLease = .ok longLeaseStore ∧ longLeaseStore.cursors = ∅ ∧
    longLeaseStore.queues = (∅ : Tree).insert (pairKey (ascii "jobs") (ascii "workers"))
      (queueRecord longLeaseGroup) := ⟨rfl, rfl, rfl⟩

theorem longLeaseStore_kept : Kept longLeaseStore := by
  obtain ⟨-, hcursors, hqueues⟩ := longLeaseStore_eq
  have hstored := Kept.empty.queueStore (by decide) (by decide) (by decide)
    (queueStore_of_key (show (queueKey (ascii "jobs") (ascii "workers")).isSome = true by decide)
      longLeaseGroup)
  exact hstored.congr hcursors hqueues

/-- An unforced trim drops both jobs, and the group has not been handed either. -/
theorem longLease_trimmed :
    longLease = .ok longLeaseStore ∧ Kept longLeaseStore ∧
    GroupAt longLeaseStore (ascii "jobs") longLeaseGroup ∧ longLeaseGroup.next = 1 ∧
    ∃ st', longLeaseStore.bjmTrim (ascii "jobs") 3 false = .ok (2, 2, st') ∧
      ((longLeaseStore.logOf (ascii "jobs")).get 1).isSome = true ∧
      (st'.logOf (ascii "jobs")).get 1 = none ∧
      ¬ TrimKept longLeaseStore (ascii "jobs") 3 2 2 st' := by
  have hgroup : GroupAt longLeaseStore (ascii "jobs") longLeaseGroup :=
    ⟨ascii "workers", by decide, by decide, rfl⟩
  refine ⟨rfl, longLeaseStore_kept, hgroup, rfl, _, rfl, rfl, rfl, fun h => ?_⟩
  have hrun := (h.run 1 rfl rfl longLeaseGroup hgroup).1
  exact absurd hrun (by decide)

theorem longLease_trim_kept_iff :
    ∃ st', longLeaseStore.bjmTrim (ascii "jobs") 3 false = .ok (2, 2, st') ∧
      (TrimKept longLeaseStore (ascii "jobs") 3 2 2 st' ↔
        ∀ b, Bound longLeaseStore (ascii "jobs") (fun r => ¬ Readable r) b →
          ∀ m, IsLeast (TrimBounds longLeaseStore (ascii "jobs") 3 Readable) m →
            m ≤ max (longLeaseStore.logOf (ascii "jobs")).base b) :=
  ⟨_, rfl, trim_kept_iff longLeaseStore_kept (by decide) (by decide) rfl⟩

end Store

end SukkalMsg
