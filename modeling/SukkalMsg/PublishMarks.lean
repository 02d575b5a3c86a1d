import SukkalMsg.RetentionSweep
import SukkalMsg.TimedMarks

/-!
# What the marks of a subject say

A subject with an age limit has marks: the index of a message, and the second it was
published in. They are written by some publishes, cut at the ring's end, pruned by
trims and dropped with the policy, but a mark that is there is always one of the
messages published, so what is numbered up to it is at least as old.
-/

namespace SukkalMsg

open Std Names Binjson OrderedScan ActionRuns TimedMarks Store

/-- What happens to the logs, the policies and the broker. -/
inductive RetentionOp where
  | publish (now : ℕ) (s : Bytes) (e : Entry)
  | policySet (s : Bytes) (p : Policy)
  | policyClear (s : Bytes)
  | trim (s : Bytes) (before : ℕ) (force : Bool)
  | restart
  | sweep (now : ℕ)

/-- A message was published, in this second. -/
structure PublishedAt where
  subject : Bytes
  index : ℕ
  timeS : ℕ

def retentionExec (V : Vendor) (st : Store) : RetentionOp → List PublishedAt × Store
  | .publish now s e => match st.bjmPublish now s e with
    | .error _ => ([], st)
    | .ok (index, st') => ([⟨s, index, now / 1000⟩], st')
  | .policySet s p => match st.bjmPolicySet s p with
    | .error _ => ([], st)
    | .ok st' => ([], st')
  | .policyClear s => match st.bjmPolicyClear s with
    | .error _ => ([], st)
    | .ok (_, st') => ([], st')
  | .trim s before force => match st.bjmTrim s before force with
    | .error _ => ([], st)
    | .ok (_, _, st') => ([], st')
  | .restart => ([], st.restart)
  | .sweep now => ([], (st.bjmRetentionRun V (now / 1000)).2.2)

/-- The clock does not go back, the names are valid, and numbers have 64 bits. -/
def RetentionOp.InOrder (h : List PublishedAt) (st : Store) : RetentionOp → Prop
  | .publish now s _ => bjmSubjectValid s = true ∧ (∀ e ∈ h, e.timeS ≤ now / 1000) ∧
      now < 2 ^ 64 ∧ (st.logOf s).last + 1 < 2 ^ 64
  | .policySet s p => bjmSubjectValid s = true ∧ ∀ n ∈ p.ints, n < 2 ^ 64
  | .policyClear s => bjmSubjectValid s = true
  | .trim s _ _ => bjmSubjectValid s = true
  | .restart => True
  | .sweep _ => True

instance RetentionOp.decidableInOrder (h : List PublishedAt) (st : Store) (op : RetentionOp) :
    Decidable (op.InOrder h st) := by
  cases op <;> unfold RetentionOp.InOrder <;> infer_instance

/-- The messages published to a subject: their indexes and times. -/
def published (h : List PublishedAt) (s : Bytes) : List (ℕ × ℕ) :=
  h.filterMap fun e => if e.subject = s then some (e.index, e.timeS) else none

theorem mem_published {h : List PublishedAt} {s : Bytes} {a : ℕ × ℕ} :
    a ∈ published h s ↔ (⟨s, a.1, a.2⟩ : PublishedAt) ∈ h := by
  simp only [published, List.mem_filterMap]
  constructor
  · rintro ⟨⟨s', i, t⟩, he, heq⟩
    split at heq
    · rename_i hs
      obtain rfl := hs
      obtain rfl := Option.some.inj heq
      exact he
    · contradiction
  · intro he
    exact ⟨_, he, if_pos rfl⟩

theorem published_snoc (h : List PublishedAt) (e : PublishedAt) (s : Bytes) :
    published (h ++ [e]) s =
      published h s ++ if e.subject = s then [(e.index, e.timeS)] else [] := by
  simp only [published, List.filterMap_append, List.filterMap_cons, List.filterMap_nil]
  split
  · rename_i hnone
    split at hnone
    · contradiction
    · rename_i hne
      rw [if_neg hne]
  · rename_i a hsome
    split at hsome
    · rename_i heq
      rw [if_pos heq, Option.some.inj hsome]
    · contradiction

/-- What the marks of a subject promise, as numbers in the record. -/
structure MarksSound (h : List PublishedAt) (s : Bytes) (m : List ℕ) : Prop where
  even : m.length % 2 = 0
  bounded : m.length ≤ 2 * BJM_MARKS_MAX
  ordered : (pairs m).Pairwise fun a b => a.1 < b.1 ∧ a.2 ≤ b.2
  sound : ∀ a ∈ pairs m, ∀ e ∈ h, e.subject = s → e.index ≤ a.1 → e.timeS ≤ a.2

namespace Store

/-- The marks a subject has, none when there is no record of them. -/
def MarksOf (st : Store) (s : Bytes) (m : List (ℕ × ℕ)) : Prop :=
  st.policy[pairKey (ascii "m") s]? = some (marksRecord (laid m)) ∨
    st.policy[pairKey (ascii "m") s]? = none ∧ m = []

/-- A full ring loses its oldest mark before it takes another. -/
def ringRoom (m : List ℕ) : List ℕ := if m.length + 2 > BJM_MARKS_MAX * 2 then m.drop 2 else m

variable {st st' : Store} {s : Bytes} {now index base : ℕ} {m : List (ℕ × ℕ)}

theorem bjmPublish_store {e : Entry} (h : st.bjmPublish now s e = .ok (index, st')) :
    st' = ({ st with logs := st.logs.insert s ((st.logOf s).append e) } : Store).markPublish now s
      index := by
  simp only [bjmPublish, subjectGet, logOf] at h ⊢
  split at h
  · contradiction
  · rename_i log hget
    obtain ⟨rfl, rfl⟩ := Prod.mk.inj (Except.ok.inj h)
    split at hget
    · contradiction
    · cases hl : st.logs[s]? with
      | none =>
        simp only [hl, if_true] at hget
        obtain rfl := Except.ok.inj hget
        rfl
      | some log' =>
        simp only [hl] at hget
        obtain rfl := Except.ok.inj hget
        rfl

/-- A full ring of marks loses its oldest. -/
def markRoom (m : List (ℕ × ℕ)) : List (ℕ × ℕ) :=
  if m.length + 1 > BJM_MARKS_MAX then m.drop 1 else m

theorem ringRoom_laid (m : List (ℕ × ℕ)) (a : ℕ × ℕ) :
    ringRoom (laid m) ++ [a.1, a.2] = laid (markRoom m ++ [a]) := by
  rw [laid_append]
  simp only [ringRoom, markRoom, length_laid, laid_drop]
  by_cases hfull : m.length + 1 > BJM_MARKS_MAX
  · rw [if_pos hfull, if_pos (by omega)]
    rfl
  · rw [if_neg hfull, if_neg (by omega)]
    rfl

theorem markRoom_sublist (m : List (ℕ × ℕ)) : (markRoom m).Sublist m := by
  simp only [markRoom]
  split
  · exact List.drop_sublist 1 m
  · exact .refl m

theorem length_markRoom {m : List (ℕ × ℕ)} (h : m.length ≤ BJM_MARKS_MAX) :
    (markRoom m).length + 1 ≤ BJM_MARKS_MAX := by
  have hmax : BJM_MARKS_MAX = 256 := rfl
  simp only [markRoom]
  split
  · rw [List.length_drop]
    omega
  · omega

/-- A publish writes a mark after those there are, or none. -/
theorem markPublish_policy (st : Store) (hs : bjmSubjectValid s = true) (now index : ℕ) :
    (st.markPublish now s index).policy = st.policy ∨
      ∃ m, marksRead st.policy[pairKey (ascii "m") s]? = .ok m ∧
        (st.markPublish now s index).policy = st.policy.insert (pairKey (ascii "m") s)
          (marksRecord (ringRoom m ++ [index, now / 1000])) := by
  have hmark : ∀ (st : Store) (sub : Subject),
      (st.markSubject now s sub index).policy = st.policy ∨
        ∃ m, marksRead st.policy[pairKey (ascii "m") s]? = .ok m ∧
          (st.markSubject now s sub index).policy = st.policy.insert (pairKey (ascii "m") s)
            (marksRecord (ringRoom m ++ [index, now / 1000])) := by
    intro st sub
    simp only [markSubject]
    split
    · exact .inl rfl
    split
    · exact .inl rfl
    rw [marksLoad_eq hs]
    cases hm : marksRead st.policy[pairKey (ascii "m") s]? with
    | error e => exact .inl rfl
    | ok m =>
      simp only [marksStore, marksKey_of_valid hs]
      exact .inr ⟨m, rfl, rfl⟩
  simp only [markPublish]
  split
  · exact hmark _ _
  · split
    · exact .inl rfl
    · exact hmark _ _

theorem liveMarks_laid (base : ℕ) (m : List (ℕ × ℕ)) :
    liveMarks base (laid m) = laid (m.filter fun a => base < a.1) := by
  induction m with
  | nil => rfl
  | cons a m ih =>
    by_cases ha : a.1 ≤ base
    · rw [List.filter_cons_of_neg (by simpa using ha)]
      simp only [laid, liveMarks, if_pos ha, ih]
    · rw [List.filter_cons_of_pos (by simpa using ha)]
      simp only [laid, liveMarks, if_neg ha, ih]

theorem MarksOf.marksAt (h : MarksOf st s m) (hlen : m.length ≤ BJM_MARKS_MAX)
    (hw : ∀ a ∈ m, a.1 < 2 ^ 64 ∧ a.2 < 2 ^ 64) : MarksAt st s (laid m) := by
  refine ⟨fun n hn => ?_, by rw [length_laid]; omega, ?_⟩
  · obtain ⟨a, ha, rfl | rfl⟩ := mem_laid.mp hn
    · exact (hw a ha).1
    · exact (hw a ha).2
  · rcases h with h | ⟨h, rfl⟩
    · exact .inl h
    · exact .inr ⟨h, rfl⟩

theorem MarksOf.pruned (h : MarksOf st s m) (hlen : m.length ≤ BJM_MARKS_MAX)
    (hw : ∀ a ∈ m, a.1 < 2 ^ 64 ∧ a.2 < 2 ^ 64)
    (hst : st'.policy[pairKey (ascii "m") s]? =
      prunedMarks base st.policy[pairKey (ascii "m") s]?) :
    MarksOf st' s m ∨ MarksOf st' s (m.filter fun a => base < a.1) := by
  have hread := marksRead_at (h.marksAt hlen hw)
  simp only [prunedMarks] at hst
  rw [hread] at hst
  by_cases hr : Readable (marksRecord (laid m))
  · simp only [if_pos hr] at hst
    split at hst
    · exact .inl (by simpa only [MarksOf, hst] using h)
    · rw [liveMarks_laid] at hst
      exact .inr (.inl hst)
  · simp only [if_neg hr] at hst
    exact .inl (by simpa only [MarksOf, hst] using h)

theorem bjmTrim_marks {name : Bytes} {before removed : ℕ} {force : Bool}
    (hn : bjmSubjectValid name = true)
    (h : st.bjmTrim name before force = .ok (base, removed, st')) (s : Bytes) :
    st'.policy[pairKey (ascii "m") s]? = st.policy[pairKey (ascii "m") s]? ∨
      st'.policy[pairKey (ascii "m") s]? =
        prunedMarks base st.policy[pairKey (ascii "m") s]? := by
  simp only [bjmTrim] at h
  split at h
  · contradiction
  split at h
  · contradiction
  split at h
  · obtain ⟨-, -, rfl⟩ := by simpa using h
    exact .inl rfl
  · obtain ⟨rfl, -, rfl⟩ := by simpa using h
    split
    · rw [marksPrune_get hn]
      split
      · exact .inr rfl
      · exact .inl rfl
    · exact .inl rfl

theorem retentionRun_marks (V : Vendor) (nowS : ℕ) (hpol : PoliciesKept st)
    (hadopt : st.adopt = true) (s : Bytes) :
    (st.bjmRetentionRun V nowS).2.2.policy[pairKey (ascii "m") s]? =
        st.policy[pairKey (ascii "m") s]? ∨
      (st.bjmRetentionRun V nowS).2.2.policy[pairKey (ascii "m") s]? =
        prunedMarks ((st.bjmRetentionRun V nowS).2.2.logOf s).base
          st.policy[pairKey (ascii "m") s]? := by
  have hcell := (retentionRun_cells V nowS hpol hadopt).2 s
  have hmarks := congrArg Prod.snd hcell
  have hlog := congrArg Prod.fst hcell
  simp only [ownCell] at hmarks hlog
  rw [hmarks]
  split
  · rename_i hs
    rw [if_pos hs] at hlog
    cases hl : st.logs[s]? with
    | none => exact .inl rfl
    | some log =>
      simp only [hl, sweepTurn] at hlog ⊢
      split
      · exact .inl rfl
      · refine .inr ?_
        simp only [logOf, hlog, Option.getD_some, Elog.compact]
  · exact .inl rfl

theorem sweptBase_le_last (V : Vendor) (nowS : ℕ) (st : Store) (s : Bytes) (log : Elog)
    (marks : Option Record) : sweptBase V nowS st s log marks ≤ log.last := by
  have hown : log.base ≤ log.last := Nat.le_add_right _ _
  simp only [sweptBase]
  split
  · exact Nat.max_le.mpr ⟨hown, trimTarget_le _ _ _ _ _⟩
  · exact hown

theorem retentionRun_logOf (V : Vendor) (nowS : ℕ) (hpol : PoliciesKept st)
    (hadopt : st.adopt = true) (s : Bytes) :
    ∃ base, (st.logOf s).base ≤ base ∧ base ≤ (st.logOf s).last ∧
      (st.bjmRetentionRun V nowS).2.2.logOf s = (st.logOf s).compact base := by
  cases hl : st.logs[s]? with
  | none =>
    have hlogs := congrArg Prod.fst (retentionRun_missing V nowS hpol hadopt hl)
    simp only [ownCell] at hlogs
    refine ⟨(st.logOf s).base, Nat.le_refl _, Nat.le_add_right _ _, ?_⟩
    rw [Elog.compact_base]
    simp only [logOf, hlogs]
  | some log =>
    have hlog : st.logOf s = log := by simp [logOf, hl]
    obtain ⟨base, ht⟩ := retentionRun_turned V nowS hpol hadopt hl
    rw [hlog]
    refine ⟨base, ht.forward, ?_, by simp [logOf, ht.log_eq]⟩
    by_cases hs : s ∈ st.policyNames
    · rw [ht.listed hs]
      exact sweptBase_le_last ..
    · rw [ht.unlisted hs]
      exact Nat.le_add_right _ _

end Store

/-- The marks of every subject are messages that were published to it. -/
structure Marked (h : List PublishedAt) (st : Store) : Prop where
  timeline : ∀ s, Timeline (published h s)
  words : ∀ e ∈ h, e.index < 2 ^ 64 ∧ e.timeS < 2 ^ 64
  within : ∀ e ∈ h, e.index ≤ (st.logOf e.subject).last
  known : ∀ s i, ((st.logOf s).get i).isSome = true → ∃ t, (i, t) ∈ published h s
  marks : ∀ s, ∃ m, m.Sublist (published h s) ∧ m.length ≤ BJM_MARKS_MAX ∧ MarksOf st s m
  policies : ∀ s r, st.policy[pairKey (ascii "p") s]? = some r →
    bjmSubjectValid s = true ∧ ∃ p : Policy, (∀ n ∈ p.ints, n < 2 ^ 64) ∧ r = policyRecord p
  adopt : st.adopt = true

namespace Marked

variable {V : Vendor} {h : List PublishedAt} {st st' : Store} {s : Bytes} {m : List (ℕ × ℕ)}

theorem empty : Marked [] Store.empty where
  timeline := fun _ => .nil
  words := fun e he => by simp at he
  within := fun e he => by simp at he
  known := fun s i hi => by simp [logOf, Store.empty, Elog.get] at hi
  marks := fun s => ⟨[], .slnil, Nat.zero_le _, .inr ⟨by simp [Store.empty], rfl⟩⟩
  policies := fun s r hr => by simp [Store.empty] at hr
  adopt := rfl

theorem words_published (hi : Marked h st) (hm : m.Sublist (published h s)) :
    ∀ a ∈ m, a.1 < 2 ^ 64 ∧ a.2 < 2 ^ 64 :=
  fun _ ha => hi.words _ (mem_published.mp (hm.mem ha))

theorem kept (hi : Marked h st) : PoliciesKept st := by
  refine ⟨hi.policies, fun s r hr => ?_⟩
  obtain ⟨m, hm, hlen, hof⟩ := hi.marks s
  obtain ⟨hw, hlen', -⟩ := hof.marksAt hlen (hi.words_published hm)
  rcases hof with hget | ⟨hget, -⟩
  · exact ⟨laid m, hw, hlen', Option.some.inj (hr.symm.trans hget)⟩
  · rw [hget] at hr
    contradiction

theorem quiet (hi : Marked h st) (hlast : ∀ s, (st'.logOf s).last = (st.logOf s).last)
    (hget : ∀ s i, ((st'.logOf s).get i).isSome = true → ((st.logOf s).get i).isSome = true)
    (hmarks : ∀ s m, m.Sublist (published h s) → m.length ≤ BJM_MARKS_MAX → MarksOf st s m →
      ∃ m' : List (ℕ × ℕ), m'.Sublist m ∧ MarksOf st' s m')
    (hpol : ∀ s r, st'.policy[pairKey (ascii "p") s]? = some r →
      st.policy[pairKey (ascii "p") s]? = some r ∨ bjmSubjectValid s = true ∧
        ∃ p : Policy, (∀ n ∈ p.ints, n < 2 ^ 64) ∧ r = policyRecord p)
    (hadopt : st'.adopt = st.adopt) : Marked h st' where
  timeline := hi.timeline
  words := hi.words
  within := fun e he => by
    rw [hlast]
    exact hi.within e he
  known := fun s i hsome => hi.known s i (hget s i hsome)
  marks := fun s => by
    obtain ⟨m, hm, hlen, hof⟩ := hi.marks s
    obtain ⟨m', hm', hof'⟩ := hmarks s m hm hlen hof
    exact ⟨m', hm'.trans hm, Nat.le_trans hm'.length_le hlen, hof'⟩
  policies := fun s r hr => (hpol s r hr).elim (hi.policies s r) id
  adopt := hadopt.trans hi.adopt

theorem of_pruned (hi : Marked h st) {base : ℕ} (hm : m.Sublist (published h s))
    (hlen : m.length ≤ BJM_MARKS_MAX) (hof : MarksOf st s m)
    (hst : st'.policy[pairKey (ascii "m") s]? = st.policy[pairKey (ascii "m") s]? ∨
      st'.policy[pairKey (ascii "m") s]? = prunedMarks base st.policy[pairKey (ascii "m") s]?) :
    ∃ m' : List (ℕ × ℕ), m'.Sublist m ∧ MarksOf st' s m' := by
  rcases hst with hst | hst
  · exact ⟨m, .refl m, by simpa only [MarksOf, hst] using hof⟩
  · rcases hof.pruned hlen (hi.words_published hm) hst with hof' | hof'
    · exact ⟨m, .refl m, hof'⟩
    · exact ⟨_, List.filter_sublist, hof'⟩

theorem policySet {p : Policy} (hi : Marked h st) (hs : bjmSubjectValid s = true)
    (hp : ∀ n ∈ p.ints, n < 2 ^ 64) (hset : st.bjmPolicySet s p = .ok st') : Marked h st' := by
  obtain ⟨key, hkey, hst⟩ := bjmPolicySet_eq hset
  rw [polKey_of_valid hs] at hkey
  obtain rfl := Option.some.inj hkey
  have hget : ∀ k, st'.policy[k]? =
      if pairKey (ascii "p") s = k then some (policyRecord p) else st.policy[k]? := by
    intro k
    rw [hst]
    exact getElem?_insert ..
  have hlogs : st'.logs = st.logs := by rw [hst]
  refine hi.quiet (fun t => by simp only [logOf, hlogs])
    (fun t i hsome => by simpa only [logOf, hlogs] using hsome) (fun t m hm hlen hof => ?_)
    (fun t r hr => ?_) (by rw [hst])
  · have hne : pairKey (ascii "p") s ≠ pairKey (ascii "m") t := fun heq =>
      absurd (List.cons.inj heq).1 (by decide)
    exact ⟨m, .refl m, by simpa only [MarksOf, hget, if_neg hne] using hof⟩
  · rw [hget] at hr
    split at hr
    · rename_i heq
      obtain ⟨-, rfl⟩ := pairKey_injective (by decide) (by decide) heq
      exact .inr ⟨hs, p, hp, (Option.some.inj hr).symm⟩
    · exact .inl hr

theorem policyClear {cleared : Bool} (hi : Marked h st)
    (hclear : st.bjmPolicyClear s = .ok (cleared, st')) : Marked h st' := by
  obtain ⟨hst, hkept⟩ := bjmPolicyClear_eq hclear
  have hlogs : st'.logs = st.logs := by rw [hst]
  refine hi.quiet (fun t => by simp only [logOf, hlogs])
    (fun t i hsome => by simpa only [logOf, hlogs] using hsome) (fun t m hm hlen hof => ?_)
    (fun t r hr => .inl (hkept _ r hr)) (by rw [hst])
  cases hr : st'.policy[pairKey (ascii "m") t]? with
  | none => exact ⟨[], List.nil_sublist m, .inr ⟨hr, rfl⟩⟩
  | some r =>
    have hbefore := hkept _ r hr
    rcases hof with hof | ⟨hof, -⟩
    · rw [hbefore] at hof
      exact ⟨m, .refl m, .inl (hr.trans hof)⟩
    · rw [hof] at hbefore
      contradiction

theorem trim {before base removed : ℕ} {force : Bool} (hi : Marked h st)
    (hs : bjmSubjectValid s = true) (htrim : st.bjmTrim s before force = .ok (base, removed, st')) :
    Marked h st' := by
  obtain ⟨hbase, hlast, hforward, -, hrest⟩ := bjmTrim_log htrim
  refine hi.quiet (fun t => ?_) (fun t i hsome => ?_)
    (fun t m hm hlen hof => hi.of_pruned hm hlen hof (bjmTrim_marks hs htrim t))
    (fun t r hr => .inl ?_) ?_
  · by_cases ht : t = s
    · rw [ht, hlast]
    · rw [bjmTrim_others htrim ht]
  · by_cases ht : t = s
    · subst ht
      have hi' := (Elog.get_isSome_iff.mp hsome).1
      rw [hrest i (by omega)] at hsome
      exact hsome
    · rwa [bjmTrim_others htrim ht] at hsome
  · rcases bjmTrim_store htrim with rfl | hm
    · exact hr
    · have hkey : policyKey (ascii "m") s ≠ some (pairKey (ascii "p") t) := fun hk =>
        absurd (pairKey_injective (by decide) (by decide) (boundedKey_eq hk)).1 (by decide)
      rwa [hm.others _ hkey] at hr
  · rcases bjmTrim_store htrim with rfl | hm
    · rfl
    · rw [hm.same]

theorem restart (hi : Marked h st) : Marked h st.restart :=
  hi.quiet (fun _ => rfl) (fun _ _ hsome => hsome) (fun _ m _ _ hof => ⟨m, .refl m, hof⟩)
    (fun _ _ hr => .inl hr) rfl

theorem sweep (hi : Marked h st) (V : Vendor) (nowS : ℕ) :
    Marked h (st.bjmRetentionRun V nowS).2.2 := by
  obtain ⟨hshares, -⟩ := retentionRun_cells V nowS hi.kept hi.adopt
  refine hi.quiet (fun t => ?_) (fun t i hsome => ?_) (fun t m hm hlen hof => ?_)
    (fun t r hr => .inl ?_) (by rw [hshares.same])
  · obtain ⟨base, hlo, hhi, heq⟩ := retentionRun_logOf V nowS hi.kept hi.adopt t
    rw [heq, Elog.compact_last hlo hhi]
  · obtain ⟨base, hlo, -, heq⟩ := retentionRun_logOf V nowS hi.kept hi.adopt t
    rw [heq] at hsome
    have hbase : base < i := (Elog.get_isSome_iff.mp hsome).1
    rwa [Elog.get_compact hlo hbase] at hsome
  · exact hi.of_pruned hm hlen hof (retentionRun_marks V nowS hi.kept hi.adopt t)
  · have hkey : ∀ u, pairKey (ascii "p") t ≠ pairKey (ascii "m") u := fun u heq =>
      absurd (List.cons.inj heq).1 (by decide)
    rwa [hshares.others _ hkey] at hr

/-- A publish adds its message to the history, and at most that message to the marks. -/
theorem publish {now index : ℕ} {e : Entry} (hi : Marked h st) (hs : bjmSubjectValid s = true)
    (hclock : ∀ e ∈ h, e.timeS ≤ now / 1000) (hnow : now < 2 ^ 64)
    (hroom : (st.logOf s).last + 1 < 2 ^ 64)
    (hpub : st.bjmPublish now s e = .ok (index, st')) :
    Marked (h ++ [⟨s, index, now / 1000⟩]) st' := by
  obtain ⟨rfl, hlogs, hm⟩ := bjmPublish_eq hpub
  have hlog : ∀ t, st'.logOf t = if s = t then (st.logOf s).append e else st.logOf t :=
    fun t => logOf_insert hlogs
  have hlater : ∀ a ∈ published h s, Later a ((st.logOf s).last + 1, now / 1000) := by
    intro a ha
    have he := mem_published.mp ha
    exact ⟨Nat.lt_succ_of_le (hi.within _ he), hclock _ he⟩
  have hpublished := published_snoc h ⟨s, (st.logOf s).last + 1, now / 1000⟩
  have hgrow : ∀ t, (published h t).Sublist
      (published (h ++ [⟨s, (st.logOf s).last + 1, now / 1000⟩]) t) := by
    intro t
    rw [hpublished]
    exact List.sublist_append_left _ _
  constructor
  · intro t
    rw [hpublished]
    split
    · rename_i heq
      rw [← heq]
      exact (hi.timeline s).snoc hlater
    · simpa using hi.timeline t
  · intro x hx
    rcases List.mem_append.mp hx with hx | hx
    · exact hi.words x hx
    · obtain rfl := List.mem_singleton.mp hx
      exact ⟨hroom, Nat.lt_of_le_of_lt (Nat.div_le_self now 1000) hnow⟩
  · intro x hx
    rw [hlog]
    rcases List.mem_append.mp hx with hx | hx
    · have hle := hi.within x hx
      split
      · rename_i heq
        rw [← heq] at hle
        rw [Elog.append_last]
        omega
      · exact hle
    · obtain rfl := List.mem_singleton.mp hx
      rw [if_pos rfl, Elog.append_last]
  · intro t i hsome
    rw [hlog] at hsome
    split at hsome
    · rename_i heq
      subst heq
      by_cases hi' : i ≤ (st.logOf s).last
      · rw [Elog.get_append hi'] at hsome
        obtain ⟨time, hmem⟩ := hi.known s i hsome
        exact ⟨time, (hgrow s).mem hmem⟩
      · have hle := (Elog.get_isSome_iff.mp hsome).2
        rw [Elog.append_last] at hle
        have : i = (st.logOf s).last + 1 := by omega
        subst this
        refine ⟨now / 1000, ?_⟩
        rw [hpublished, if_pos rfl]
        exact List.mem_append_right _ (List.mem_singleton_self _)
    · obtain ⟨time, hmem⟩ := hi.known t i hsome
      exact ⟨time, (hgrow t).mem hmem⟩
  · intro t
    obtain ⟨m, hsub, hlen, hof⟩ := hi.marks t
    have hsame : st'.policy[pairKey (ascii "m") t]? = st.policy[pairKey (ascii "m") t]? →
        ∃ m : List (ℕ × ℕ),
          m.Sublist (published (h ++ [⟨s, (st.logOf s).last + 1, now / 1000⟩]) t) ∧
          m.length ≤ BJM_MARKS_MAX ∧ MarksOf st' t m := fun heq =>
      ⟨m, hsub.trans (hgrow t), hlen, by simpa only [MarksOf, heq] using hof⟩
    by_cases ht : t = s
    · subst ht
      have hmark := markPublish_policy
        { st with logs := st.logs.insert t ((st.logOf t).append e) } hs now
        ((st.logOf t).last + 1)
      rw [← bjmPublish_store hpub] at hmark
      rcases hmark with heq | ⟨m₀, hread, heq⟩
      · exact hsame (by rw [heq])
      · -- the marks read back, so those in the record are the ones read
        have hat := marksRead_at (hof.marksAt hlen (hi.words_published hsub))
        rw [show _ = Except.ok m₀ from hread] at hat
        split at hat
        · obtain rfl := Except.ok.inj hat
          refine ⟨markRoom m ++ [((st.logOf t).last + 1, now / 1000)], ?_, ?_, .inl ?_⟩
          · rw [hpublished, if_pos rfl]
            exact ((markRoom_sublist m).trans hsub).append (.refl _)
          · rw [List.length_append, List.length_singleton]
            exact length_markRoom hlen
          · rw [heq, ExtTreeMap.getElem?_insert_self]
            exact congrArg (some ∘ marksRecord)
              (ringRoom_laid m ((st.logOf t).last + 1, now / 1000))
        · contradiction
    · have hkey : policyKey (ascii "m") s ≠ some (pairKey (ascii "m") t) := fun hk =>
        ht (pairKey_injective (by decide) (by decide) (boundedKey_eq hk)).2
      exact hsame (hm.others _ hkey)
  · intro t r hr
    have hkey : policyKey (ascii "m") s ≠ some (pairKey (ascii "p") t) := fun hk =>
      absurd (pairKey_injective (by decide) (by decide) (boundedKey_eq hk)).1 (by decide)
    rw [hm.others _ hkey] at hr
    exact hi.policies t r hr
  · rw [hm.same]
    exact hi.adopt

theorem step (V : Vendor) {op : RetentionOp} (hi : Marked h st) (ho : op.InOrder h st) :
    Marked (h ++ (retentionExec V st op).1) (retentionExec V st op).2 := by
  cases op with
  | publish now s e =>
    obtain ⟨hs, hclock, hnow, hroom⟩ := ho
    simp only [retentionExec]
    cases hpub : st.bjmPublish now s e with
    | error err => simpa using hi
    | ok x => exact hi.publish hs hclock hnow hroom hpub
  | policySet s p =>
    simp only [retentionExec]
    cases hset : st.bjmPolicySet s p with
    | error err => simpa using hi
    | ok st' => simpa using hi.policySet ho.1 ho.2 hset
  | policyClear s =>
    simp only [retentionExec]
    cases hclear : st.bjmPolicyClear s with
    | error err => simpa using hi
    | ok x => simpa using hi.policyClear hclear
  | trim s before force =>
    simp only [retentionExec]
    cases htrim : st.bjmTrim s before force with
    | error err => simpa using hi
    | ok x => simpa using hi.trim ho htrim
  | restart => simpa [retentionExec] using hi.restart
  | sweep now => simpa [retentionExec] using hi.sweep V (now / 1000)

theorem run (V : Vendor) {ops : List RetentionOp}
    (ha : Along (retentionExec V) RetentionOp.InOrder [] Store.empty ops) :
    Marked (ActionRuns.run (retentionExec V) Store.empty ops).1
      (ActionRuns.run (retentionExec V) Store.empty ops).2 := by
  have hinv := invariant empty ha fun h st op ho hi => hi.step V ho
  simpa using hinv

theorem sound (hi : Marked h st) {r : Record}
    (hr : st.policy[pairKey (ascii "m") s]? = some r) :
    ∃ m, r = marksRecord m ∧ MarksSound h s m := by
  obtain ⟨m, hsub, hlen, hof⟩ := hi.marks s
  have htime := hi.timeline s
  rcases hof with hof | ⟨hof, -⟩
  · refine ⟨laid m, Option.some.inj (hr.symm.trans hof), ?_, ?_, ?_, ?_⟩
    · rw [length_laid]
      omega
    · rw [length_laid]
      omega
    · rw [pairs_laid]
      exact htime.sublist hsub
    · rw [pairs_laid]
      rintro a ha ⟨s', i, t⟩ he rfl hle
      have hb : (i, t) ∈ published h s' := mem_published.mpr he
      exact htime.time_le (hsub.mem ha) hb hle
  · rw [hof] at hr
    contradiction

end Marked

namespace Store

variable {st : Store} {s : Bytes}

/-- An age boundary is one past a mark from before the cutoff. -/
theorem ageBoundary_mark (cutoff : ℕ) (m : List ℕ) :
    ageBoundary cutoff m = 0 ∨ ∃ a ∈ pairs m, a.2 < cutoff ∧ ageBoundary cutoff m ≤ a.1 + 1 := by
  induction m using ageBoundary.induct with
  | case1 i t m ih =>
    simp only [ageBoundary, pairs, List.mem_cons]
    have hword : u64 (i + 1) ≤ i + 1 := Nat.mod_le _ _
    by_cases ht : t < cutoff
    · rw [if_pos ht]
      rcases Nat.le_total (u64 (i + 1)) (ageBoundary cutoff m) with hle | hle
      · rw [Nat.max_eq_right hle]
        rcases ih with hzero | ⟨a, ha, hold, hb⟩
        · exact .inl hzero
        · exact .inr ⟨a, .inr ha, hold, hb⟩
      · rw [Nat.max_eq_left hle]
        exact .inr ⟨(i, t), .inl rfl, ht, hword⟩
    · rw [if_neg ht, Nat.max_eq_right (Nat.zero_le _)]
      rcases ih with hzero | ⟨a, ha, hold, hb⟩
      · exact .inl hzero
      · exact .inr ⟨a, .inr ha, hold, hb⟩
  | case2 m h =>
    unfold ageBoundary
    split
    · exact absurd rfl (h _ _ _)
    · exact .inl rfl

theorem trimTarget_lt (st : Store) (s : Bytes) (last before : ℕ) (force : Bool) :
    st.trimTarget s last before force ≤ before - 1 := by
  simp only [trimTarget]
  split
  · omega
  · split <;> omega

theorem limits_age (V : Vendor) (log : Elog) (maxAgeS nowS : ℕ) (ignore : Bool) (m : List ℕ) :
    limits V log ⟨maxAgeS, 0, 0, ignore⟩ (.ok m) nowS = 0 ∨
      ∃ a ∈ pairs m, a.2 + maxAgeS < nowS ∧
        limits V log ⟨maxAgeS, 0, 0, ignore⟩ (.ok m) nowS ≤ a.1 + 1 := by
  simp only [limits, countBoundary, byteBoundary]
  split
  · exact .inl rfl
  simp only [ne_eq, not_true_eq_false, false_and, if_false, Nat.zero_max, ageLimit]
  split
  · rename_i hage
    rcases ageBoundary_mark (nowS - maxAgeS) m with hzero | ⟨a, ha, hold, hle⟩
    · exact .inl hzero
    · exact .inr ⟨a, ha, by omega, hle⟩
  · exact .inl rfl

end Store

/-- A message a sweep by age takes is numbered up to a mark from before the window. -/
theorem Marked.swept {V : Vendor} {h : List PublishedAt} {st : Store} {s : Bytes}
    {maxAgeS nowS i : ℕ} {ignore : Bool} {m : List (ℕ × ℕ)} (hi : Marked h st)
    (hp : PolicyAt st s ⟨maxAgeS, 0, 0, ignore⟩) (hat : MarksAt st s (laid m))
    (hsome : ((st.logOf s).get i).isSome = true)
    (hgone : ((st.bjmRetentionRun V nowS).2.2.logOf s).get i = none) :
    ∃ a ∈ m, i ≤ a.1 ∧ a.2 + maxAgeS < nowS := by
  have hs := (hi.kept.policies s _ hp.2).1
  cases hl : st.logs[s]? with
  | none => simp [logOf, hl, Elog.get] at hsome
  | some log =>
    have hlog : st.logOf s = log := by simp [logOf, hl]
    rw [hlog] at hsome
    obtain ⟨base, ht⟩ := retentionRun_turned V nowS hi.kept hi.adopt hl
    have hafter : (st.bjmRetentionRun V nowS).2.2.logOf s = log.compact base := by
      simp [logOf, ht.log_eq]
    have hbelow : i ≤ base := by
      apply Nat.le_of_not_lt
      intro hlt
      rw [hafter, Elog.get_compact ht.forward hlt] at hgone
      rw [hgone] at hsome
      contradiction
    have habove : log.base < i := (Elog.get_isSome_iff.mp hsome).1
    have hbase := ht.listed ((mem_policyNames hi.kept).mpr ⟨_, hp⟩)
    by_cases hr : Readable (policyRecord ⟨maxAgeS, 0, 0, ignore⟩)
    · rw [sweptBase_read hs hp hr hat] at hbase
      dsimp only at hbase
      have htarget := trimTarget_lt st s log.last
        (limits V log ⟨maxAgeS, 0, 0, ignore⟩ (.ok (readMarks (laid m))) nowS) ignore
      rcases limits_age V log maxAgeS nowS ignore (readMarks (laid m)) with hzero | hmark
      · omega
      · obtain ⟨a, ha, hold, hle⟩ := hmark
        refine ⟨a, ?_, by omega, hold⟩
        simp only [readMarks] at ha
        split at ha
        · rwa [pairs_laid] at ha
        · exact absurd ha List.not_mem_nil
    · rw [sweptBase_unread hs hp hr] at hbase
      omega

/-- A sweep by age takes only messages published before its window, and the marks of
every subject are in order, few, and never younger than what they bound. -/
theorem age_retention_spares_young (V : Vendor) {ops : List RetentionOp}
    (ha : Along (retentionExec V) RetentionOp.InOrder [] Store.empty ops) :
    (∀ s r, (run (retentionExec V) Store.empty ops).2.policy[pairKey (ascii "m") s]? = some r →
      ∃ m, r = marksRecord m ∧
        MarksSound (run (retentionExec V) Store.empty ops).1 s m) ∧
    ∀ now s maxAgeS ignore,
      PolicyAt (run (retentionExec V) Store.empty ops).2 s ⟨maxAgeS, 0, 0, ignore⟩ →
      ∀ i, (((run (retentionExec V) Store.empty ops).2.logOf s).get i).isSome = true →
        (((run (retentionExec V) Store.empty ops).2.bjmRetentionRun V (now / 1000)).2.2.logOf
          s).get i = none →
        (∃ t, (⟨s, i, t⟩ : PublishedAt) ∈ (run (retentionExec V) Store.empty ops).1) ∧
        ∀ t, (⟨s, i, t⟩ : PublishedAt) ∈ (run (retentionExec V) Store.empty ops).1 →
          t + maxAgeS < now / 1000 := by
  have hi := Marked.run V ha
  generalize (run (retentionExec V) Store.empty ops).1 = h at hi ⊢
  generalize (run (retentionExec V) Store.empty ops).2 = st at hi ⊢
  refine ⟨fun s r hr => hi.sound hr, fun now s maxAgeS ignore hp i hsome hgone => ?_⟩
  obtain ⟨time, hmem⟩ := hi.known s i hsome
  refine ⟨⟨time, mem_published.mp hmem⟩, fun t ht => ?_⟩
  obtain ⟨m, hsub, hlen, hof⟩ := hi.marks s
  have hat := hof.marksAt hlen (hi.words_published hsub)
  obtain ⟨a, ha', hle, hold⟩ := hi.swept hp hat hsome hgone
  have hb : (i, t) ∈ published h s := mem_published.mpr ht
  have htime : t ≤ a.2 := (hi.timeline s).time_le (hsub.mem ha') hb hle
  exact Nat.lt_of_le_of_lt (Nat.add_le_add_right htime maxAgeS) hold

/-- A message a minute, kept for a minute. -/
def minuteOps : List RetentionOp :=
  [.policySet (ascii "a") ⟨60, 0, 0, true⟩, .publish 60000 (ascii "a") ⟨BJM_ENTRY_PLAIN, [1]⟩,
    .publish 120000 (ascii "a") ⟨BJM_ENTRY_PLAIN, [2]⟩, .restart,
    .publish 180000 (ascii "a") ⟨BJM_ENTRY_PLAIN, [3]⟩]

theorem minute_old_swept :
    (((run (retentionExec .silent) Store.empty minuteOps).2.bjmRetentionRun .silent 200).2.2.logOf
      (ascii "a")).base = 2 ∧
    (∃ t, (⟨ascii "a", 2, t⟩ : PublishedAt) ∈ (run (retentionExec .silent) Store.empty minuteOps).1)
    ∧ ∀ t, (⟨ascii "a", 2, t⟩ : PublishedAt) ∈
      (run (retentionExec .silent) Store.empty minuteOps).1 → t + 60 < 200 := by
  have hrun : Along (retentionExec .silent) RetentionOp.InOrder [] Store.empty minuteOps := by
    refine ⟨?_, ?_, ?_, ?_, ?_, trivial⟩ <;> decide +kernel
  have hspared := (age_retention_spares_young .silent hrun).2 200000 (ascii "a") 60 true
    ⟨by decide, by decide +kernel⟩ 2 (by decide +kernel) (by decide +kernel)
  exact ⟨by decide +kernel, hspared⟩

end SukkalMsg
