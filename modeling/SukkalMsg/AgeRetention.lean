import SukkalMsg.PublishMarks

/-!
# How long a message outlives its age

Under a policy that does not change, the marks of a subject are the publishes that come
an interval apart: the first, and each that is an interval later than the last one
marked. A sweep takes what is numbered up to a mark from before the window, so a message
that no such mark comes after stays, however old it is.
-/

namespace SukkalMsg

open Std Names Binjson OrderedScan ActionRuns TimedMarks Store

def markInterval (p : Policy) : ℕ := max 1 (p.maxAgeS / BJM_MARKS_PER_WINDOW)

/-- Publishes and sweeps, with indexes and seconds that the decoder takes. -/
def RetentionOp.Ticking (h : List PublishedAt) (st : Store) : RetentionOp → Prop
  | .publish now s e => (RetentionOp.publish now s e).InOrder h st ∧
      (st.logOf s).last + 1 < 2 ^ 53 ∧ now / 1000 < 2 ^ 53
  | .sweep _ => True
  | _ => False

/-- The publishes of a subject that are marked while its policy is this one. -/
def markedUnder (p : Policy) (h : List PublishedAt) (s : Bytes) : List (ℕ × ℕ) :=
  leaders (markInterval p) (published h s)

/-- Every message that is too old is numbered up to a mark from before the window, and one
that the ring still holds. -/
def MarkedInTime (p : Policy) (h : List PublishedAt) (s : Bytes) (log : Elog) (nowS : ℕ) :
    Prop :=
  ∀ i t, (⟨s, i, t⟩ : PublishedAt) ∈ h → (log.get i).isSome = true →
    t + p.maxAgeS + markInterval p + 1 < nowS →
      ∃ a ∈ newest BJM_MARKS_MAX (markedUnder p h s), i ≤ a.1 ∧ a.2 + p.maxAgeS < nowS

/-- No message that is too old is left. -/
def OldGone (p : Policy) (h : List PublishedAt) (s : Bytes) (log : Elog) (nowS : ℕ) : Prop :=
  ∀ i t, (⟨s, i, t⟩ : PublishedAt) ∈ h → t + p.maxAgeS + markInterval p + 1 < nowS →
    log.get i = none

namespace Store

variable {st st' : Store} {s : Bytes} {now index : ℕ} {p : Policy} {m : List ℕ}

theorem openSubject_set (st : Store) (s t : Bytes) (sub : Subject) :
    (st.setSubject s sub).openSubject t = if s = t then sub else st.openSubject t := by
  simp only [openSubject, setSubject, ExtTreeMap.getD_insert, Std.compare_eq_iff_eq]

/-- Whether a publish comes too soon after the last mark. -/
def Soon (p : Policy) (lastMarkT nowS : ℕ) : Prop :=
  lastMarkT ≠ 0 ∧ u64Sub nowS lastMarkT < markInterval p

instance (p : Policy) (lastMarkT nowS : ℕ) : Decidable (Soon p lastMarkT nowS) := by
  unfold Soon
  infer_instance

theorem markSubject_eq (hs : bjmSubjectValid s = true) {sub : Subject} (hage : sub.pol.maxAgeS ≠ 0)
    (hread : marksRead st.policy[pairKey (ascii "m") s]? = .ok m) :
    st.markSubject now s sub index = if Soon sub.pol sub.lastMarkT (now / 1000) then st
      else ({ st with policy := st.policy.insert (pairKey (ascii "m") s)
                        (marksRecord (ringRoom m ++ [index, now / 1000])) } : Store).setSubject s
        { sub with lastMarkT := now / 1000 } := by
  simp only [markSubject, if_neg hage]
  split
  · rename_i hsoon
    rw [if_pos (show Soon .. from hsoon)]
  · rename_i hsoon
    rw [if_neg (show ¬ Soon .. from hsoon), marksLoad_eq hs, hread]
    simp only [marksStore, marksKey_of_valid hs]
    rfl

/-- What a publish leaves of the marks, and of what is kept with the subject. -/
structure MarkLeft (p : Policy) (s : Bytes) (m : List ℕ) (index lastMarkT nowS : ℕ)
    (st st' : Store) : Prop where
  soon : Soon p lastMarkT nowS →
    st'.policy = st.policy ∧ st'.openSubject s = ⟨p, true, lastMarkT⟩
  due : ¬ Soon p lastMarkT nowS →
    st'.policy = st.policy.insert (pairKey (ascii "m") s)
        (marksRecord (ringRoom m ++ [index, nowS])) ∧
      st'.openSubject s = ⟨p, true, nowS⟩

theorem markSubject_left (now index : ℕ) (hs : bjmSubjectValid s = true) (hage : p.maxAgeS ≠ 0)
    {lastMarkT : ℕ} (hsub : st.openSubject s = ⟨p, true, lastMarkT⟩)
    (hread : marksRead st.policy[pairKey (ascii "m") s]? = .ok m) :
    MarkLeft p s m index lastMarkT (now / 1000) st
      (st.markSubject now s ⟨p, true, lastMarkT⟩ index) := by
  rw [markSubject_eq hs hage hread]
  constructor
  · intro hsoon
    rw [if_pos hsoon]
    exact ⟨rfl, hsub⟩
  · intro hsoon
    rw [if_neg hsoon, openSubject_set, if_pos rfl]
    exact ⟨rfl, rfl⟩

theorem markPublish_left (st : Store) (now index : ℕ) (hs : bjmSubjectValid s = true)
    (hp : PolicyAt st s p) (hr : Readable (policyRecord p)) (hage : p.maxAgeS ≠ 0)
    (hcached : (st.openSubject s).polLoaded = true → (st.openSubject s).pol = p)
    (hread : marksRead st.policy[pairKey (ascii "m") s]? = .ok m) :
    MarkLeft p s m index (st.openSubject s).lastMarkT (now / 1000) st
      (st.markPublish now s index) := by
  simp only [markPublish]
  split
  · rename_i hloaded
    have hsub : st.openSubject s = ⟨p, true, (st.openSubject s).lastMarkT⟩ := by
      cases hsub : st.openSubject s with
      | mk pol polLoaded lastMarkT =>
        simp only [hsub] at hloaded hcached ⊢
        rw [hcached hloaded, hloaded]
    have hleft := markSubject_left now index hs hage hsub hread
    rwa [← hsub] at hleft
  · have hget : ({ st with policyOpen := true } : Store).bjmPolicyGet s = .ok (true, p) := by
      have hget := policyGet_at hs hp
      rw [if_pos hr] at hget
      exact hget
    rw [hget]
    have hsub := openSubject_set { st with policyOpen := true } s s
      ⟨p, true, (st.openSubject s).lastMarkT⟩
    rw [if_pos rfl] at hsub
    obtain ⟨hsoon, hdue⟩ := markSubject_left now index hs hage hsub hread
    exact ⟨hsoon, hdue⟩

theorem markPublish_others (st : Store) {t : Bytes} (ht : s ≠ t) (now index : ℕ) :
    (st.markPublish now s index).openSubject t = st.openSubject t := by
  have hmark : ∀ (st : Store) (sub : Subject),
      (st.markSubject now s sub index).openSubject t = st.openSubject t := by
    intro st sub
    simp only [markSubject]
    split
    · rfl
    split
    · rfl
    split
    · rfl
    · split
      · rfl
      · rename_i hstore
        rw [openSubject_set, if_neg ht]
        simp only [marksStore] at hstore
        split at hstore
        · contradiction
        · rw [← Except.ok.inj hstore]
          rfl
  simp only [markPublish]
  split
  · exact hmark _ _
  · split
    · rfl
    · rw [hmark, openSubject_set, if_neg ht]
      rfl

end Store

/-- The marks of a subject are the last of those the publishes leave under its policy,
short of some the base has passed. -/
structure Ringed (s : Bytes) (p : Policy) (h : List PublishedAt) (st : Store) : Prop where
  marked : Marked h st
  policy : PolicyAt st s p
  carried : ∀ e ∈ h, e.subject = s → e.index < 2 ^ 53 ∧ e.timeS < 2 ^ 53
  cached : (st.openSubject s).polLoaded = true → (st.openSubject s).pol = p
  lastMark : (st.openSubject s).lastMarkT = lastTime 0 (markedUnder p h s)
  ring : ∃ m, MarksOf st s m ∧ m <:+ markedUnder p h s ∧ m.length ≤ BJM_MARKS_MAX ∧
    ∀ a ∈ newest BJM_MARKS_MAX (markedUnder p h s), a ∈ m ∨ a.1 ≤ (st.logOf s).base

namespace Ringed

variable {V : Vendor} {s : Bytes} {p : Policy} {h : List PublishedAt} {st st' : Store}
variable {m : List (ℕ × ℕ)}

theorem markedUnder_sublist (p : Policy) (h : List PublishedAt) (s : Bytes) :
    (markedUnder p h s).Sublist (published h s) := leaders_sublist _ _

theorem start (hs : bjmSubjectValid s = true) (hp : ∀ n ∈ p.ints, n < 2 ^ 64)
    (hset : Store.empty.bjmPolicySet s p = .ok st) : Ringed s p [] st := by
  obtain ⟨key, hkey, hst⟩ := bjmPolicySet_eq hset
  rw [polKey_of_valid hs] at hkey
  obtain rfl := Option.some.inj hkey
  have hopen : st.openSubject s = .opened := by
    simp only [bjmPolicySet, polKey_of_valid hs, policyUncache] at hset
    rw [← Except.ok.inj hset]
    rfl
  refine ⟨Marked.empty.policySet hs hp hset, ⟨hp, ?_⟩, fun e he => ?_, ?_, ?_, [], ?_, ?_⟩
  · rw [hst]
    exact ExtTreeMap.getElem?_insert_self
  · exact absurd he List.not_mem_nil
  · rw [hopen]
    exact fun hloaded => absurd hloaded Bool.false_ne_true
  · rw [hopen]
    rfl
  · have hne : pairKey (ascii "p") s ≠ pairKey (ascii "m") s := fun heq =>
      absurd (List.cons.inj heq).1 (by decide)
    refine .inr ⟨?_, rfl⟩
    rw [hst]
    exact (getElem?_insert ..).trans (if_neg hne)
  · refine ⟨List.suffix_refl _, Nat.zero_le _, fun a ha => ?_⟩
    exact absurd ((newest_sublist _ _).mem ha) List.not_mem_nil

theorem marks_read (hi : Ringed s p h st) (hof : MarksOf st s m)
    (hm : m <:+ markedUnder p h s) (hlen : m.length ≤ BJM_MARKS_MAX) :
    MarksAt st s (laid m) ∧ Readable (marksRecord (laid m)) := by
  have hsub := hm.sublist.trans (markedUnder_sublist p h s)
  have hcarried : ∀ a ∈ m, a.1 < 2 ^ 53 ∧ a.2 < 2 ^ 53 := fun a ha =>
    hi.carried _ (mem_published.mp (hsub.mem ha)) rfl
  refine ⟨hof.marksAt hlen (hi.marked.words_published hsub), ?_⟩
  intro it hit
  simp only [marksRecord, List.cons_append, List.mem_cons, List.mem_append, List.mem_map,
    List.not_mem_nil, or_false] at hit
  rcases hit with rfl | ⟨n, hn, rfl⟩ | rfl
  · trivial
  · obtain ⟨a, ha, rfl | rfl⟩ := mem_laid.mp hn
    · exact putInt_safe (hcarried a ha).1
    · exact putInt_safe (hcarried a ha).2
  · trivial

theorem publish_other {now index : ℕ} {e : Entry} {t : Bytes} (hi : Ringed s p h st)
    (hne : t ≠ s) (hpub : st.bjmPublish now t e = .ok (index, st'))
    (hmarked : Marked (h ++ [⟨t, index, now / 1000⟩]) st') :
    Ringed s p (h ++ [⟨t, index, now / 1000⟩]) st' := by
  obtain ⟨-, hlogs, hm⟩ := bjmPublish_eq hpub
  have hlog : st'.logOf s = st.logOf s := (logOf_insert hlogs).trans (if_neg hne)
  have hsame : published (h ++ [⟨t, index, now / 1000⟩]) s = published h s := by
    rw [published_snoc, if_neg hne, List.append_nil]
  have hopen : st'.openSubject s = st.openSubject s := by
    rw [bjmPublish_store hpub, markPublish_others _ hne]
    rfl
  have hkey : ∀ k, k = pairKey (ascii "p") s ∨ k = pairKey (ascii "m") s →
      st'.policy[k]? = st.policy[k]? := by
    intro k hk
    refine hm.others _ fun heq => hne ?_
    have heq := boundedKey_eq heq
    rcases hk with rfl | rfl
    · exact (pairKey_injective (by decide) (by decide) heq).2.symm
    · exact (pairKey_injective (by decide) (by decide) heq).2.symm
  obtain ⟨m, hof, hsuffix, hlen, hheld⟩ := hi.ring
  refine ⟨hmarked, ⟨hi.policy.1, (hkey _ (.inl rfl)).trans hi.policy.2⟩, ?_, ?_, ?_, m, ?_⟩
  · intro x hx hxs
    rcases List.mem_append.mp hx with hx | hx
    · exact hi.carried x hx hxs
    · obtain rfl := List.mem_singleton.mp hx
      exact absurd hxs hne
  · rw [hopen]
    exact hi.cached
  · rw [hopen, markedUnder, hsame]
    exact hi.lastMark
  · rw [markedUnder, hsame, hlog]
    refine ⟨?_, hsuffix, hlen, hheld⟩
    simpa only [MarksOf, hkey _ (.inr rfl)] using hof

theorem lastMark_le (hi : Ringed s p h st) {nowS : ℕ} (hclock : ∀ e ∈ h, e.timeS ≤ nowS) :
    (st.openSubject s).lastMarkT ≤ nowS := by
  rw [hi.lastMark]
  rcases lastTime_mem 0 (markedUnder p h s) with hzero | ⟨a, ha, heq⟩
  · omega
  · rw [heq]
    exact hclock _ (mem_published.mp ((markedUnder_sublist p h s).mem ha))

theorem markedUnder_snoc (hi : Ringed s p h st) {nowS : ℕ} (index : ℕ)
    (hclock : ∀ e ∈ h, e.timeS ≤ nowS) (hnow : nowS < 2 ^ 64) :
    markedUnder p (h ++ [⟨s, index, nowS⟩]) s = markedUnder p h s ++
      if Soon p (st.openSubject s).lastMarkT nowS then [] else [(index, nowS)] := by
  have hgap := u64Sub_of_le (hi.lastMark_le hclock) hnow
  rw [hi.lastMark] at hgap ⊢
  simp only [Soon, hgap]
  rw [markedUnder, published_snoc, if_pos rfl, leaders_snoc]
  rfl

theorem ring_snoc {a : ℕ × ℕ} {base : ℕ} {l : List (ℕ × ℕ)} (hsuffix : m <:+ l)
    (hlen : m.length ≤ BJM_MARKS_MAX)
    (hheld : ∀ b ∈ newest BJM_MARKS_MAX l, b ∈ m ∨ b.1 ≤ base) :
    markRoom m ++ [a] <:+ l ++ [a] ∧ (markRoom m ++ [a]).length ≤ BJM_MARKS_MAX ∧
      ∀ b ∈ newest BJM_MARKS_MAX (l ++ [a]), b ∈ markRoom m ++ [a] ∨ b.1 ≤ base := by
  have hroom : markRoom m <:+ m := by
    simp only [markRoom]
    split
    · exact List.drop_suffix 1 m
    · exact List.suffix_refl m
  have hlen' : (markRoom m ++ [a]).length ≤ BJM_MARKS_MAX := by
    rw [List.length_append, List.length_singleton]
    exact length_markRoom hlen
  have hsuffix' : markRoom m ++ [a] <:+ l ++ [a] := by
    obtain ⟨l', rfl⟩ := hroom.trans hsuffix
    exact ⟨l', (List.append_assoc ..).symm⟩
  refine ⟨hsuffix', hlen', fun b hb => ?_⟩
  by_cases hfull : m.length + 1 > BJM_MARKS_MAX
  · -- the ring was full, and is full again
    have hagain : (markRoom m ++ [a]).length = BJM_MARKS_MAX := by
      have hmax : BJM_MARKS_MAX = 256 := rfl
      simp only [markRoom, if_pos hfull, List.length_append, List.length_drop,
        List.length_singleton]
      omega
    rw [newest_eq hsuffix' hagain] at hb
    exact .inl hb
  · simp only [markRoom, if_neg hfull]
    rcases mem_newest_snoc hb with hb | rfl
    · rcases hheld b hb with hb | hb
      · exact .inl (List.mem_append_left _ hb)
      · exact .inr hb
    · exact .inl (List.mem_append_right _ (List.mem_singleton_self _))

/-- A publish to the subject marks itself, unless it comes too soon. -/
theorem publish {now index : ℕ} {e : Entry} (hi : Ringed s p h st)
    (hs : bjmSubjectValid s = true) (hr : Readable (policyRecord p)) (hage : p.maxAgeS ≠ 0)
    (hclock : ∀ e ∈ h, e.timeS ≤ now / 1000) (hlast : (st.logOf s).last + 1 < 2 ^ 53)
    (hnow : now / 1000 < 2 ^ 53) (hpub : st.bjmPublish now s e = .ok (index, st'))
    (hmarked : Marked (h ++ [⟨s, index, now / 1000⟩]) st') :
    Ringed s p (h ++ [⟨s, index, now / 1000⟩]) st' := by
  obtain ⟨rfl, hlogs, hm⟩ := bjmPublish_eq hpub
  obtain ⟨m, hof, hsuffix, hlen, hheld⟩ := hi.ring
  obtain ⟨hat, hread⟩ := hi.marks_read hof hsuffix hlen
  have hload := marksRead_at hat
  rw [if_pos hread] at hload
  have hbase : (st'.logOf s).base = (st.logOf s).base := by
    rw [logOf_insert hlogs, if_pos rfl]
    rfl
  have hpolicy : st'.policy[pairKey (ascii "p") s]? = some (policyRecord p) := by
    refine (hm.others _ fun heq => ?_).trans hi.policy.2
    exact absurd (List.cons.inj (boundedKey_eq heq)).1 (by decide)
  have hsnoc := hi.markedUnder_snoc ((st.logOf s).last + 1) hclock (by omega)
  have hleft : MarkLeft p s (laid m) ((st.logOf s).last + 1) (st.openSubject s).lastMarkT
      (now / 1000) { st with logs := st.logs.insert s ((st.logOf s).append e) } st' := by
    rw [bjmPublish_store hpub]
    exact markPublish_left { st with logs := st.logs.insert s ((st.logOf s).append e) } now _ hs
      hi.policy hr hage hi.cached hload
  have hcarried : ∀ x ∈ h ++ [(⟨s, (st.logOf s).last + 1, now / 1000⟩ : PublishedAt)],
      x.subject = s → x.index < 2 ^ 53 ∧ x.timeS < 2 ^ 53 := by
    intro x hx hxs
    rcases List.mem_append.mp hx with hx | hx
    · exact hi.carried x hx hxs
    · obtain rfl := List.mem_singleton.mp hx
      exact ⟨hlast, hnow⟩
  by_cases hsoon : Soon p (st.openSubject s).lastMarkT (now / 1000)
  · obtain ⟨hpol, hopen⟩ := hleft.soon hsoon
    rw [if_pos hsoon, List.append_nil] at hsnoc
    refine ⟨hmarked, ⟨hi.policy.1, hpolicy⟩, hcarried, fun _ => by rw [hopen], ?_, m, ?_⟩
    · rw [hopen, hsnoc]
      exact hi.lastMark
    · rw [hsnoc, hbase]
      exact ⟨by simpa only [MarksOf, hpol] using hof, hsuffix, hlen, hheld⟩
  · obtain ⟨hpol, hopen⟩ := hleft.due hsoon
    rw [if_neg hsoon] at hsnoc
    refine ⟨hmarked, ⟨hi.policy.1, hpolicy⟩, hcarried, fun _ => by rw [hopen], ?_,
      markRoom m ++ [((st.logOf s).last + 1, now / 1000)], ?_⟩
    · rw [hopen, hsnoc, lastTime_snoc]
    · rw [hsnoc, hbase]
      refine ⟨.inl ?_, ring_snoc hsuffix hlen hheld⟩
      rw [hpol, ExtTreeMap.getElem?_insert_self]
      exact congrArg (some ∘ marksRecord) (ringRoom_laid m ((st.logOf s).last + 1, now / 1000))

theorem sweep (hi : Ringed s p h st) (V : Vendor) (nowS : ℕ) :
    Ringed s p h (st.bjmRetentionRun V nowS).2.2 := by
  obtain ⟨hshares, -⟩ := retentionRun_cells V nowS hi.marked.kept hi.marked.adopt
  obtain ⟨base, hforward, -, hlog⟩ :=
    retentionRun_logOf V nowS hi.marked.kept hi.marked.adopt s
  have hbase : ((st.bjmRetentionRun V nowS).2.2.logOf s).base = base := by rw [hlog]; rfl
  have hopen : (st.bjmRetentionRun V nowS).2.2.openSubject s = st.openSubject s := by
    rw [hshares.same]
    rfl
  have hpolicy : (st.bjmRetentionRun V nowS).2.2.policy[pairKey (ascii "p") s]? =
      some (policyRecord p) := by
    refine (hshares.others _ fun u heq => ?_).trans hi.policy.2
    exact absurd (List.cons.inj heq).1 (by decide)
  obtain ⟨m, hof, hsuffix, hlen, hheld⟩ := hi.ring
  obtain ⟨hat, hread⟩ := hi.marks_read hof hsuffix hlen
  have hload := marksRead_at hat
  rw [if_pos hread] at hload
  refine ⟨hi.marked.sweep V nowS, ⟨hi.policy.1, hpolicy⟩, hi.carried, ?_, ?_, ?_⟩
  · rw [hopen]
    exact hi.cached
  · rw [hopen]
    exact hi.lastMark
  have hstays : MarksOf (st.bjmRetentionRun V nowS).2.2 s m →
      ∃ m, MarksOf (st.bjmRetentionRun V nowS).2.2 s m ∧ m <:+ markedUnder p h s ∧
        m.length ≤ BJM_MARKS_MAX ∧ ∀ a ∈ newest BJM_MARKS_MAX (markedUnder p h s),
          a ∈ m ∨ a.1 ≤ ((st.bjmRetentionRun V nowS).2.2.logOf s).base := by
    refine fun hof' => ⟨m, hof', hsuffix, hlen, fun a ha => (hheld a ha).imp id fun hle => ?_⟩
    rw [hbase]
    exact Nat.le_trans hle hforward
  have hmarks := retentionRun_marks V nowS hi.marked.kept hi.marked.adopt s
  rw [hbase] at hmarks
  rcases hmarks with hsame | hpruned
  · exact hstays (by simpa only [MarksOf, hsame] using hof)
  simp only [prunedMarks] at hpruned
  rw [hload] at hpruned
  dsimp only at hpruned
  split at hpruned
  · exact hstays (by simpa only [MarksOf, hpruned] using hof)
  · rw [liveMarks_laid] at hpruned
    have htime : Timeline m := (hi.marked.timeline s).sublist
      (hsuffix.sublist.trans (markedUnder_sublist p h s))
    have habove := htime.above_suffix base
    refine ⟨_, .inl hpruned, habove.trans hsuffix, Nat.le_trans habove.length_le hlen,
      fun a ha => ?_⟩
    rw [hbase]
    rcases hheld a ha with hm | hle
    · rcases Nat.lt_or_ge base a.1 with hlt | hge
      · exact .inl (List.mem_filter.mpr ⟨hm, decide_eq_true hlt⟩)
      · exact .inr hge
    · exact .inr (Nat.le_trans hle hforward)

theorem step (V : Vendor) {op : RetentionOp} (hi : Ringed s p h st)
    (hr : Readable (policyRecord p)) (hage : p.maxAgeS ≠ 0) (ho : op.Ticking h st) :
    Ringed s p (h ++ (retentionExec V st op).1) (retentionExec V st op).2 := by
  cases op with
  | publish now t e =>
    obtain ⟨⟨ht, hclock, hnow, hroom⟩, hlast, hsecond⟩ := ho
    simp only [retentionExec]
    cases hpub : st.bjmPublish now t e with
    | error err => simpa using hi
    | ok x =>
      have hmarked := hi.marked.publish ht hclock hnow hroom hpub
      by_cases hne : t = s
      · subst hne
        exact hi.publish ht hr hage hclock hlast hsecond hpub hmarked
      · exact hi.publish_other hne hpub hmarked
  | sweep now => simpa [retentionExec] using hi.sweep V (now / 1000)
  | policySet => exact ho.elim
  | policyClear => exact ho.elim
  | trim => exact ho.elim
  | restart => exact ho.elim

theorem run (V : Vendor) {ops : List RetentionOp} (hi : Ringed s p [] st)
    (hr : Readable (policyRecord p)) (hage : p.maxAgeS ≠ 0)
    (ha : Along (retentionExec V) RetentionOp.Ticking [] st ops) :
    Ringed s p (ActionRuns.run (retentionExec V) st ops).1
      (ActionRuns.run (retentionExec V) st ops).2 := by
  have hinv := invariant hi ha fun h st op ho hi => hi.step V hr hage ho
  simpa using hinv

end Ringed

theorem le_ageBoundary (cutoff : ℕ) {m : List ℕ} {a : ℕ × ℕ} (ha : a ∈ pairs m)
    (hold : a.2 < cutoff) (hw : a.1 + 1 < 2 ^ 64) : a.1 + 1 ≤ ageBoundary cutoff m := by
  induction m using ageBoundary.induct with
  | case1 i t m ih =>
    simp only [ageBoundary]
    rcases List.mem_cons.mp ha with rfl | ha
    · rw [if_pos hold, u64_of_lt hw]
      exact Nat.le_max_left _ _
    · exact Nat.le_trans (ih ha) (Nat.le_max_right _ _)
  | case2 m h =>
    unfold pairs at ha
    split at ha
    · exact absurd rfl (h _ _ _)
    · exact absurd ha List.not_mem_nil

namespace Ringed

variable {V : Vendor} {s : Bytes} {p : Policy} {h : List PublishedAt} {st : Store} {nowS i : ℕ}

theorem swept_of_mark (hi : Ringed s p h st) (hr : Readable (policyRecord p))
    (hage : p.maxAgeS ≠ 0) (hforce : p.ignoreConsumers = true) {m : List (ℕ × ℕ)} {a : ℕ × ℕ}
    (hat : MarksAt st s (laid m)) (hread : Readable (marksRecord (laid m))) (ha : a ∈ m)
    (hword : a.1 + 1 < 2 ^ 64) (hle : i ≤ a.1) (hold : a.2 + p.maxAgeS < nowS) :
    ((st.bjmRetentionRun V nowS).2.2.logOf s).get i = none := by
  rw [← Option.not_isSome_iff_eq_none, Elog.get_isSome_iff]
  rintro ⟨hbase, hlast⟩
  cases hl : st.logs[s]? with
  | none =>
    have hcell := congrArg Prod.fst
      (retentionRun_missing V nowS hi.marked.kept hi.marked.adopt hl)
    simp only [ownCell, hl] at hcell
    simp only [logOf, hcell, Option.getD_none, Elog.last, List.length_nil] at hbase hlast
    omega
  | some log =>
    obtain ⟨base, ht⟩ := retentionRun_turned V nowS hi.marked.kept hi.marked.adopt hl
    have hs := (hi.marked.kept.policies s _ hi.policy.2).1
    have hswept := ht.listed ((mem_policyNames hi.marked.kept).mpr ⟨p, hi.policy⟩)
    rw [sweptBase_read hs hi.policy hr hat, trimTarget, if_pos hforce, readMarks,
      if_pos hread] at hswept
    have hafter : (st.bjmRetentionRun V nowS).2.2.logOf s = log.compact base := by
      simp [logOf, ht.log_eq]
    have hin : log.base ≤ base ∧ base ≤ log.last := by
      have := Nat.le_add_right log.base log.entries.length
      simp only [Elog.last] at hswept ⊢
      omega
    rw [hafter, Elog.compact_last hin.1 hin.2] at hlast
    have hgap : base < i := by rwa [hafter] at hbase
    have hlive : log.last - log.base ≠ 0 := by omega
    have hbound : a.1 + 1 ≤ limits V log p (.ok (laid m)) nowS := by
      have hwindow : p.maxAgeS ≠ 0 ∧ nowS > p.maxAgeS := ⟨hage, by omega⟩
      have hmark := le_ageBoundary (nowS - p.maxAgeS)
        (by rwa [pairs_laid] : a ∈ pairs (laid m)) (by omega) hword
      simp only [limits, if_neg hlive, ageLimit, if_pos hwindow]
      omega
    omega

theorem gone_of_marked (hi : Ringed s p h st) (hr : Readable (policyRecord p))
    (hage : p.maxAgeS ≠ 0) (hforce : p.ignoreConsumers = true)
    (htime : MarkedInTime p h s (st.logOf s) nowS) :
    OldGone p h s ((st.bjmRetentionRun V nowS).2.2.logOf s) nowS := by
  intro i t he hold
  obtain ⟨m, hof, hsuffix, hlen, hheld⟩ := hi.ring
  obtain ⟨hat, hread⟩ := hi.marks_read hof hsuffix hlen
  obtain ⟨base, hforward, -, hlog⟩ :=
    retentionRun_logOf V nowS hi.marked.kept hi.marked.adopt s
  rw [← Option.not_isSome_iff_eq_none]
  intro hsome
  have hbefore : ((st.logOf s).get i).isSome = true := by
    rw [hlog] at hsome
    have hbase : base < i := (Elog.get_isSome_iff.mp hsome).1
    rwa [Elog.get_compact hforward hbase] at hsome
  obtain ⟨a, ha, hle, hwindow⟩ := htime i t he hbefore hold
  have hword := (hi.carried _ (mem_published.mp
    ((markedUnder_sublist p h s).mem ((newest_sublist _ _).mem ha))) rfl).1
  dsimp only at hword
  have hbase := (Elog.get_isSome_iff.mp hbefore).1
  have hm : a ∈ m := (hheld a ha).resolve_right (by omega)
  rw [hi.swept_of_mark hr hage hforce hat hread hm (by omega) hle hwindow] at hsome
  contradiction

theorem marked_of_gone (hi : Ringed s p h st) (hcount : p.maxMessages = 0)
    (hbytes : p.maxBytes = 0)
    (hgone : OldGone p h s ((st.bjmRetentionRun V nowS).2.2.logOf s) nowS) :
    MarkedInTime p h s (st.logOf s) nowS := by
  intro i t he hsome hold
  obtain ⟨m, hof, hsuffix, hlen, -⟩ := hi.ring
  obtain ⟨hat, -⟩ := hi.marks_read hof hsuffix hlen
  have heq : p = ⟨p.maxAgeS, 0, 0, p.ignoreConsumers⟩ := by
    cases p
    simp_all
  have hp := hi.policy
  rw [heq] at hp
  obtain ⟨a, ha, hle, hwindow⟩ := hi.marked.swept hp hat hsome (hgone i t he hold)
  exact ⟨a, (suffix_newest hsuffix hlen).mem ha, hle, hwindow⟩

end Ringed

/-- A sweep under an age policy that ignores the consumers leaves no message that is an
interval too old, if each of those there were was followed in time by a mark. -/
theorem old_gone_of_marked (V : Vendor) {s : Bytes} {p : Policy} {st : Store}
    {ops : List RetentionOp} (hs : bjmSubjectValid s = true) (hp : ∀ n ∈ p.ints, n < 2 ^ 53)
    (hage : p.maxAgeS ≠ 0) (hforce : p.ignoreConsumers = true)
    (hset : Store.empty.bjmPolicySet s p = .ok st)
    (ha : Along (retentionExec V) RetentionOp.Ticking [] st ops) (nowS : ℕ) :
    (MarkedInTime p (run (retentionExec V) st ops).1 s
        ((run (retentionExec V) st ops).2.logOf s) nowS →
      OldGone p (run (retentionExec V) st ops).1 s
        (((run (retentionExec V) st ops).2.bjmRetentionRun V nowS).2.2.logOf s) nowS) ∧
    (p.maxMessages = 0 → p.maxBytes = 0 →
      OldGone p (run (retentionExec V) st ops).1 s
        (((run (retentionExec V) st ops).2.bjmRetentionRun V nowS).2.2.logOf s) nowS →
      MarkedInTime p (run (retentionExec V) st ops).1 s
        ((run (retentionExec V) st ops).2.logOf s) nowS) := by
  have hr : Readable (policyRecord p) := by
    intro it hit
    simp only [policyRecord, List.mem_cons, List.not_mem_nil, or_false] at hit
    have hint : ∀ n ∈ p.ints, (putInt n).Safe := fun n hn => putInt_safe (hp n hn)
    simp only [Policy.ints, List.forall_mem_cons] at hint
    obtain ⟨hseconds, hcount, hbytes, -⟩ := hint
    rcases hit with rfl | rfl | rfl | rfl | rfl | rfl | rfl | rfl | rfl | rfl <;>
      trivial
  have hwords : ∀ n ∈ p.ints, n < 2 ^ 64 := fun n hn => by
    have := hp n hn
    omega
  have hi := (Ringed.start hs hwords hset).run V hr hage ha
  exact ⟨hi.gone_of_marked hr hage hforce, fun hcount hbytes => hi.marked_of_gone hcount hbytes⟩

/-- An hour's messages are kept; a mark is due every 28 seconds. -/
def hourPolicy : Policy := ⟨3600, 0, 0, true⟩

def hourStore : Store :=
  (Store.empty.bjmPolicySet (ascii "a") hourPolicy).toOption.getD .empty

/-- A message, another 10 seconds later, and then silence. -/
def quietOps : List RetentionOp :=
  [.publish 1000000 (ascii "a") ⟨BJM_ENTRY_PLAIN, [1]⟩,
    .publish 1010000 (ascii "a") ⟨BJM_ENTRY_PLAIN, [2]⟩]

theorem quietOps_along :
    Along (retentionExec .silent) RetentionOp.Ticking [] hourStore quietOps := by
  refine ⟨⟨?_, ?_, ?_⟩, ⟨?_, ?_, ?_⟩, trivial⟩ <;> decide +kernel

/-- Two hours on, the second message is still there. -/
theorem quiet_subject_keeps_old :
    Store.empty.bjmPolicySet (ascii "a") hourPolicy = .ok hourStore ∧
    Along (retentionExec .silent) RetentionOp.Ticking [] hourStore quietOps ∧
    ¬ OldGone hourPolicy (run (retentionExec .silent) hourStore quietOps).1 (ascii "a")
      (((run (retentionExec .silent) hourStore quietOps).2.bjmRetentionRun .silent 10000).2.2.logOf
        (ascii "a")) 10000 := by
  refine ⟨rfl, quietOps_along, fun hgone => ?_⟩
  have hmem : (⟨ascii "a", 2, 1010⟩ : PublishedAt) ∈
      (run (retentionExec .silent) hourStore quietOps).1 :=
    List.mem_cons_of_mem _ (List.mem_cons_self ..)
  have hnone := hgone 2 1010 hmem (by decide)
  have hsome : (((((run (retentionExec .silent) hourStore quietOps).2.bjmRetentionRun .silent
      10000).2.2.logOf (ascii "a")).get 2).isSome) = true := by decide +kernel
  rw [hnone] at hsome
  contradiction

theorem quiet_old_gone_iff :
    MarkedInTime hourPolicy (run (retentionExec .silent) hourStore quietOps).1 (ascii "a")
        ((run (retentionExec .silent) hourStore quietOps).2.logOf (ascii "a")) 10000 ↔
      OldGone hourPolicy (run (retentionExec .silent) hourStore quietOps).1 (ascii "a")
        (((run (retentionExec .silent) hourStore quietOps).2.bjmRetentionRun .silent
          10000).2.2.logOf (ascii "a")) 10000 := by
  have hset : Store.empty.bjmPolicySet (ascii "a") hourPolicy = .ok hourStore := rfl
  obtain ⟨hgone, hmarked⟩ := old_gone_of_marked .silent (by decide) (by decide) (by decide) rfl
    hset quietOps_along 10000
  exact ⟨hgone, hmarked rfl rfl⟩

end SukkalMsg
