import SukkalMsg.HighWater
import SukkalMsg.Listings
import SukkalMsg.PushProgress

/-!
# The receipt tree is a map

A receipt stands under its subject and its consumer, flattened into one key. Along
every run of the calls that move and drop receipts, the tree holds a map of
high-water marks over pairs of names, and each of the queries answers from it.
-/

namespace SukkalMsg

open Std Names Binjson OrderedScan HighWater ActionRuns Store

inductive CursorOp where
  | set (subject consumer : Bytes) (index : ℕ)
  | delete (subject consumer : Bytes)
  | deleteConsumer (consumer : Bytes)

/-- A call with what it answered; `set` has no number to give, and gives 0. -/
structure CursorCall where
  op : CursorOp
  answer : Except BjErr ℕ

def cursorExec (st : Store) (op : CursorOp) : List CursorCall × Store :=
  match op with
  | .set s c n => match st.bjmCursorSet s c n with
    | .error e => ([⟨op, .error e⟩], st)
    | .ok st => ([⟨op, .ok 0⟩], st)
  | .delete s c => match st.bjmCursorDelete s c with
    | .error e => ([⟨op, .error e⟩], st)
    | .ok (deleted, st) => ([⟨op, .ok deleted.toNat⟩], st)
  | .deleteConsumer c =>
    ([⟨op, .ok (st.bjmCursorDeleteConsumer c).1⟩], (st.bjmCursorDeleteConsumer c).2)

def CursorOp.Admitted : CursorOp → Prop
  | .set s c n => bjmSubjectValid s = true ∧ bjmConsumerValid c = true ∧ n < 2 ^ 53
  | .delete s c => bjmSubjectValid s = true ∧ bjmConsumerValid c = true
  | .deleteConsumer c => bjmConsumerValid c = true

def CursorOp.change : CursorOp → Change (Bytes × Bytes)
  | .set s c n => .raise (s, c) n
  | .delete s c => .forget fun k => k = (s, c)
  | .deleteConsumer c => .forget fun k => k.2 = c

/-- What a consumer is listed as: its receipt, and how far the log is ahead of it. -/
def consumerObject (last : ℕ) (consumer : Bytes) (acked : ℕ) : Record :=
  [.beginObject,
    .key (ascii "consumer"), .string consumer,
    .key (ascii "acked"), putInt acked,
    .key (ascii "lag"), putInt (if last > acked then last - acked else 0),
    .endObject]

/-- The tree is the map: a pair of valid names is found exactly when it has a mark. -/
structure Maps (st : Store) (m : Bytes × Bytes → Option ℕ) : Prop where
  named : ∀ s c n, m (s, c) = some n →
    bjmSubjectValid s = true ∧ bjmConsumerValid c = true ∧ n < 2 ^ 53
  found : ∀ s c, bjmSubjectValid s = true → bjmConsumerValid c = true →
    st.cursors[pairKey s c]? = (m (s, c)).map indexRecord
  only : ∀ (k : Bytes) (r : Record), st.cursors[k]? = some r →
    ∃ s c n, k = pairKey s c ∧ m (s, c) = some n

namespace Maps

variable {st : Store} {m : Bytes × Bytes → Option ℕ} {s c : Bytes}

theorem entry (h : Maps st m) {k : Bytes} {r : Record} (hr : st.cursors[k]? = some r) :
    ∃ s c n, k = pairKey s c ∧ r = indexRecord n ∧ m (s, c) = some n ∧
      bjmSubjectValid s = true ∧ bjmConsumerValid c = true ∧ n < 2 ^ 53 := by
  obtain ⟨s, c, n, rfl, hm⟩ := h.only k r hr
  obtain ⟨hs, hc, hn⟩ := h.named s c n hm
  rw [h.found s c hs hc, hm] at hr
  exact ⟨s, c, n, rfl, (Option.some.inj hr).symm, hm, hs, hc, hn⟩

theorem get (h : Maps st m) (hs : bjmSubjectValid s = true) (hc : bjmConsumerValid c = true) :
    st.bjmCursorGet s c = .ok (m (s, c)) := by
  simp only [bjmCursorGet, cursorKey_of_valid hs hc, h.found s c hs hc]
  cases hm : m (s, c) with
  | none => rfl
  | some n => simp [decodeIndex_indexRecord (h.named s c n hm).2.2, Except.map]

/-- A set leaves the pair at the higher of its mark and the index. -/
theorem set (h : Maps st m) (hs : bjmSubjectValid s = true) (hc : bjmConsumerValid c = true)
    {n : ℕ} (hn : n < 2 ^ 53) :
    ∃ st', st.bjmCursorSet s c n = .ok st' ∧ Maps st' ((Change.raise (s, c) n).exec m) := by
  have hself : ∀ k, k ≤ 2 ^ 53 → m (s, c) = some k → n ≤ k →
      (Change.raise (s, c) n).exec m = m := fun k _ hm hle => by
    simp only [Change.exec, hm, higher, Nat.max_eq_left hle]
    rw [← hm, Function.update_eq_self]
  have hraised : ∀ k, higher n (m (s, c)) = k → k = n →
      Maps { st with cursors := st.cursors.insert (pairKey s c) (indexRecord n) }
        ((Change.raise (s, c) n).exec m) := by
    intro k hk hkn
    subst hkn
    have hmark : ∀ s' c', (Change.raise (s, c) k).exec m (s', c') =
        if (s', c') = (s, c) then some k else m (s', c') := fun s' c' => by
      simp only [Change.exec, hk, Function.update_apply]
    refine ⟨fun s' c' n' hm' => ?_, fun s' c' hs' hc' => ?_, fun k' r hr => ?_⟩
    · rw [hmark] at hm'
      split at hm'
      · rename_i heq
        obtain ⟨rfl, rfl⟩ := Prod.mk.inj heq
        obtain rfl := Option.some.inj hm'
        exact ⟨hs, hc, hn⟩
      · exact h.named s' c' n' hm'
    · rw [hmark, getElem?_insert]
      by_cases heq : (s', c') = (s, c)
      · obtain ⟨rfl, rfl⟩ := Prod.mk.inj heq
        simp
      · have hne : pairKey s c ≠ pairKey s' c' := fun he => by
          obtain ⟨rfl, rfl⟩ := pairKey_injective (slash_notMem_of_nameValid hs)
            (slash_notMem_of_nameValid hs') he
          exact heq rfl
        rw [if_neg hne, if_neg heq]
        exact h.found s' c' hs' hc'
    · rw [getElem?_insert] at hr
      split at hr
      · rename_i heq
        exact ⟨s, c, k, heq.symm, by rw [hmark, if_pos rfl]⟩
      · obtain ⟨s', c', n', rfl, hm'⟩ := h.only k' r hr
        refine ⟨s', c', n', rfl, ?_⟩
        rw [hmark, if_neg fun heq => ?_]
        · exact hm'
        · obtain ⟨rfl, rfl⟩ := Prod.mk.inj heq
          contradiction
  simp only [bjmCursorSet, h.get hs hc, cursorKey_of_valid hs hc]
  cases hm : m (s, c) with
  | none =>
    simp only [Option.any_none, Bool.false_eq_true, if_false]
    exact ⟨_, rfl, hraised n (by rw [hm]; rfl) rfl⟩
  | some k =>
    by_cases hle : n ≤ k
    · simp only [Option.any_some, hle, decide_true, if_true]
      refine ⟨st, rfl, ?_⟩
      rw [hself k (h.named s c k hm).2.2.le hm hle]
      exact h
    · simp only [Option.any_some, hle, decide_false, Bool.false_eq_true, if_false]
      refine ⟨_, rfl, hraised n ?_ rfl⟩
      rw [hm]
      simp only [higher]
      omega

theorem forget (h : Maps st m) {t : Tree} {drop : Bytes × Bytes → Bool}
    (ht : ∀ s c, bjmSubjectValid s = true → bjmConsumerValid c = true →
      t[pairKey s c]? = if drop (s, c) then none else st.cursors[pairKey s c]?)
    (hsub : ∀ (k : Bytes) (r : Record), t[k]? = some r → st.cursors[k]? = some r) :
    Maps { st with cursors := t } ((Change.forget drop).exec m) := by
  refine ⟨fun s c n hm => ?_, fun s c hs hc => ?_, fun k r hr => ?_⟩
  · simp only [Change.exec] at hm
    split at hm
    · contradiction
    · exact h.named s c n hm
  · rw [ht s c hs hc, h.found s c hs hc]
    simp only [Change.exec]
    split <;> rfl
  · obtain ⟨s, c, n, rfl, -, hm, hs, hc, -⟩ := h.entry (hsub k r hr)
    refine ⟨s, c, n, rfl, ?_⟩
    have hkept := ht s c hs hc
    rw [hr] at hkept
    simp only [Change.exec]
    split at hkept
    · contradiction
    · rw [if_neg ‹_›]
      exact hm

theorem delete (h : Maps st m) (hs : bjmSubjectValid s = true) (hc : bjmConsumerValid c = true) :
    ∃ st', st.bjmCursorDelete s c = .ok ((m (s, c)).isSome, st') ∧
      Maps st' ((CursorOp.delete s c).change.exec m) := by
  have hfound := h.found s c hs hc
  have hcontains : st.cursors.contains (pairKey s c) = (m (s, c)).isSome := by
    rw [ExtTreeMap.contains_eq_isSome_getElem?, hfound, Option.isSome_map]
  have hkeys : ∀ s' c', bjmSubjectValid s' = true →
      (pairKey s c = pairKey s' c' ↔ (s', c') = (s, c)) := fun s' c' hs' => by
    constructor
    · intro he
      obtain ⟨rfl, rfl⟩ := pairKey_injective (slash_notMem_of_nameValid hs)
        (slash_notMem_of_nameValid hs') he
      rfl
    · intro he
      obtain ⟨rfl, rfl⟩ := Prod.mk.inj he
      rfl
  simp only [bjmCursorDelete, cursorKey_of_valid hs hc, hcontains]
  cases hm : m (s, c) with
  | none =>
    refine ⟨st, rfl, h.forget (t := st.cursors) (fun s' c' hs' hc' => ?_) fun _ _ hr => hr⟩
    split
    · rename_i heq
      obtain ⟨rfl, rfl⟩ := Prod.mk.inj (of_decide_eq_true heq)
      rw [hfound, hm]
      rfl
    · rfl
  | some n =>
    refine ⟨_, rfl, h.forget (fun s' c' hs' hc' => ?_) fun k r hr => ?_⟩
    · rw [getElem?_erase]
      simp only [hkeys s' c' hs', decide_eq_true_eq]
    · rw [getElem?_erase] at hr
      split at hr
      · contradiction
      · exact hr

theorem heldBy_pairKey (hs : bjmSubjectValid s = true) (hc : bjmConsumerValid c = true)
    {c' : Bytes} (hc' : bjmConsumerValid c' = true) :
    heldBy c' (pairKey s c) = decide (c = c') := by
  have hpos : s.length ≠ 0 := by
    intro hnil
    obtain rfl := List.length_eq_zero_iff.mp hnil
    exact absurd hs (by decide)
  by_cases heq : c = c'
  · subst heq
    simp only [heldBy, decide_true, Bool.and_eq_true, decide_eq_true_eq, pairKey,
      List.length_append, List.length_cons, List.isSuffixOf_iff_suffix]
    exact ⟨by omega, s, rfl⟩
  · simp only [heq, decide_false, Bool.eq_false_iff, ne_eq, heldBy, Bool.and_eq_true,
      List.isSuffixOf_iff_suffix]
    rintro ⟨-, t, ht⟩
    exact heq (pairKey_right (slash_notMem_of_nameValid hc') (slash_notMem_of_nameValid hc) ht).symm

/-- A purge forgets the consumer on all its subjects, and counts them. -/
theorem deleteConsumer (h : Maps st m) (hc : bjmConsumerValid c = true) :
    (∃ ss : List Bytes, ss.Nodup ∧ (∀ s, s ∈ ss ↔ (m (s, c)).isSome = true) ∧
      (st.bjmCursorDeleteConsumer c).1 = ss.length) ∧
    Maps (st.bjmCursorDeleteConsumer c).2 ((CursorOp.deleteConsumer c).change.exec m) := by
  constructor
  · have hmem : ∀ (k : Bytes) (r : Record),
        (k, r) ∈ (st.cursors.filter fun k _ => heldBy c k).toList ↔
          ∃ s n, k = pairKey s c ∧ r = indexRecord n ∧ m (s, c) = some n := by
      intro k r
      rw [ExtTreeMap.mem_toList_iff_getElem?_eq_some, ExtTreeMap.getElem?_filter']
      constructor
      · intro hr
        cases hk : st.cursors[k]? with
        | none => simp [hk] at hr
        | some r' =>
          obtain ⟨s, c', n, rfl, rfl, hm, hs, hc', -⟩ := h.entry hk
          simp only [hk, heldBy_pairKey hs hc' hc, Option.filter_some, decide_eq_true_eq] at hr
          split at hr
          · rename_i heq
            subst heq
            exact ⟨s, n, rfl, (Option.some.inj hr).symm, hm⟩
          · contradiction
      · rintro ⟨s, n, rfl, rfl, hm⟩
        obtain ⟨hs, -, -⟩ := h.named s c n hm
        rw [h.found s c hs hc, hm]
        simp [heldBy_pairKey hs hc hc]
    let subjectPart : Bytes × Record → Bytes := fun p => p.1.take (p.1.length - (c.length + 1))
    have hpart : ∀ (s : Bytes) r, subjectPart (pairKey s c, r) = s := fun s r => by
      simp only [subjectPart, pairKey, List.length_append, List.length_cons,
        Nat.add_sub_cancel, List.take_left']
    refine ⟨(st.cursors.filter fun k _ => heldBy c k).toList.map subjectPart, ?_, ?_, ?_⟩
    · have hkeys := keys_nodup (st.cursors.filter fun k _ => heldBy c k)
      rw [List.nodup_iff_pairwise_ne, List.pairwise_map] at hkeys ⊢
      refine hkeys.imp_of_mem fun {p q} hp hq hne heq => hne ?_
      obtain ⟨s, n, hk, -, -⟩ := (hmem p.1 p.2).mp hp
      obtain ⟨s', n', hk', -, -⟩ := (hmem q.1 q.2).mp hq
      have hs := hpart s p.2
      have hs' := hpart s' q.2
      rw [← hk] at hs
      rw [← hk'] at hs'
      rw [hk, hk', ← hs, ← hs', heq]
    · intro s
      simp only [List.mem_map]
      constructor
      · rintro ⟨⟨k, r⟩, hp, rfl⟩
        obtain ⟨s, n, rfl, -, hm⟩ := (hmem k r).mp hp
        rw [hpart, hm]
        rfl
      · intro hsome
        obtain ⟨n, hm⟩ := Option.isSome_iff_exists.mp hsome
        exact ⟨_, (hmem _ _).mpr ⟨s, n, rfl, rfl, hm⟩, hpart s _⟩
    · rw [List.length_map, ExtTreeMap.length_toList]
      rfl
  · refine h.forget (fun s' c' hs' hc' => ?_) fun k r hr => ?_
    · rw [ExtTreeMap.getElem?_filter', heldBy_pairKey hs' hc' hc]
      by_cases heq : c' = c <;> cases st.cursors[pairKey s' c']? <;> simp [heq]
    · rw [ExtTreeMap.getElem?_filter'] at hr
      exact (Option.filter_eq_some_iff.mp hr).1

/-- A subject's range lists its consumers, each once, and answers for their marks. -/
theorem listed (h : Maps st m) (hs : bjmSubjectValid s = true) :
    ∃ cs : List (Bytes × ℕ), (cs.map Prod.fst).Nodup ∧
      (∀ c n, (c, n) ∈ cs ↔ m (s, c) = some n) ∧
      st.acks s = cs.map Prod.snd ∧
      st.consumerObjects s = cs.map fun x => consumerObject (st.bjmLastIndex s) x.1 x.2 := by
  have hslash := slash_notMem_of_nameValid hs
  have hmem : ∀ (k : Bytes) (r : Record), (k, r) ∈ subjectRange st.cursors s ↔
      ∃ c n, k = pairKey s c ∧ r = indexRecord n ∧ m (s, c) = some n := by
    intro k r
    constructor
    · intro hkr
      obtain ⟨s', c, n, rfl, rfl, hm, hs', -⟩ := h.entry (mem_scan.mp hkr).1
      obtain ⟨rfl, -⟩ := (mem_subjectRange hslash (slash_notMem_of_nameValid hs')).mp hkr
      exact ⟨c, n, rfl, rfl, hm⟩
    · rintro ⟨c, n, rfl, rfl, hm⟩
      refine (mem_subjectRange hslash hslash).mpr ⟨rfl, ?_⟩
      rw [h.found s c hs (h.named s c n hm).2.1, hm]
      rfl
  let reader : Bytes × Record → Bytes × ℕ := fun p =>
    (p.1.drop (s.length + 1), (decodeIndex p.2).toOption.getD 0)
  have hdrop : ∀ c : Bytes, (pairKey s c).drop (s.length + 1) = c := fun c => by
    have : pairKey s c = (s ++ [slash]) ++ c := by simp [pairKey]
    rw [this, List.drop_left' (by simp)]
  have hreader : ∀ c n, n < 2 ^ 53 → reader (pairKey s c, indexRecord n) = (c, n) :=
    fun c n hn => by
      simp only [reader, hdrop, decodeIndex_indexRecord hn]
      rfl
  refine ⟨(subjectRange st.cursors s).map reader, ?_, ?_, ?_, ?_⟩
  · have hkeys := scan_keys_nodup st.cursors (s ++ [slash]) (s ++ [0x30])
    rw [List.nodup_iff_pairwise_ne, List.pairwise_map] at hkeys
    rw [List.map_map, List.nodup_iff_pairwise_ne, List.pairwise_map]
    refine hkeys.imp_of_mem fun {p q} hp hq hne heq => hne ?_
    obtain ⟨c, n, hk, -, -⟩ := (hmem p.1 p.2).mp hp
    obtain ⟨c', n', hk', -, -⟩ := (hmem q.1 q.2).mp hq
    have hcc : c = c' := by
      simpa only [Function.comp_apply, reader, hk, hk', hdrop] using heq
    rw [hk, hk', hcc]
  · intro c n
    simp only [List.mem_map]
    constructor
    · rintro ⟨⟨k, r⟩, hp, heq⟩
      obtain ⟨c', n', rfl, rfl, hm⟩ := (hmem k r).mp hp
      rw [hreader c' n' (h.named s c' n' hm).2.2] at heq
      obtain ⟨rfl, rfl⟩ := Prod.mk.inj heq
      exact hm
    · intro hm
      exact ⟨_, (hmem _ _).mpr ⟨c, n, rfl, rfl, hm⟩, hreader c n (h.named s c n hm).2.2⟩
  · simp only [acks, List.map_map]
    rw [← List.filterMap_eq_map]
    apply List.filterMap_congr
    rintro ⟨k, r⟩ hp
    obtain ⟨c, n, rfl, rfl, hm⟩ := (hmem k r).mp hp
    have hn := (h.named s c n hm).2.2
    simp only [Function.comp_apply, hreader c n hn, decodeIndex_indexRecord hn]
    rfl
  · simp only [consumerObjects, List.map_map]
    rw [← List.filterMap_eq_map]
    apply List.filterMap_congr
    rintro ⟨k, r⟩ hp
    obtain ⟨c, n, rfl, rfl, hm⟩ := (hmem k r).mp hp
    obtain ⟨-, hc, hn⟩ := h.named s c n hm
    have hlen : ¬ (pairKey s c).length ≤ s.length + 1 := by
      have hne : c ≠ [] := by
        rintro rfl
        exact absurd hc (by decide)
      have := List.length_pos_iff.mpr hne
      simp only [pairKey, List.length_append, List.length_cons]
      omega
    simp only [Function.comp_apply, hreader c n hn, decodeIndex_indexRecord hn, hlen, if_false,
      hdrop, consumerObject]

end Maps

/-- The number a call answers with: how many receipts it removed. -/
def CursorOp.Removes (h : List (Change (Bytes × Bytes))) : CursorOp → ℕ → Prop
  | .set .., n => n = 0
  | .delete s c, n => n = if since (s, c) h = [] then 0 else 1
  | .deleteConsumer c, n =>
    ∃ ss : List Bytes, ss.Nodup ∧ (∀ s, s ∈ ss ↔ since (s, c) h ≠ []) ∧ n = ss.length

/-- Every query answers from the highest indexes set since the last deletion. -/
structure AnswersFrom (st : Store) (h : List (Change (Bytes × Bytes))) : Prop where
  get : ∀ s c, bjmSubjectValid s = true → bjmConsumerValid c = true →
    st.bjmCursorGet s c = .ok (since (s, c) h).max?
  listed : ∀ s, bjmSubjectValid s = true →
    ∃ cs : List (Bytes × ℕ), (cs.map Prod.fst).Nodup ∧
      (∀ c n, (c, n) ∈ cs ↔ (since (s, c) h).max? = some n) ∧
      st.bjmConsumerStats s = (cs.length, (cs.map Prod.snd).min?.getD UINT64_MAX) ∧
      st.bjmConsumers s =
        arrayRecord (cs.map fun x => consumerObject (st.bjmLastIndex s) x.1 x.2)

theorem foldl_min_sentinel {ns : List ℕ} (h : ∀ n ∈ ns, n ≤ UINT64_MAX) :
    ns.foldl min UINT64_MAX = ns.min?.getD UINT64_MAX := by
  cases ns with
  | nil => rfl
  | cons n ns =>
    simp only [List.foldl_cons, List.min?_cons', Option.getD_some]
    rw [Nat.min_eq_right (h n List.mem_cons_self)]

theorem since_eq_nil {h : List (Change (Bytes × Bytes))} {k : Bytes × Bytes} :
    since k h = [] ↔ marks h k = none := by
  rw [marks_eq_max, List.max?_eq_none_iff]

theorem isSome_marks {h : List (Change (Bytes × Bytes))} {k : Bytes × Bytes} :
    (marks h k).isSome = true ↔ since k h ≠ [] := by
  rw [ne_eq, since_eq_nil, ← ne_eq, Option.ne_none_iff_isSome]

namespace Maps

variable {st : Store} {h : List (Change (Bytes × Bytes))} {op : CursorOp}

theorem step (hm : Maps st (marks h)) (ha : op.Admitted) :
    Maps (cursorExec st op).2 (marks (h ++ [op.change])) ∧
      ∃ n, (cursorExec st op).1 = [⟨op, .ok n⟩] ∧ op.Removes h n := by
  rw [marks_snoc]
  cases op with
  | set s c n =>
    obtain ⟨st', hset, hm'⟩ := hm.set ha.1 ha.2.1 ha.2.2
    simp only [cursorExec, hset]
    exact ⟨hm', 0, rfl, rfl⟩
  | delete s c =>
    obtain ⟨st', hdel, hm'⟩ := hm.delete ha.1 ha.2
    simp only [cursorExec, hdel]
    refine ⟨hm', _, rfl, ?_⟩
    simp only [CursorOp.Removes, since_eq_nil]
    cases marks h (s, c) <;> rfl
  | deleteConsumer c =>
    obtain ⟨⟨ss, hnodup, hss, hn⟩, hm'⟩ := hm.deleteConsumer ha
    refine ⟨hm', _, rfl, ss, hnodup, fun s => ?_, hn⟩
    rw [hss, isSome_marks]

theorem run (h₀ : st.cursors = ∅) {ops : List CursorOp} (ha : ∀ op ∈ ops, op.Admitted) :
    Maps (ActionRuns.run cursorExec st ops).2 (marks (ops.map CursorOp.change)) := by
  induction ops using List.reverseRecOn with
  | nil =>
    refine ⟨fun _ _ _ hm => by simp at hm, fun s c _ _ => ?_, fun k r hr => ?_⟩
    · simp [h₀]
    · simp [h₀] at hr
  | append_singleton ops op ih =>
    have hm := ih fun o ho => ha o (List.mem_append_left _ ho)
    rw [run_append, List.map_append, List.map_singleton]
    exact (hm.step (ha op (by simp))).1

theorem answersFrom (hm : Maps st (marks h)) : AnswersFrom st h := by
  refine ⟨fun s c hs hc => ?_, fun s hs => ?_⟩
  · rw [hm.get hs hc, marks_eq_max]
  · obtain ⟨cs, hnodup, hcs, hacks, hobjects⟩ := hm.listed hs
    refine ⟨cs, hnodup, fun c n => by rw [hcs, marks_eq_max], ?_, ?_⟩
    · have hle : ∀ n ∈ cs.map Prod.snd, n ≤ UINT64_MAX := by
        intro n hn
        obtain ⟨⟨c, n⟩, hcn, rfl⟩ := List.mem_map.mp hn
        have := (hm.named s c n ((hcs c n).mp hcn)).2.2
        simp only [UINT64_MAX]
        omega
      simp only [bjmConsumerStats, hacks, foldl_min_sentinel hle, List.length_map]
    · rw [bjmConsumers, hobjects]

end Maps

/-- Along every run from an empty tree the receipts are a map, and so they are after one more
call, which answers for what it removed and leaves every other receipt where it was. -/
theorem receipt_tree_refines_map {st : Store} {ops : List CursorOp} (h₀ : st.cursors = ∅)
    (ha : ∀ op ∈ ops, op.Admitted) :
    AnswersFrom (run cursorExec st ops).2 (ops.map CursorOp.change) ∧
      ∀ op : CursorOp, op.Admitted →
        (∃ n, (cursorExec (run cursorExec st ops).2 op).1 = [⟨op, .ok n⟩] ∧
          op.Removes (ops.map CursorOp.change) n) ∧
        ∀ s c, bjmSubjectValid s = true → bjmConsumerValid c = true →
          ¬ op.change.Touches (s, c) →
            (cursorExec (run cursorExec st ops).2 op).2.bjmCursorGet s c =
              (run cursorExec st ops).2.bjmCursorGet s c := by
  have hm := Maps.run h₀ ha
  refine ⟨hm.answersFrom, fun op hop => ?_⟩
  obtain ⟨hm', hanswer⟩ := hm.step hop
  refine ⟨hanswer, fun s c hs hc hother => ?_⟩
  rw [hm'.get hs hc, hm.get hs hc, marks_snoc, exec_of_untouched hother]

def twoSubjects : List CursorOp :=
  [.set (ascii "a") (ascii "w") 7, .set (ascii "a.b") (ascii "w") 3, .set (ascii "a") (ascii "w") 5,
    .delete (ascii "a.b") (ascii "w")]

theorem twoSubjects_refines :
    AnswersFrom (run cursorExec Store.empty twoSubjects).2 (twoSubjects.map CursorOp.change) ∧
      ∃ n, (cursorExec (run cursorExec Store.empty twoSubjects).2
        (.deleteConsumer (ascii "w"))).1 = [⟨.deleteConsumer (ascii "w"), .ok n⟩] := by
  have ha : ∀ op ∈ twoSubjects, op.Admitted := by
    intro op hop
    simp only [twoSubjects, List.mem_cons, List.not_mem_nil, or_false] at hop
    rcases hop with rfl | rfl | rfl | rfl <;> simp only [CursorOp.Admitted] <;> decide
  have h₀ : Store.empty.cursors = ∅ := rfl
  obtain ⟨hall, hnext⟩ := receipt_tree_refines_map h₀ ha
  have hw : (CursorOp.deleteConsumer (ascii "w")).Admitted := by
    simp only [CursorOp.Admitted]
    decide
  obtain ⟨⟨n, hn, -⟩, -⟩ := hnext _ hw
  exact ⟨hall, n, hn⟩

end SukkalMsg
