import SukkalMsg.ReceiptBounds

/-!
# A request touches what it names

What is kept of a subject is its log, its receipts, its groups, its policy and its
marks. A call changes them for the subject it is given, or for the dead-letter channel
of it. A request therefore leaves every subject alone that it does not name, and so
does a run of them.
-/

namespace SukkalMsg

open Std Names Binjson OrderedScan Store ActionRuns

/-- All that is kept of the subject is as it was. -/
structure Store.SameAt (x : Bytes) (st st' : Store) : Prop where
  log : st'.logs[x]? = st.logs[x]?
  receipts : ∀ c, st'.cursors[pairKey x c]? = st.cursors[pairKey x c]?
  groups : ∀ g, st'.queues[pairKey x g]? = st.queues[pairKey x g]?
  policy : st'.policy[pairKey (ascii "p") x]? = st.policy[pairKey (ascii "p") x]?
  marks : st'.policy[pairKey (ascii "m") x]? = st.policy[pairKey (ascii "m") x]?

namespace Store.SameAt

variable {x s : Bytes} {st st' st'' : Store}

theorem refl : SameAt x st st := ⟨rfl, fun _ => rfl, fun _ => rfl, rfl, rfl⟩

theorem trans (h : SameAt x st st') (h' : SameAt x st' st'') : SameAt x st st'' where
  log := h'.log.trans h.log
  receipts c := (h'.receipts c).trans (h.receipts c)
  groups g := (h'.groups g).trans (h.groups g)
  policy := h'.policy.trans h.policy
  marks := h'.marks.trans h.marks

/-- The kinds of the policy tree's keys hold no slash. -/
theorem kind_ne {a b m n : Bytes} (ha : slash ∉ a) (hb : slash ∉ b) (hne : a ≠ b ∨ m ≠ n) :
    pairKey a m ≠ pairKey b n := by
  intro h
  obtain ⟨rfl, rfl⟩ := pairKey_injective ha hb h
  rcases hne with hne | hne <;> exact hne rfl

theorem of_marksOnly (h : MarksOnly s st st') (hx : x ≠ s) : SameAt x st st' where
  log := by rw [h.logs_eq]
  receipts c := by rw [h.cursors_eq]
  groups g := by rw [h.queues_eq]
  policy := h.others _ fun hk => kind_ne (by decide) (by decide) (.inl (by decide))
    (boundedKey_eq hk)
  marks := h.others _ fun hk => kind_ne (by decide) (by decide) (.inr hx) (boundedKey_eq hk)

theorem of_publishedTo (h : PublishedTo s st st') (hx : x ≠ s) : SameAt x st st' := by
  have hmarks := of_marksOnly h.marks hx
  exact ⟨h.others x hx, hmarks.receipts, hmarks.groups, hmarks.policy, hmarks.marks⟩

theorem of_dedupOnly (h : DedupOnly st st') : SameAt x st st' where
  log := by rw [h.logs_eq]
  receipts c := by rw [h.cursors_eq]
  groups g := by rw [h.queues_eq]
  policy := h.others _ (kind_ne (b := ascii "d") (by decide) (by decide) (.inl (by decide)))
  marks := h.others _ (kind_ne (b := ascii "d") (by decide) (by decide) (.inl (by decide)))

/-- Another subject's receipts are under other keys. -/
theorem of_cursors (hsame : st' = { st with cursors := st'.cursors })
    (hkeys : ∀ c, st'.cursors[pairKey x c]? = st.cursors[pairKey x c]?) : SameAt x st st' := by
  rw [hsame]
  exact ⟨rfl, hkeys, fun _ => rfl, rfl, rfl⟩

theorem of_queues (hsame : st' = { st with queues := st'.queues })
    (hkeys : ∀ g, st'.queues[pairKey x g]? = st.queues[pairKey x g]?) : SameAt x st st' := by
  rw [hsame]
  exact ⟨rfl, fun _ => rfl, hkeys, rfl, rfl⟩

/-- A key of one subject is not of another. -/
theorem keys_ne (hx : slash ∉ x) (hs : slash ∉ s) (hne : x ≠ s) (c c' : Bytes) :
    pairKey s c' ≠ pairKey x c :=
  fun h => hne (pairKey_injective hs hx h).1.symm

theorem of_group (hx : slash ∉ x) (hs : slash ∉ s) (hne : x ≠ s) {g : Bytes} {r : Record} :
    SameAt x st { st with queues := st.queues.insert (pairKey s g) r } := by
  refine of_queues rfl fun c => ?_
  rw [getElem?_insert, if_neg (keys_ne hx hs hne c g)]

theorem of_release (hx : slash ∉ x) (hs : slash ∉ s) (hne : x ≠ s) {now index delay : ℕ}
    {g : Bytes} {drop : Bool} {r : Released}
    (h : st.queueRelease now s g index drop delay = .ok r) : SameAt x st r.store := by
  obtain ⟨q, existed, -, ⟨rfl, -⟩ | ⟨pre, e, suf, q', -, -, -, -, heq, -⟩⟩ := queueRelease_eq h
  · exact refl
  · rw [heq]
    exact of_group hx hs hne

theorem of_cursorSet (hx : slash ∉ x) (hs : slash ∉ s) (hne : x ≠ s) {c : Bytes} {n : ℕ}
    (h : st.bjmCursorSet s c n = .ok st') : SameAt x st st' := by
  rcases bjmCursorSet_eq h with ⟨rfl, -⟩ | ⟨rfl, -⟩
  · exact refl
  · refine of_cursors rfl fun c' => ?_
    rw [getElem?_insert, if_neg (keys_ne hx hs hne c' c)]

theorem of_cursorDelete (hx : slash ∉ x) (hs : slash ∉ s) (hne : x ≠ s) {c : Bytes} {deleted : Bool}
    (h : st.bjmCursorDelete s c = .ok (deleted, st')) : SameAt x st st' := by
  simp only [bjmCursorDelete] at h
  split at h
  · contradiction
  rename_i key hkey
  obtain rfl := boundedKey_eq hkey
  split at h
  · obtain ⟨-, rfl⟩ := Prod.mk.inj (Except.ok.inj h)
    refine of_cursors rfl fun c' => ?_
    rw [getElem?_erase, if_neg (keys_ne hx hs hne c' c)]
  · obtain ⟨-, rfl⟩ := Prod.mk.inj (Except.ok.inj h)
    exact refl

theorem of_queueDelete (hx : slash ∉ x) (hs : slash ∉ s) (hne : x ≠ s) {g : Bytes} {deleted : Bool}
    (h : st.bjmQueueDelete s g = .ok (deleted, st')) : SameAt x st st' := by
  simp only [bjmQueueDelete] at h
  split at h
  · contradiction
  rename_i key hkey
  obtain rfl := boundedKey_eq hkey
  split at h
  · obtain ⟨-, rfl⟩ := Prod.mk.inj (Except.ok.inj h)
    refine of_queues rfl fun g' => ?_
    rw [getElem?_erase, if_neg (keys_ne hx hs hne g' g)]
  · obtain ⟨-, rfl⟩ := Prod.mk.inj (Except.ok.inj h)
    exact refl

/-- Only the subject's own policy and marks have changed. -/
theorem of_policy (hne : x ≠ s) {subs : ExtTreeMap Bytes Subject} {opened : Bool} {tree : Tree}
    (hkeys : ∀ k, k ≠ pairKey (ascii "p") s → k ≠ pairKey (ascii "m") s →
      tree[k]? = st.policy[k]?) :
    SameAt x st { st with policy := tree, subs := subs, policyOpen := opened } where
  log := rfl
  receipts _ := rfl
  groups _ := rfl
  policy := hkeys _ (kind_ne (by decide) (by decide) (.inr hne))
    (kind_ne (by decide) (by decide) (.inl (by decide)))
  marks := hkeys _ (kind_ne (by decide) (by decide) (.inl (by decide)))
    (kind_ne (by decide) (by decide) (.inr hne))

theorem of_policySet (hne : x ≠ s) {p : Policy} (h : st.bjmPolicySet s p = .ok st') :
    SameAt x st st' := by
  obtain ⟨key, hkey, heq⟩ := bjmPolicySet_eq h
  obtain rfl := boundedKey_eq hkey
  rw [heq]
  refine of_policy hne fun k hk _ => ?_
  rw [getElem?_insert, if_neg (Ne.symm hk)]

theorem of_policyClear (hne : x ≠ s) {cleared : Bool}
    (h : st.bjmPolicyClear s = .ok (cleared, st')) : SameAt x st st' := by
  simp only [bjmPolicyClear] at h
  split at h
  · contradiction
  rename_i key hkey
  obtain rfl := boundedKey_eq hkey
  split at h
  · obtain ⟨-, rfl⟩ := Prod.mk.inj (Except.ok.inj h)
    exact ⟨rfl, fun _ => rfl, fun _ => rfl, rfl, rfl⟩
  · obtain ⟨-, rfl⟩ := Prod.mk.inj (Except.ok.inj h)
    rw [policyUncache_same]
    refine of_policy hne fun k hp hm => ?_
    dsimp only
    split
    · rw [getElem?_erase, if_neg (Ne.symm hp)]
    · rename_i mkey hmkey
      obtain rfl := boundedKey_eq hmkey
      rw [getElem?_erase, if_neg (Ne.symm hm), getElem?_erase, if_neg (Ne.symm hp)]

theorem of_trim (hne : x ≠ s) {before base removed : ℕ} {force : Bool}
    (h : st.bjmTrim s before force = .ok (base, removed, st')) : SameAt x st st' := by
  rcases bjmTrim_store h with rfl | hm
  · exact refl
  · have hmarks := of_marksOnly hm hne
    refine ⟨?_, hmarks.receipts, hmarks.groups, hmarks.policy, hmarks.marks⟩
    rw [hmarks.log, getElem?_insert, if_neg (Ne.symm hne)]

theorem of_take (hx : slash ∉ x) (hs : slash ∉ s) (hne : x ≠ s) (hdead : deadSubjectOf s ≠ some x)
    {V : Vendor} {again : Store → Bytes} {now lease : ℕ} {g : Bytes} {max : ℤ} {t : Taken}
    (h : st.bjmTakeVia V again now s g max lease = .ok t) : SameAt x st t.store := by
  obtain ⟨log, q, existed, plan, hget, -, -, -, -, hst⟩ := bjmTakeVia_eq h
  rw [hst]
  have hstored : SameAt x st { st with
      queues := st.queues.insert (pairKey s g) (queueRecord plan.q) } := of_group hx hs hne
  generalize ({ st with queues := _ } : Store) = st₁ at hstored ⊢
  rcases deadLettersVia_eq V now again s g plan.deadNow.rows st₁ with
    ⟨-, heq⟩ | ⟨dead, hd, hto, -⟩
  · rw [heq]
    exact hstored
  · exact hstored.trans (of_publishedTo hto fun he => hdead (he ▸ hd))

end Store.SameAt

namespace StoreCall

/-- The subject a call is given. -/
def subject? : StoreCall → Option Bytes
  | publish _ s _ | cursorSet s _ _ | cursorDelete s _ | trim s _ _ | take _ s _ _ _
  | release _ s _ _ _ _ | queueConfig s _ _ _ _ _ | queueDelete s _ | policySet s _
  | policyClear s => some s
  | dedup | cursorDeleteConsumer _ | policyOpen | pushSet _ _ | pushDelete _ => none

/-- The call is given the subject, or publishes to it, or forgets a consumer everywhere. -/
def Touches (x : Bytes) : StoreCall → Prop
  | take _ s _ _ _ => x = s ∨ deadSubjectOf s = some x
  | cursorDeleteConsumer _ => True
  | call => call.subject? = some x

/-- A call leaves every subject alone that it does not touch. -/
theorem Makes.sameAt {V : Vendor} {st st' : Store} {call : StoreCall} (h : call.Makes V st st')
    {x : Bytes} (hx : slash ∉ x) (hs : ∀ s ∈ call.subject?, slash ∉ s) (ht : ¬ call.Touches x) :
    st.SameAt x st' := by
  cases call with
  | publish now s e =>
    obtain ⟨index, hpub⟩ := h
    exact .of_publishedTo (.of_publish hpub) fun he => ht (congrArg some he.symm)
  | dedup => exact .of_dedupOnly h
  | cursorSet s c n => exact .of_cursorSet hx (hs s rfl) (fun he => ht (congrArg some he.symm)) h
  | cursorDelete s c =>
    obtain ⟨deleted, hdel⟩ := h
    exact .of_cursorDelete hx (hs s rfl) (fun he => ht (congrArg some he.symm)) hdel
  | cursorDeleteConsumer c => exact absurd trivial ht
  | trim s before force =>
    obtain ⟨base, removed, htrim⟩ := h
    exact .of_trim (fun he => ht (congrArg some he.symm)) htrim
  | take now s g max lease =>
    obtain ⟨t, htake, rfl⟩ := h
    exact .of_take hx (hs s rfl) (fun he => ht (.inl he)) (fun he => ht (.inr he)) htake
  | release now s g i drop delay =>
    obtain ⟨r, hr, rfl⟩ := h
    exact .of_release hx (hs s rfl) (fun he => ht (congrArg some he.symm)) hr
  | queueConfig s g l a b m =>
    obtain ⟨q, existed, -, rfl⟩ := bjmQueueConfig_eq h
    exact .of_group hx (hs s rfl) fun he => ht (congrArg some he.symm)
  | queueDelete s g =>
    obtain ⟨deleted, hdel⟩ := h
    exact .of_queueDelete hx (hs s rfl) (fun he => ht (congrArg some he.symm)) hdel
  | policySet s p => exact .of_policySet (fun he => ht (congrArg some he.symm)) h
  | policyClear s =>
    obtain ⟨cleared, hclear⟩ := h
    exact .of_policyClear (fun he => ht (congrArg some he.symm)) hclear
  | policyOpen | pushSet | pushDelete =>
    obtain rfl := h
    exact ⟨rfl, fun _ => rfl, fun _ => rfl, rfl, rfl⟩

end StoreCall

end SukkalMsg
