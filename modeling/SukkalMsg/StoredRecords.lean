import SukkalMsg.Policies
import SukkalMsg.PushStart
import SukkalMsg.QueueGroups

/-!
# Records that come back as they were stored

What is stored for a group, a policy or a push registration is loaded again field
by field, and storing it touches no record but its own: a name holds no slash, so
two groups never share a key.
-/

namespace SukkalMsg

open Std Names Binjson OrderedScan Store

/-- Storing a group's record loads back, and leaves every other record alone. -/
structure Store.KeepsGroup (st : Store) (s g : Bytes) (q : Qrec) (st' : Store) : Prop where
  stored : st.queueStore s g q = .ok st'
  loads : st'.queueLoad s g = .ok (q, true)
  others : ∀ s' g' : Bytes, bjmSubjectValid s' = true → bjmGroupValid g' = true →
    (s', g') ≠ (s, g) → st'.queueLoad s' g' = st.queueLoad s' g'
  records : ∀ k : Bytes, queueKey s g ≠ some k → st'.queues[k]? = st.queues[k]?
  rest : st' = { st with queues := st'.queues }

/-- The same for a consumer's registration, one by one and in the listing. -/
structure Store.KeepsPush (st : Store) (c : Bytes) (s : PushSub) (st' : Store) : Prop where
  loads : st'.bjmPushGet c = .ok (some s)
  listed : (c, s) ∈ st'.bjmPushEach
  once : (∀ k r, st.push[k]? = some r → cString k = k) →
    ∀ s' : PushSub, (c, s') ∈ st'.bjmPushEach → s' = s
  others : ∀ c' : Bytes, c' ≠ c → st'.bjmPushGet c' = st.bjmPushGet c'
  listing : ∀ (c' : Bytes) (s' : PushSub), c' ≠ c →
    ((c', s') ∈ st'.bjmPushEach ↔ (c', s') ∈ st.bjmPushEach)
  rest : st' = { st with push := st'.push }

namespace Store

theorem queueKey_ne {s g s' g' : Bytes} (hs : bjmSubjectValid s = true)
    (hs' : bjmSubjectValid s' = true) (hne : (s', g') ≠ (s, g)) : pairKey s' g' ≠ pairKey s g := by
  intro h
  apply hne
  obtain ⟨rfl, rfl⟩ := pairKey_injective (slash_notMem_of_nameValid hs')
    (slash_notMem_of_nameValid hs) h
  rfl

theorem keepsGroup (st : Store) {s g : Bytes} (hs : bjmSubjectValid s = true)
    (hg : bjmGroupValid g = true) {q : Qrec} (hq : q.Small) :
    ∃ st', st.KeepsGroup s g q st' := by
  have hkey := queueKey_of_valid hs hg
  have hk : (queueKey s g).isSome = true := by rw [hkey, Option.isSome_some]
  refine ⟨{ st with queues := st.queues.insert (pairKey s g) (queueRecord q) }, ?_⟩
  constructor
  case stored => exact queueStore_of_key hk q
  case loads => exact queueLoad_insert hk rfl hq
  case rest => rfl
  case records =>
    intro k hne
    have hne : pairKey s g ≠ k := fun he => hne (by rw [hkey, he])
    simp [ExtTreeMap.getElem?_insert, hne]
  case others =>
    intro s' g' hs' hg' hne
    have hne := queueKey_ne hs hs' hne
    simp [queueLoad_eq_logOf, queueKey_of_valid hs' hg', ExtTreeMap.getElem?_insert, Ne.symm hne,
      logOf]

theorem mem_each_iff {st : Store} {c : Bytes} {s : PushSub} :
    (c, s) ∈ st.bjmPushEach ↔ ∃ k r, st.push[k]? = some r ∧ k.length ≤ BJM_CONSUMER_MAX ∧
      pushDecode r = .ok s ∧ cString k = c := by
  simp only [bjmPushEach, List.mem_filterMap, Prod.exists,
    ExtTreeMap.mem_toList_iff_getElem?_eq_some]
  refine exists_congr fun k => exists_congr fun r => and_congr_right fun _ => ?_
  by_cases hlen : k.length > BJM_CONSUMER_MAX
  · simp [hlen, Nat.not_le.mpr hlen]
  · cases hd : pushDecode r with
    | error e => simp [hlen, Except.toOption]
    | ok s' =>
      simp only [hlen, if_false, Except.toOption, Option.map_some, Option.some.injEq,
        Prod.mk.injEq, Except.ok.injEq, Nat.not_lt.mp hlen, true_and]
      exact And.comm

theorem keepsPush (st : Store) {c : Bytes} {s : PushSub} (hc : cString c = c)
    (hlen : c.length ≤ BJM_CONSUMER_MAX) (hf : s.Fits) (hb : s.batchBytes < 2 ^ 53)
    (hm : s.maxJobs < 2 ^ 53) : st.KeepsPush c s (st.bjmPushSet c s) := by
  have hdecode := pushDecode_of_carried hf (.of_lt hb) (.of_lt hm)
  have hself : (st.bjmPushSet c s).push[c]? = some (pushRecord s) := by simp [bjmPushSet]
  have hother : ∀ k, c ≠ k → (st.bjmPushSet c s).push[k]? = st.push[k]? := by
    intro k hne
    simp [bjmPushSet, ExtTreeMap.getElem?_insert, hne]
  constructor
  case loads => simp only [bjmPushGet, hself, hdecode, Except.map]
  case listed => exact mem_each_iff.mpr ⟨c, _, hself, hlen, hdecode, hc⟩
  case rest => rfl
  case others =>
    intro c' hne
    rw [bjmPushGet, hother c' (Ne.symm hne), bjmPushGet]
  case listing =>
    intro c' s' hne
    rw [mem_each_iff, mem_each_iff]
    refine exists_congr fun k => exists_congr fun r => ?_
    by_cases hk : c = k
    · -- the record just written is listed under its own name
      subst hk
      simp [hc, Ne.symm hne]
    · rw [hother k hk]
  case once =>
    intro hkeys s' h
    obtain ⟨k, r, hr, -, hd, hkc⟩ := mem_each_iff.mp h
    have hk : c = k := by
      by_contra hk
      rw [hother k hk] at hr
      exact hk (hkc.symm.trans (hkeys k r hr))
    subst hk
    obtain rfl := Option.some.inj (hself.symm.trans hr)
    exact (Except.ok.inj (hdecode.symm.trans hd)).symm

end Store

/-- The record of a group, a policy and a registration load as they were stored,
and storing one changes no other record. -/
theorem stored_records_load (st : Store) :
    (∀ (s g : Bytes) (q : Qrec), bjmSubjectValid s = true → bjmGroupValid g = true → q.Small →
      ∃ st', st.KeepsGroup s g q st') ∧
    (∀ p : Policy, (∀ n ∈ p.ints, n < 2 ^ 53) → policyDecode (policyRecord p) = .ok p) ∧
    (∀ (c : Bytes) (s : PushSub), cString c = c → c.length ≤ BJM_CONSUMER_MAX → s.Fits →
      s.batchBytes < 2 ^ 53 → s.maxJobs < 2 ^ 53 → st.KeepsPush c s (st.bjmPushSet c s)) := by
  refine ⟨?_, ?_, ?_⟩
  · intro s g q hs hg hq
    exact st.keepsGroup hs hg hq
  · intro p hp
    exact policyDecode_of_carried fun n hn => .of_lt (hp n hn)
  · intro c s hc hlen hf hb hm
    exact st.keepsPush hc hlen hf hb hm

/-- Two jobs in flight, out of order, and one dead. -/
def twoInFlight : Qrec :=
  { Qrec.fresh 9 with
    fl := ⟨[⟨7, 1500, 2⟩, ⟨3, 900, 1⟩], by decide⟩
    deadTotal := 1
    dead := ⟨[5], by decide⟩ }

def alicesHook : PushSub :=
  ⟨ascii "orders.>", ascii "http://alice/in", ascii "secret", [], 4096, 0⟩

theorem twoInFlight_loads :
    (∃ st', Store.empty.KeepsGroup (ascii "jobs") (ascii "workers") twoInFlight st') ∧
      policyDecode (policyRecord ⟨60, 0, 1024, true⟩) = .ok ⟨60, 0, 1024, true⟩ ∧
      Store.empty.KeepsPush (ascii "alice") alicesHook
        (Store.empty.bjmPushSet (ascii "alice") alicesHook) := by
  obtain ⟨hgroup, hpolicy, hpush⟩ := stored_records_load Store.empty
  refine ⟨hgroup _ _ _ (by decide) (by decide) (by decide), hpolicy _ (by decide), ?_⟩
  exact hpush _ _ (by decide) (by decide) ⟨by decide, by decide, by decide, by decide⟩
    (by decide) (by decide)

end SukkalMsg
