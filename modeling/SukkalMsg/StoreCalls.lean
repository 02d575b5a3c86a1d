import SukkalMsg.Policies
import SukkalMsg.StoreSteps

/-!
# The calls that change a store

A store changes by calls, each with arguments. What a call leaves under a key of
one of the trees is what was there before, or what the call has written.
-/

namespace SukkalMsg

open Std Names Binjson OrderedScan Store

/-- A call that may change the store, with its arguments. -/
inductive StoreCall where
  | publish (now : ℕ) (name : Bytes) (e : Entry)
  | dedup
  | cursorSet (subject consumer : Bytes) (index : ℕ)
  | cursorDelete (subject consumer : Bytes)
  | cursorDeleteConsumer (consumer : Bytes)
  | trim (subject : Bytes) (before : ℕ) (force : Bool)
  | take (now : ℕ) (subject group : Bytes) (max : ℤ) (lease : ℕ)
  | release (now : ℕ) (subject group : Bytes) (index : ℕ) (drop : Bool) (delay : ℕ)
  | queueConfig (subject group : Bytes) (leaseMs maxAttempts backoffMs maxBackoffMs : ℕ)
  | queueDelete (subject group : Bytes)
  | policySet (subject : Bytes) (p : Policy)
  | policyClear (subject : Bytes)
  | policyOpen
  | pushSet (consumer : Bytes) (cfg : PushSub)
  | pushDelete (consumer : Bytes)

namespace StoreCall

/-- The call, made of the first store, succeeds and leaves the second. -/
def Makes (V : Vendor) (st st' : Store) : StoreCall → Prop
  | publish now name e => ∃ index, st.bjmPublish now name e = .ok (index, st')
  | dedup => DedupOnly st st'
  | cursorSet subject consumer index => st.bjmCursorSet subject consumer index = .ok st'
  | cursorDelete subject consumer => ∃ deleted, st.bjmCursorDelete subject consumer = .ok (deleted, st')
  | cursorDeleteConsumer consumer => (st.bjmCursorDeleteConsumer consumer).2 = st'
  | trim subject before force =>
    ∃ base removed, st.bjmTrim subject before force = .ok (base, removed, st')
  | take now subject group max lease =>
    ∃ t, st.bjmTake V now subject group max lease = .ok t ∧ t.store = st'
  | release now subject group index drop delay =>
    ∃ r, st.queueRelease now subject group index drop delay = .ok r ∧ r.store = st'
  | queueConfig subject group leaseMs maxAttempts backoffMs maxBackoffMs =>
    st.bjmQueueConfig subject group leaseMs maxAttempts backoffMs maxBackoffMs = .ok st'
  | queueDelete subject group => ∃ deleted, st.bjmQueueDelete subject group = .ok (deleted, st')
  | policySet subject p => st.bjmPolicySet subject p = .ok st'
  | policyClear subject => ∃ cleared, st.bjmPolicyClear subject = .ok (cleared, st')
  | policyOpen => { st with policyOpen := true } = st'
  | pushSet consumer cfg => st.bjmPushSet consumer cfg = st'
  | pushDelete consumer => (st.bjmPushDelete consumer).2 = st'

end StoreCall

/-- One store becomes the other by calls, each such as `asks` allows of the store it
is made of. -/
inductive Calls (V : Vendor) (asks : Store → StoreCall → Prop) : Store → Store → Prop
  | refl (st : Store) : Calls V asks st st
  | tail {st st₁ st₂ : Store} (h : Calls V asks st st₁) (call : StoreCall) (ha : asks st₁ call)
      (hm : call.Makes V st₁ st₂) : Calls V asks st st₂

namespace Calls

variable {V : Vendor} {asks asks' : Store → StoreCall → Prop} {st st₁ st₂ : Store}

theorem one (call : StoreCall) (ha : asks st call) (hm : call.Makes V st st₁) :
    Calls V asks st st₁ :=
  .tail (.refl st) call ha hm

theorem trans (h : Calls V asks st st₁) (h' : Calls V asks st₁ st₂) : Calls V asks st st₂ := by
  induction h' with
  | refl => exact h
  | tail _ call ha hm ih => exact ih.tail call ha hm

theorem mono (h : Calls V asks st st₁) (hle : ∀ st call, asks st call → asks' st call) :
    Calls V asks' st st₁ := by
  induction h with
  | refl => exact .refl _
  | tail _ call ha hm ih => exact ih.tail call (hle _ _ ha) hm

theorem foldl {α β : Type*} (store : α → Store) (inv : α → Prop) {f : α → β → α} {l : List β}
    {a : α} (ha : inv a)
    (step : ∀ a, inv a → ∀ x ∈ l, inv (f a x) ∧ Calls V asks (store a) (store (f a x))) :
    Calls V asks (store a) (store (l.foldl f a)) := by
  induction l generalizing a with
  | nil => exact .refl _
  | cons x l ih =>
    obtain ⟨hinv, hcalls⟩ := step a ha x List.mem_cons_self
    exact hcalls.trans (ih hinv fun a ha y hy => step a ha y (List.mem_cons_of_mem _ hy))

theorem preserves (inv : Store → Prop) (h : Calls V asks st st₁) (hst : inv st)
    (step : ∀ st call st', inv st → asks st call → call.Makes V st st' → inv st') : inv st₁ := by
  induction h with
  | refl => exact hst
  | tail _ _ ha hm ih => exact step _ _ _ ih ha hm

end Calls

namespace Store

variable {st st' : Store}

theorem policyUncache_same (st : Store) (subject : Bytes) :
    st.policyUncache subject = { st with subs := (st.policyUncache subject).subs } := by
  simp only [policyUncache]
  split <;> rfl

theorem bjmPolicySet_eq {subject : Bytes} {p : Policy} (h : st.bjmPolicySet subject p = .ok st') :
    ∃ key, policyKey (ascii "p") subject = some key ∧ st' = { st with
      policyOpen := true
      policy := st.policy.insert key (policyRecord p)
      subs := st'.subs } := by
  simp only [bjmPolicySet] at h
  split at h
  · contradiction
  · rename_i key hkey
    obtain rfl := Except.ok.inj h
    refine ⟨key, hkey, ?_⟩
    rw [policyUncache_same]

theorem bjmPolicyClear_eq {subject : Bytes} {cleared : Bool}
    (h : st.bjmPolicyClear subject = .ok (cleared, st')) :
    st' = { st with policyOpen := true, policy := st'.policy, subs := st'.subs } ∧
      ∀ (k : Bytes) (r : Record), st'.policy[k]? = some r → st.policy[k]? = some r := by
  have herase : ∀ {t : Tree} {key k : Bytes} {r : Record},
      (t.erase key)[k]? = some r → t[k]? = some r := by
    intro t key k r hr
    rw [getElem?_erase] at hr
    split at hr
    · contradiction
    · exact hr
  simp only [bjmPolicyClear] at h
  split at h
  · contradiction
  split at h
  · obtain ⟨-, rfl⟩ := Prod.mk.inj (Except.ok.inj h)
    exact ⟨rfl, fun _ _ hr => hr⟩
  · obtain ⟨-, rfl⟩ := Prod.mk.inj (Except.ok.inj h)
    refine ⟨by rw [policyUncache_same], fun k r hr => ?_⟩
    rw [policyUncache_same] at hr
    dsimp only at hr
    split at hr
    · exact herase hr
    · exact herase (herase hr)

theorem bjmCursorDelete_eq {subject consumer : Bytes} {deleted : Bool}
    (h : st.bjmCursorDelete subject consumer = .ok (deleted, st')) :
    st' = { st with cursors := st'.cursors } ∧
      ∀ (k : Bytes) (r : Record), st'.cursors[k]? = some r → st.cursors[k]? = some r := by
  simp only [bjmCursorDelete] at h
  split at h
  · contradiction
  split at h
  · obtain ⟨-, rfl⟩ := Prod.mk.inj (Except.ok.inj h)
    refine ⟨rfl, fun k r hr => ?_⟩
    rw [getElem?_erase] at hr
    split at hr
    · contradiction
    · exact hr
  · obtain ⟨-, rfl⟩ := Prod.mk.inj (Except.ok.inj h)
    exact ⟨rfl, fun _ _ hr => hr⟩

theorem bjmQueueConfig_eq {subject group : Bytes} {leaseMs maxAttempts backoffMs maxBackoffMs : ℕ}
    (h : st.bjmQueueConfig subject group leaseMs maxAttempts backoffMs maxBackoffMs = .ok st') :
    ∃ q existed, st.queueLoad subject group = .ok (q, existed) ∧ st' = { st with
      queues := st.queues.insert (pairKey subject group) (queueRecord { q with
        leaseMs := leaseMs
        maxAttempts := maxAttempts
        backoffMs := backoffMs
        maxBackoffMs := maxBackoffMs }) } := by
  simp only [bjmQueueConfig] at h
  split at h
  · contradiction
  · rename_i q existed hload
    exact ⟨q, existed, hload, (queueStore_eq h).2⟩

theorem bjmQueueDelete_eq {subject group : Bytes} {deleted : Bool}
    (h : st.bjmQueueDelete subject group = .ok (deleted, st')) :
    st' = { st with queues := st'.queues } ∧
      ∀ (k : Bytes) (r : Record), st'.queues[k]? = some r → st.queues[k]? = some r := by
  simp only [bjmQueueDelete] at h
  split at h
  · contradiction
  split at h
  · obtain ⟨-, rfl⟩ := Prod.mk.inj (Except.ok.inj h)
    refine ⟨rfl, fun k r hr => ?_⟩
    rw [getElem?_erase] at hr
    split at hr
    · contradiction
    · exact hr
  · obtain ⟨-, rfl⟩ := Prod.mk.inj (Except.ok.inj h)
    exact ⟨rfl, fun _ _ hr => hr⟩

theorem bjmCursorDeleteConsumer_kept {consumer k : Bytes} {r : Record}
    (h : (st.bjmCursorDeleteConsumer consumer).2.cursors[k]? = some r) : st.cursors[k]? = some r := by
  simp only [bjmCursorDeleteConsumer, ExtTreeMap.getElem?_filter'] at h
  cases hr : st.cursors[k]? with
  | none => simp [hr] at h
  | some r' =>
    rw [hr, Option.filter_some] at h
    split at h
    · exact h
    · contradiction

theorem bjmTake_stored {V : Vendor} {now lease : ℕ} {s g : Bytes} {max : ℤ} {t : Taken}
    (h : st.bjmTake V now s g max lease = .ok t) :
    ∃ log q existed, st.subjectGet s false = .ok log ∧ st.queueLoad s g = .ok (q, existed) ∧
      ∃ st₁, st₁ = { st with queues := st.queues.insert (pairKey s g) (queueRecord
        (takePlan now (effectiveLease lease q) (clampMax max) log.last
          { q with leaseMs := effectiveLease lease q }).q) } ∧
        (t.store = st₁ ∨ ∃ dead, PublishedTo dead st₁ t.store) := by
  obtain ⟨log, q, existed, plan, hget, hload, rfl, -, -, hst⟩ := bjmTake_eq h
  refine ⟨log, q, existed, hget, hload, _, rfl, ?_⟩
  rw [hst]
  generalize hst₁ : ({ st with queues := _ } : Store) = st₁
  have hget₁ : st₁.subjectGet s false = .ok log := by
    rw [← hst₁]
    exact hget
  rcases deadLetters_eq V now g hget₁ _ with ⟨-, heq⟩ | ⟨dead, -, hto, -⟩
  · exact .inl heq
  · exact .inr ⟨dead, hto⟩

def Raises (st : Store) (subject consumer : Bytes) (index : ℕ) : Prop :=
  st.bjmCursorGet subject consumer = .ok none ∨
    ∃ n, st.bjmCursorGet subject consumer = .ok (some n) ∧ n < index

theorem passed_cursors (h : Passed (fun _ => False) st st') (k : Bytes) :
    st'.cursors[k]? = st.cursors[k]? :=
  h.others k fun _ _ hno _ => hno.elim

end Store

namespace StoreCall

variable {V : Vendor} {st st' : Store} {call : StoreCall}

/-- A receipt that is there after a call was there before, or is the one it moves. -/
theorem Makes.cursors_written (h : call.Makes V st st') {k : Bytes} {r : Record}
    (hr : st'.cursors[k]? = some r) : st.cursors[k]? = some r ∨
      ∃ s c n, call = .cursorSet s c n ∧ st.Raises s c n ∧ k = pairKey s c ∧ r = indexRecord n := by
  have hkept : st'.cursors = st.cursors → st.cursors[k]? = some r := fun heq => heq ▸ hr
  cases call with
  | publish now name e =>
    obtain ⟨index, hpub⟩ := h
    exact .inl (hkept (bjmPublish_eq hpub).2.2.cursors_eq)
  | dedup => exact .inl (hkept (DedupOnly.cursors_eq h))
  | cursorSet s c n =>
    rcases bjmCursorSet_eq h with ⟨rfl, -⟩ | ⟨rfl, hmove⟩
    · exact .inl hr
    · rw [getElem?_insert] at hr
      split at hr
      · rename_i hk
        have hraise : st.Raises s c n := hmove.imp id fun hm => ⟨_, hm⟩
        exact .inr ⟨s, c, n, rfl, hraise, hk.symm, (Option.some.inj hr).symm⟩
      · exact .inl hr
  | cursorDelete s c =>
    obtain ⟨deleted, hdel⟩ := h
    exact .inl ((bjmCursorDelete_eq hdel).2 k r hr)
  | cursorDeleteConsumer c =>
    obtain rfl := h
    exact .inl (bjmCursorDeleteConsumer_kept hr)
  | trim s before force =>
    obtain ⟨base, removed, htrim⟩ := h
    exact .inl (hkept (bjmTrim_trees htrim).1)
  | take now s g max lease =>
    obtain ⟨t, htake, rfl⟩ := h
    exact .inl (passed_cursors (passed_take htake) k ▸ hr)
  | release now s g i drop delay =>
    obtain ⟨x, hx, rfl⟩ := h
    exact .inl (hkept (release_cursors hx))
  | queueConfig s g l a b m =>
    obtain ⟨q, existed, -, rfl⟩ := bjmQueueConfig_eq h
    exact .inl hr
  | queueDelete s g =>
    obtain ⟨deleted, hdel⟩ := h
    exact .inl (hkept (by rw [(bjmQueueDelete_eq hdel).1]))
  | policySet s p =>
    obtain ⟨key, -, heq⟩ := bjmPolicySet_eq h
    exact .inl (hkept (by rw [heq]))
  | policyClear s =>
    obtain ⟨cleared, hclear⟩ := h
    exact .inl (hkept (by rw [(bjmPolicyClear_eq hclear).1]))
  | policyOpen =>
    obtain rfl := h
    exact .inl hr
  | pushSet c cfg =>
    obtain rfl := h
    exact .inl hr
  | pushDelete c =>
    obtain rfl := h
    exact .inl hr

/-- The call leaves the group with this record. -/
def Leaves (st : Store) (s g : Bytes) (q' : Qrec) : StoreCall → Prop
  | take now subject group max lease => s = subject ∧ g = group ∧ ∃ log q existed,
      st.subjectGet s false = .ok log ∧ st.queueLoad s g = .ok (q, existed) ∧
      q' = (takePlan now (effectiveLease lease q) (clampMax max) log.last
        { q with leaseMs := effectiveLease lease q }).q
  | release now subject group index drop delay => s = subject ∧ g = group ∧ ∃ q pre e suf,
      st.queueLoad s g = .ok (q, true) ∧ q.fl.rows = pre ++ e :: suf ∧ e.index = index ∧
      q' = { q with fl :=
        if drop then q.fl.swapRemove pre.length
        else q.fl.set pre.length { e with expires := u64 (now + retryDelay q delay e) } }
  | queueConfig subject group leaseMs maxAttempts backoffMs maxBackoffMs =>
      s = subject ∧ g = group ∧ ∃ q existed, st.queueLoad s g = .ok (q, existed) ∧
      q' = { q with
        leaseMs := leaseMs
        maxAttempts := maxAttempts
        backoffMs := backoffMs
        maxBackoffMs := maxBackoffMs }
  | _ => False

/-- A group's record that is there after a call was there before, or is left by it. -/
theorem Makes.queues_written (h : call.Makes V st st') {k : Bytes} {r : Record}
    (hr : st'.queues[k]? = some r) : st.queues[k]? = some r ∨
      ∃ s g q, call.Leaves st s g q ∧ k = pairKey s g ∧ r = queueRecord q := by
  have hkept : st'.queues = st.queues → st.queues[k]? = some r := fun heq => heq ▸ hr
  have hput : ∀ {s g : Bytes} {q : Qrec},
      st'.queues = st.queues.insert (pairKey s g) (queueRecord q) → call.Leaves st s g q →
      st.queues[k]? = some r ∨
        ∃ s g q, call.Leaves st s g q ∧ k = pairKey s g ∧ r = queueRecord q := by
    intro s g q heq hleaves
    rw [heq, getElem?_insert] at hr
    split at hr
    · rename_i hk
      exact .inr ⟨s, g, q, hleaves, hk.symm, (Option.some.inj hr).symm⟩
    · exact .inl hr
  cases call with
  | publish now name e =>
    obtain ⟨index, hpub⟩ := h
    exact .inl (hkept (bjmPublish_eq hpub).2.2.queues_eq)
  | dedup => exact .inl (hkept (DedupOnly.queues_eq h))
  | cursorSet s c n => exact .inl (hkept (by rw [bjmCursorSet_same h]))
  | cursorDelete s c =>
    obtain ⟨deleted, hdel⟩ := h
    exact .inl (hkept (by rw [(bjmCursorDelete_eq hdel).1]))
  | trim s before force =>
    obtain ⟨base, removed, htrim⟩ := h
    exact .inl (hkept (bjmTrim_trees htrim).2.1)
  | take now s g max lease =>
    obtain ⟨t, htake, rfl⟩ := h
    obtain ⟨log, q, existed, hget, hload, st₁, hst₁, hst⟩ := bjmTake_stored htake
    refine hput ?_ ⟨rfl, rfl, log, q, existed, hget, hload, rfl⟩
    rcases hst with heq | ⟨dead, hto⟩
    · rw [heq, hst₁]
    · rw [hto.queues_eq, hst₁]
  | release now s g i drop delay =>
    obtain ⟨x, hx, rfl⟩ := h
    obtain ⟨q, existed, hload, ⟨rfl, -⟩ | ⟨pre, e, suf, q', hrows, hi, rfl, -, hst, rfl, -⟩⟩ :=
      queueRelease_eq hx
    · exact .inl hr
    · exact hput (by rw [hst]) ⟨rfl, rfl, q, pre, e, suf, hload, hrows, hi, rfl⟩
  | queueConfig s g l a b m =>
    obtain ⟨q, existed, hload, rfl⟩ := bjmQueueConfig_eq h
    exact hput rfl ⟨rfl, rfl, q, existed, hload, rfl⟩
  | queueDelete s g =>
    obtain ⟨deleted, hdel⟩ := h
    exact .inl ((bjmQueueDelete_eq hdel).2 k r hr)
  | policySet s p =>
    obtain ⟨key, -, heq⟩ := bjmPolicySet_eq h
    exact .inl (hkept (by rw [heq]))
  | policyClear s =>
    obtain ⟨cleared, hclear⟩ := h
    exact .inl (hkept (by rw [(bjmPolicyClear_eq hclear).1]))
  | cursorDeleteConsumer | policyOpen | pushSet | pushDelete =>
    obtain rfl := h
    exact .inl hr

/-- A registration that is there after a call was there before, or is the one it stores. -/
theorem Makes.push_written (h : call.Makes V st st') {k : Bytes} {r : Record}
    (hr : st'.push[k]? = some r) : st.push[k]? = some r ∨
      ∃ cfg, call = .pushSet k cfg ∧ r = pushRecord cfg := by
  have hkept : st'.push = st.push → st.push[k]? = some r := fun heq => heq ▸ hr
  cases call with
  | publish now name e =>
    obtain ⟨index, hpub⟩ := h
    exact .inl (hkept (bjmPublish_eq hpub).2.2.push_eq)
  | dedup => exact .inl (hkept (DedupOnly.push_eq h))
  | cursorSet s c n => exact .inl (hkept (by rw [bjmCursorSet_same h]))
  | cursorDelete s c =>
    obtain ⟨deleted, hdel⟩ := h
    exact .inl (hkept (by rw [(bjmCursorDelete_eq hdel).1]))
  | trim s before force =>
    obtain ⟨base, removed, htrim⟩ := h
    exact .inl (hkept (bjmTrim_trees htrim).2.2)
  | take now s g max lease =>
    obtain ⟨t, htake, rfl⟩ := h
    exact .inl (hkept (passed_take htake).push_eq)
  | release now s g i drop delay =>
    obtain ⟨x, hx, rfl⟩ := h
    obtain ⟨q, existed, -, ⟨rfl, -⟩ | ⟨pre, e, suf, q', -, -, -, -, hst, -⟩⟩ := queueRelease_eq hx
    · exact .inl hr
    · exact .inl (hkept (by rw [hst]))
  | queueConfig s g l a b m =>
    obtain ⟨q, existed, -, rfl⟩ := bjmQueueConfig_eq h
    exact .inl hr
  | queueDelete s g =>
    obtain ⟨deleted, hdel⟩ := h
    exact .inl (hkept (by rw [(bjmQueueDelete_eq hdel).1]))
  | policySet s p =>
    obtain ⟨key, -, heq⟩ := bjmPolicySet_eq h
    exact .inl (hkept (by rw [heq]))
  | policyClear s =>
    obtain ⟨cleared, hclear⟩ := h
    exact .inl (hkept (by rw [(bjmPolicyClear_eq hclear).1]))
  | pushSet c cfg =>
    obtain rfl := h
    simp only [bjmPushSet, getElem?_insert] at hr
    split at hr
    · rename_i hk
      obtain rfl := hk
      exact .inr ⟨cfg, rfl, (Option.some.inj hr).symm⟩
    · exact .inl hr
  | pushDelete c =>
    obtain rfl := h
    simp only [bjmPushDelete, getElem?_erase] at hr
    split at hr
    · contradiction
    · exact .inl hr
  | cursorDeleteConsumer | policyOpen =>
    obtain rfl := h
    exact .inl hr

/-- A policy that is there after a call was there before, or is the one it sets. -/
theorem Makes.policy_written (h : call.Makes V st st') {s : Bytes} {r : Record}
    (hr : st'.policy[pairKey (ascii "p") s]? = some r) :
    st.policy[pairKey (ascii "p") s]? = some r ∨
      ∃ p, call = .policySet s p ∧ r = policyRecord p := by
  have hkept : st'.policy = st.policy → st.policy[pairKey (ascii "p") s]? = some r :=
    fun heq => heq ▸ hr
  have hmarks : ∀ (name : Bytes) (a : Store), MarksOnly name a st' → a.policy = st.policy →
      st.policy[pairKey (ascii "p") s]? = some r := by
    intro name a hm ha
    have hkey : policyKey (ascii "m") name ≠ some (pairKey (ascii "p") s) := fun hk =>
      absurd (pairKey_injective (by decide) (by decide) (boundedKey_eq hk)).1 (by decide)
    rw [← ha, ← hm.others _ hkey]
    exact hr
  cases call with
  | publish now name e =>
    obtain ⟨index, hpub⟩ := h
    exact .inl (hmarks _ _ (bjmPublish_eq hpub).2.2 rfl)
  | dedup =>
    have hkey : pairKey (ascii "p") s ≠ ddStateKey := fun hk =>
      absurd (List.cons.inj hk).1 (by decide)
    exact .inl (DedupOnly.others h _ hkey ▸ hr)
  | cursorSet s c n => exact .inl (hkept (by rw [bjmCursorSet_same h]))
  | cursorDelete s c =>
    obtain ⟨deleted, hdel⟩ := h
    exact .inl (hkept (by rw [(bjmCursorDelete_eq hdel).1]))
  | trim s before force =>
    obtain ⟨base, removed, htrim⟩ := h
    rcases bjmTrim_store htrim with rfl | hm
    · exact .inl hr
    · exact .inl (hmarks _ _ hm rfl)
  | take now s g max lease =>
    obtain ⟨t, htake, rfl⟩ := h
    obtain ⟨log, q, existed, -, -, st₁, hst₁, heq | ⟨dead, hto⟩⟩ := bjmTake_stored htake
    · exact .inl (hkept (by rw [heq, hst₁]))
    · exact .inl (hmarks _ _ hto.marks (by rw [hst₁]))
  | release now s g i drop delay =>
    obtain ⟨x, hx, rfl⟩ := h
    obtain ⟨q, existed, -, ⟨rfl, -⟩ | ⟨pre, e, suf, q', -, -, -, -, hst, -⟩⟩ := queueRelease_eq hx
    · exact .inl hr
    · exact .inl (hkept (by rw [hst]))
  | queueConfig s g l a b m =>
    obtain ⟨q, existed, -, rfl⟩ := bjmQueueConfig_eq h
    exact .inl hr
  | queueDelete s g =>
    obtain ⟨deleted, hdel⟩ := h
    exact .inl (hkept (by rw [(bjmQueueDelete_eq hdel).1]))
  | policySet s' p =>
    obtain ⟨key, hkey, heq⟩ := bjmPolicySet_eq h
    obtain rfl := boundedKey_eq hkey
    rw [heq] at hr
    simp only [getElem?_insert] at hr
    split at hr
    · rename_i hk
      obtain ⟨-, rfl⟩ := pairKey_injective (by decide) (by decide) hk
      exact .inr ⟨p, rfl, (Option.some.inj hr).symm⟩
    · exact .inl hr
  | policyClear s =>
    obtain ⟨cleared, hclear⟩ := h
    exact .inl ((bjmPolicyClear_eq hclear).2 _ r hr)
  | cursorDeleteConsumer | policyOpen | pushSet | pushDelete =>
    obtain rfl := h
    exact .inl hr

theorem Makes.onward (h : call.Makes V st st') : st.Onward st' := by
  cases call with
  | publish now name e =>
    obtain ⟨index, hpub⟩ := h
    exact .of_publish hpub
  | dedup => exact .of_logs (DedupOnly.logs_eq h)
  | cursorSet s c n => exact .of_logs (by rw [bjmCursorSet_same h])
  | cursorDelete s c =>
    obtain ⟨deleted, hdel⟩ := h
    exact .of_logs (by rw [(bjmCursorDelete_eq hdel).1])
  | trim s before force =>
    obtain ⟨base, removed, htrim⟩ := h
    exact .of_trim htrim
  | take now s g max lease =>
    obtain ⟨t, htake, rfl⟩ := h
    exact .of_passed (passed_take htake)
  | release now s g i drop delay =>
    obtain ⟨x, hx, rfl⟩ := h
    obtain ⟨q, existed, -, ⟨heq, -⟩ | ⟨pre, e, suf, q', -, -, -, -, heq, -⟩⟩ := queueRelease_eq hx
    · exact .of_logs (by rw [heq])
    · exact .of_logs (by rw [heq])
  | queueConfig s g l a b m =>
    obtain ⟨q, existed, -, rfl⟩ := bjmQueueConfig_eq h
    exact .of_logs rfl
  | queueDelete s g =>
    obtain ⟨deleted, hdel⟩ := h
    exact .of_logs (by rw [(bjmQueueDelete_eq hdel).1])
  | policySet s p =>
    obtain ⟨key, -, heq⟩ := bjmPolicySet_eq h
    exact .of_logs (by rw [heq])
  | policyClear s =>
    obtain ⟨cleared, hclear⟩ := h
    exact .of_logs (by rw [(bjmPolicyClear_eq hclear).1])
  | cursorDeleteConsumer | policyOpen | pushSet | pushDelete =>
    obtain rfl := h
    exact .of_logs rfl

end StoreCall

/-- What a sweep asks of the store: to trim subjects that have a policy, by force only
where it ignores the consumers. -/
def SweepAsks (st : Store) : StoreCall → Prop
  | .trim subject _ force => ∃ p, st.bjmPolicyGet subject = .ok (true, p) ∧ force = p.ignoreConsumers
  | .policyOpen => True
  | _ => False

theorem Store.sweepOne_calls (V : Vendor) (nowS : ℕ) (st : Store) (name : Bytes) :
    Calls V SweepAsks st (st.sweepOne V nowS name).2 := by
  simp only [sweepOne]
  split
  · rename_i p hp
    split
    · exact .refl _
    · split
      · exact .refl _
      · split
        · exact .refl _
        · rename_i base removed st' htrim
          exact .one (.trim name _ _) ⟨p, hp, rfl⟩ ⟨base, removed, htrim⟩
  · exact .refl _

theorem Store.retentionRun_calls (V : Vendor) (st : Store) (nowS : ℕ) :
    Calls V SweepAsks st (st.bjmRetentionRun V nowS).2.2 := by
  have hopen : Calls V SweepAsks st { st with policyOpen := true } :=
    .one .policyOpen trivial rfl
  refine hopen.trans ?_
  rw [bjmRetentionRun]
  generalize st.policyNames = names
  suffices hloop : ∀ x : ℕ × ℕ × Store, Calls V SweepAsks x.2.2 (names.foldl _ x).2.2 from
    hloop (0, 0, { st with policyOpen := true })
  exact fun x => .foldl (fun x : ℕ × ℕ × Store => x.2.2) (fun _ => True) trivial
    fun x _ name _ => ⟨trivial, Store.sweepOne_calls V nowS x.2.2 name⟩

end SukkalMsg
