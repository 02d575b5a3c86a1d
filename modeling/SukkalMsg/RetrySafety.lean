import SukkalMsg.ClientRetries
import SukkalMsg.PushProgress
import SukkalMsg.RequestCalls
import SukkalMsg.RepeatedJobs
import SukkalMsg.RepeatedPublishes
import SukkalMsg.TakeFaults

/-!
# Requests sent again

A request whose exchange broke may have been served, and a client that sends it again has
it served twice. Most handlers leave the files as one run leaves them. A requeue appends
again, a take takes again, a failed job is put off again, and a publish is only safe while
the index remembers its id.
-/

namespace SukkalMsg

open Std Names Binjson OrderedScan Store

namespace Store

/-- What a store becomes by a call that may fail. -/
def attempt (f : Store → Except BjErr Store) (st : Store) : Store :=
  match f st with
  | .error _ => st
  | .ok st' => st'

/-- A call that leaves the files as they are when it is made again. -/
def Repeatable (f : Store → Except BjErr Store) : Prop :=
  ∀ st st' st'', f st = .ok st' → f st' = .ok st'' → SameFiles st' st''

theorem sameFiles_of_eq {st st' : Store} (h : st' = st) : SameFiles st st' := h ▸ .refl

theorem Repeatable.map {α : Type*} {g : Store → Except BjErr α} {π : α → Store}
    (h : ∀ {st : Store} {a a' : α}, g st = .ok a → g (π a) = .ok a' → SameFiles (π a) (π a')) :
    Repeatable fun st => (g st).map π := by
  intro st st' st'' h₁ h₂
  cases hg : g st with
  | error e => simp [hg, Except.map] at h₁
  | ok a =>
    obtain rfl : π a = st' := by simpa [hg, Except.map] using h₁
    cases hg' : g (π a) with
    | error e => simp [hg', Except.map] at h₂
    | ok a' =>
      obtain rfl : π a' = st'' := by simpa [hg', Except.map] using h₂
      exact h hg hg'

theorem Repeatable.attempt {f : Store → Except BjErr Store} (h : Repeatable f) (st : Store) :
    SameFiles (attempt f st) (attempt f (attempt f st)) := by
  cases h₁ : f st with
  | error e =>
    have hst : Store.attempt f st = st := by simp only [Store.attempt, h₁]
    rw [hst, hst]
    exact .refl
  | ok st' =>
    have hst : Store.attempt f st = st' := by simp only [Store.attempt, h₁]
    rw [hst]
    cases h₂ : f st' with
    | error e =>
      simp only [Store.attempt, h₂]
      exact .refl
    | ok st'' =>
      simp only [Store.attempt, h₂]
      exact h _ _ _ h₁ h₂

/-- A read that has acknowledged and begun does so once. -/
theorem readReceipt_again (st : Store) (s c : Bytes) (req : Request) :
    ((st.readReceipt s c req).2.readReceipt s c req).2 = (st.readReceipt s c req).2 := by
  have hbegun : ∀ {n : ℕ} {st' : Store}, st.bjmCursorSet s c n = .ok st' →
      st'.bjmCursorGet s c ≠ .ok none := fun h => bjmCursorGet_set h
  by_cases ha : req.queryU64 (ascii "ack") 0 = 0
  · simp only [readReceipt, ha, ne_eq, not_true_eq_false, if_false]
    cases hget : st.bjmCursorGet s c with
    | error e => simp only [hget]
    | ok cur =>
      cases cur with
      | some n => simp only [hget]
      | none =>
        dsimp only
        cases hset : st.bjmCursorSet s c (if req.startsLast then st.bjmLastIndex s else 0) with
        | error e => simp only [hget, hset]
        | ok st' =>
          cases hget' : st'.bjmCursorGet s c with
          | error e => rfl
          | ok cur =>
            cases cur with
            | none => exact absurd hget' (hbegun hset)
            | some n => rfl
  · simp only [readReceipt, ha, ne_eq, not_false_eq_true, if_true]
    cases hset : st.bjmCursorSet s c (req.queryU64 (ascii "ack") 0) with
    | error e => simp only [hset]
    | ok st' =>
      dsimp only
      have hstay : ∀ {st'' : Store}, st'.bjmCursorSet s c (req.queryU64 (ascii "ack") 0) =
          .ok st'' → st'' = st' := fun h => bjmCursorSet_again hset h
      cases hget : st'.bjmCursorGet s c with
      | error e =>
        cases hset' : st'.bjmCursorSet s c (req.queryU64 (ascii "ack") 0) with
        | error e => rfl
        | ok st'' =>
          obtain rfl := hstay hset'
          simp only [hget]
      | ok cur =>
        cases cur with
        | none => exact absurd hget (hbegun hset)
        | some n =>
          cases hset' : st'.bjmCursorSet s c (req.queryU64 (ascii "ack") 0) with
          | error e => rfl
          | ok st'' =>
            obtain rfl := hstay hset'
            simp only [hget]

theorem bjmPushGet_set (st : Store) (consumer : Bytes) (s : PushSub) :
    (st.bjmPushSet consumer s).bjmPushGet consumer ≠ .ok none := by
  simp only [bjmPushGet, bjmPushSet, ExtTreeMap.getElem?_insert_self]
  cases pushDecode (pushRecord s) <;> simp [Except.map]

end Store

theorem Request.queryU64_lt (req : Request) (key : Bytes) {dflt : ℕ} (h : dflt < 2 ^ 64) :
    req.queryU64 key dflt < 2 ^ 64 := by
  have hnumber : ∀ s : Bytes, (strtoull s).1 < 2 ^ 64 := by
    intro s
    simp only [strtoull]
    split
    · omega
    · split
      · exact (by decide : UINT64_MAX < 2 ^ 64)
      · split
        · exact u64_lt _
        · rename_i hmax _
          simp only [UINT64_MAX] at hmax
          omega
  simp only [queryU64]
  split
  · split
    · exact h
    · exact hnumber _
  · exact h

/-- All a request does to the store is one call, which may be made again. -/
def OneCall (run : App → App) : Prop :=
  ∃ f, Repeatable f ∧ ∀ b, (run b).store = attempt f b.store

namespace OneCall

variable {run : App → App}

theorem again (h : OneCall run) (b : App) : SameFiles (run b).store (run (run b)).store := by
  obtain ⟨f, hf, hrun⟩ := h
  rw [hrun (run b), hrun b]
  exact hf.attempt _

theorem reads (h : ∀ b, (run b).store = b.store) : OneCall run :=
  ⟨fun _ => .error .range, fun _ _ _ h => by simp at h, h⟩

end OneCall

namespace App

variable {req : Request}

theorem hAck_oneCall : OneCall fun b => (b.hAck req).2 := by
  cases ht : consumerTarget req (ascii "/ack/") with
  | error a => exact .reads fun b => by simp only [hAck, ht]
  | ok target =>
    by_cases hn : req.queryU64 (ascii "index") 0 = 0
    · exact .reads fun b => by simp only [hAck, ht, hn, if_true]
    · refine ⟨fun st => st.bjmCursorSet target.1 target.2 (req.queryU64 (ascii "index") 0),
        fun _ _ _ h h' => sameFiles_of_eq (bjmCursorSet_again h h'), fun b => ?_⟩
      simp only [hAck, ht, hn, if_false, attempt]
      cases b.store.bjmCursorSet target.1 target.2 (req.queryU64 (ascii "index") 0) <;> rfl

theorem hUnsubscribe_oneCall : OneCall fun b => (b.hUnsubscribe req).2 := by
  cases ht : consumerTarget req (ascii "/consumers/") with
  | error a => exact .reads fun b => by simp only [hUnsubscribe, ht]
  | ok target =>
    refine ⟨fun st => (st.bjmCursorDelete target.1 target.2).map Prod.snd,
      .map fun h h' => sameFiles_of_eq (bjmCursorDelete_again h h'), fun b => ?_⟩
    simp only [hUnsubscribe, ht, attempt]
    cases b.store.bjmCursorDelete target.1 target.2 <;> rfl

theorem hQueueDelete_oneCall : OneCall fun b => (b.hQueueDelete req).2 := by
  cases ht : queueTarget req (ascii "/queue/") with
  | error a => exact .reads fun b => by simp only [hQueueDelete, ht]
  | ok target =>
    refine ⟨fun st => (st.bjmQueueDelete target.1 target.2).map Prod.snd,
      .map fun h h' => sameFiles_of_eq (bjmQueueDelete_again h h'), fun b => ?_⟩
    simp only [hQueueDelete, ht, attempt]
    cases b.store.bjmQueueDelete target.1 target.2 <;> rfl

theorem hQueues_store (b : App) (now : ℕ) (req : Request) : (b.hQueues now req).2 = b := by
  simp only [hQueues]
  split <;> rfl

theorem hTrim_oneCall : OneCall fun b => (b.hTrim req).2 := by
  cases hs : subjectAt req (ascii "/trim/") with
  | error a => exact .reads fun b => by simp only [hTrim, hs]
  | ok s =>
    let force := decide (req.queryU64 (ascii "force") 0 ≠ 0)
    let call : Store → Except BjErr (ℕ × ℕ × Store) := fun st =>
      if trimBefore req (st.bjmLastIndex s) = 0 then .error .range
      else st.bjmTrim s (trimBefore req (st.bjmLastIndex s)) force
    refine ⟨fun st => (call st).map fun r => r.2.2, .map fun {st a a'} h h' => ?_, fun b => ?_⟩
    · simp only [call] at h h'
      split at h
      · contradiction
      · rw [bjmLastIndex_trim h] at h'
        split at h'
        · contradiction
        · exact sameFiles_of_eq (bjmTrim_again h h')
    · simp only [hTrim, hs, attempt, call]
      split
      · rfl
      · cases b.store.bjmTrim s (trimBefore req (b.store.bjmLastIndex s)) force <;> rfl

theorem hPolicyDelete_oneCall : OneCall fun b => (b.hPolicyDelete req).2 := by
  cases hs : subjectAt req (ascii "/policy/") with
  | error a => exact .reads fun b => by simp only [hPolicyDelete, hs]
  | ok s =>
    refine ⟨fun st => (st.bjmPolicyClear s).map Prod.snd,
      .map fun h h' => bjmPolicyClear_again h h', fun b => ?_⟩
    simp only [hPolicyDelete, hs, attempt]
    cases b.store.bjmPolicyClear s <;> rfl

theorem hQueueConfig_oneCall (now : ℕ) : OneCall fun b => (b.hQueueConfig now req).2 := by
  cases ht : queueTarget req (ascii "/queue/") with
  | error a => exact .reads fun b => by simp only [hQueueConfig, ht]
  | ok target =>
    refine ⟨fun st => st.bjmQueueConfig target.1 target.2
        (req.queryU64 (ascii "lease_ms") BJM_LEASE_DEFAULT_MS)
        (req.queryU64 (ascii "max_attempts") BJM_MAX_ATTEMPTS_DEFAULT)
        (req.queryU64 (ascii "backoff_ms") BJM_BACKOFF_DEFAULT_MS)
        (req.queryU64 (ascii "max_backoff_ms") BJM_MAX_BACKOFF_DEFAULT_MS),
      fun _ _ _ h h' => sameFiles_of_eq (bjmQueueConfig_again h h'), fun b => ?_⟩
    simp only [hQueueConfig, ht, attempt]
    cases b.store.bjmQueueConfig target.1 target.2
        (req.queryU64 (ascii "lease_ms") BJM_LEASE_DEFAULT_MS)
        (req.queryU64 (ascii "max_attempts") BJM_MAX_ATTEMPTS_DEFAULT)
        (req.queryU64 (ascii "backoff_ms") BJM_BACKOFF_DEFAULT_MS)
        (req.queryU64 (ascii "max_backoff_ms") BJM_MAX_BACKOFF_DEFAULT_MS) with
    | error e => rfl
    | ok st => exact congrArg App.store (hQueues_store ..)

theorem hPolicyPut_oneCall : OneCall fun b => (b.hPolicyPut req).2 := by
  cases hs : subjectAt req (ascii "/policy/") with
  | error a => exact .reads fun b => by simp only [hPolicyPut, hs]
  | ok s =>
    by_cases hzero : (requestedPolicy req).maxAgeS = 0 ∧ (requestedPolicy req).maxMessages = 0 ∧
        (requestedPolicy req).maxBytes = 0
    · exact .reads fun b => by simp only [hPolicyPut, hs, hzero, and_self, if_true]
    · refine ⟨fun st => st.bjmPolicySet s (requestedPolicy req),
        fun _ _ _ h h' => bjmPolicySet_again h h', fun b => ?_⟩
      simp only [hPolicyPut, hs, attempt]
      rw [if_neg hzero]
      cases hset : b.store.bjmPolicySet s (requestedPolicy req) with
      | error e => rfl
      | ok st =>
        obtain ⟨key, -, hst⟩ := bjmPolicySet_eq hset
        have hopen : { st with policyOpen := true } = st := by
          rw [hst]
        rcases hPolicyGet_store { b with store := st } req with heq | heq
        · simpa using heq
        · simpa [hopen] using heq

private theorem hSubscribe_store {H : Host} {req : Request} {s c : Bytes}
    (hs : subjectAt req (ascii "/sub/") = .ok s) (hc : req.queryConsumer = .ok (some c)) (b : App) :
    (b.hSubscribe H req).2.store = match b.store.bjmSubjectInfo H.vendor s with
      | .error _ => b.store
      | .ok _ => (b.store.readReceipt s c req).2 := by
  simp only [hSubscribe, hs, hc]
  cases b.store.bjmSubjectInfo H.vendor s with
  | error e => rfl
  | ok info =>
    dsimp only
    cases b.store.readReceipt s c req with
    | mk a st => cases a <;> rfl

theorem hSubscribe_again (H : Host) (b : App) (req : Request) :
    SameFiles (b.hSubscribe H req).2.store ((b.hSubscribe H req).2.hSubscribe H req).2.store := by
  cases hs : subjectAt req (ascii "/sub/") with
  | error a =>
    exact (OneCall.reads fun b => by simp only [hSubscribe, hs] :
      OneCall fun b => (b.hSubscribe H req).2).again b
  | ok s =>
    cases hc : req.queryConsumer with
    | error a =>
      have hrun : ∀ b : App, (b.hSubscribe H req).2.store = b.store := fun b => by
        simp only [hSubscribe, hs, hc]
        split <;> rfl
      rw [hrun (b.hSubscribe H req).2]
      exact .refl
    | ok consumer =>
      cases consumer with
      | none =>
        have hrun : ∀ b : App, (b.hSubscribe H req).2.store = b.store := fun b => by
          simp only [hSubscribe, hs, hc]
          split
          · rfl
          · split <;> rfl
        rw [hrun (b.hSubscribe H req).2]
        exact .refl
      | some c =>
        have hrun := hSubscribe_store (H := H) hs hc
        rw [hrun (b.hSubscribe H req).2]
        cases hinfo : (b.hSubscribe H req).2.store.bjmSubjectInfo H.vendor s with
        | error e => exact .refl
        | ok info =>
          rw [hrun b] at hinfo ⊢
          cases hfirst : b.store.bjmSubjectInfo H.vendor s with
          | error e => simp [hfirst] at hinfo
          | ok info => exact sameFiles_of_eq (readReceipt_again b.store s c req)

theorem hPushPut_again (b : App) (req : Request) :
    SameFiles (b.hPushPut req).2.store ((b.hPushPut req).2.hPushPut req).2.store := by
  rcases b.hPushPut_push req with heq | ⟨r, found, hr, hget, heq⟩
  · rw [heq, heq]
    exact .refl
  rcases (b.hPushPut req).2.hPushPut_push req with heq' | ⟨r', found', hr', hget', heq'⟩
  · rw [heq']
    exact .refl
  obtain rfl := Except.ok.inj (hr.symm.trans hr')
  rw [heq] at hget' heq' ⊢
  rw [heq']
  cases found' with
  | none => exact absurd hget' (bjmPushGet_set _ _ _)
  | some s =>
    refine sameFiles_of_eq ?_
    simp only [register, bjmPushSet, Option.isNone_some, Bool.false_eq_true, if_false]
    rw [insert_eq_self ExtTreeMap.getElem?_insert_self]

theorem hPushDelete_again (b : App) (req : Request) :
    SameFiles (b.hPushDelete req).2.store ((b.hPushDelete req).2.hPushDelete req).2.store := by
  rcases b.hPushDelete_push req with heq | ⟨c, hc, -, heq⟩
  · rw [heq, heq]
    exact .refl
  rcases (b.hPushDelete req).2.hPushDelete_push req with heq' | ⟨c', hc', -, heq'⟩
  · rw [heq']
    exact .refl
  obtain rfl := Except.ok.inj (hc.symm.trans hc')
  have herase : (b.store.push.erase c).erase c = b.store.push.erase c := by
    apply ExtTreeMap.ext_getElem?
    intro k
    simp only [getElem?_erase]
    split <;> rfl
  have hgone : (b.hPushDelete req).2.store.push = b.store.push.erase c := by
    rw [heq]
    split <;> rfl
  have hsame : ((b.hPushDelete req).2.unregister c).store = (b.hPushDelete req).2.store := by
    simp only [unregister, bjmPushDelete, hgone, herase]
    rw [← hgone]
  refine sameFiles_of_eq ?_
  rw [heq', hsame, heq]
  cases hp : purges req with
  | false => rfl
  | true => exact bjmCursorDeleteConsumer_again c

private theorem hTake_store {req : Request} {s g : Bytes}
    (ht : queueTarget req (ascii "/take/") = .ok (s, g)) (H : Host) (b : App) (now : ℕ) :
    (b.hTake H now req).2.store =
      match b.store.bjmTake H.vendor now s g (toInt32 (req.queryU64 (ascii "max") 1))
          (req.queryU64 (ascii "lease") UINT64_MAX) with
      | .error _ => b.store
      | .ok t => t.store := by
  simp only [hTake, ht]
  cases b.store.bjmTake H.vendor now s g (toInt32 (req.queryU64 (ascii "max") 1))
      (req.queryU64 (ascii "lease") UINT64_MAX) with
  | error e => rfl
  | ok t => rfl

/-- A take is harmless to repeat where the repeat finds nothing to take. -/
theorem hTake_again_iff (H : Host) (b : App) (now now' : ℕ) (req : Request) :
    SameFiles (b.hTake H now req).2.store ((b.hTake H now req).2.hTake H now' req).2.store ↔
      ∀ s g, queueTarget req (ascii "/take/") = .ok (s, g) →
        (b.hTake H now req).2.store.Idling now' s g
          (req.queryU64 (ascii "lease") UINT64_MAX) := by
  cases ht : queueTarget req (ascii "/take/") with
  | error a =>
    have hrun : ∀ (b : App) (now : ℕ), (b.hTake H now req).2 = b := fun b now => by
      simp only [hTake, ht]
    simp only [hrun, reduceCtorEq, false_imp_iff, implies_true, iff_true]
    exact .refl
  | ok target =>
    obtain ⟨s, g⟩ := target
    simp only [Except.ok.injEq, Prod.mk.injEq, and_imp, forall_eq', forall_apply_eq_imp_iff]
    have hrun := hTake_store ht H
    have hlease : req.queryU64 (ascii "lease") UINT64_MAX < 2 ^ 64 :=
      req.queryU64_lt _ (by decide)
    have hfirst := hrun b now
    rw [hrun (b.hTake H now req).2]
    generalize (b.hTake H now req).2.store = once at hfirst ⊢
    generalize req.queryU64 (ascii "lease") UINT64_MAX = lease at hfirst hlease ⊢
    generalize toInt32 (req.queryU64 (ascii "max") 1) = max at hfirst ⊢
    cases h' : once.bjmTake H.vendor now' s g max lease with
    | error e =>
      -- what fails now finds no log or no table
      refine iff_of_true .refl fun log q existed hget hload => ?_
      simp only [bjmTake_def, hget, hload, queueStore_of_key (queueKey_of_load hload)] at h'
      contradiction
    | ok t' =>
      obtain ⟨log, q, existed, hget, hload, -⟩ := bjmTake_stored h'
      cases h : b.store.bjmTake H.vendor now s g max lease with
      | error e =>
        rw [h] at hfirst
        subst hfirst
        simp only [bjmTake_def, hget, hload, queueStore_of_key (queueKey_of_load hload)] at h
        contradiction
      | ok t =>
        rw [h] at hfirst
        subst hfirst
        obtain ⟨hrow, rfl, hq, hl⟩ := load_of_take hlease h hload
        rw [bjmTake_same_iff hrow hq hl hget hload h']
        constructor
        · intro hidle log' q' existed hget' hload'
          obtain rfl := Except.ok.inj (hget.symm.trans hget')
          obtain ⟨rfl, -⟩ := Prod.mk.inj (Except.ok.inj (hload.symm.trans hload'))
          exact hidle
        · exact fun hidle => hidle log q true hget hload

private theorem hJobEnd_store {req : Request} {s g : Bytes} {done : Bool}
    (ht : queueTarget req (if done then ascii "/done/" else ascii "/fail/") = .ok (s, g))
    (hn : ¬ req.queryU64 (ascii "index") 0 = 0) (b : App) (now : ℕ) :
    (b.hJobEnd now req done).2.store =
      match b.store.queueRelease now s g (req.queryU64 (ascii "index") 0) done
          (if done then 0 else req.queryU64 (ascii "delay") UINT64_MAX) with
      | .error _ => b.store
      | .ok r => r.store := by
  cases done with
  | true =>
    have ht' : queueTarget req (ascii "/done/") = .ok (s, g) := ht
    simp only [hJobEnd, if_true, ht', hn, if_false, bjmDone]
    cases b.store.queueRelease now s g (req.queryU64 (ascii "index") 0) true 0 <;> rfl
  | false =>
    have ht' : queueTarget req (ascii "/fail/") = .ok (s, g) := ht
    simp only [hJobEnd, Bool.false_eq_true, if_false, ht', hn, bjmFail]
    cases b.store.queueRelease now s g (req.queryU64 (ascii "index") 0) false
      (req.queryU64 (ascii "delay") UINT64_MAX) <;> rfl

/-- A settlement is harmless to repeat where the repeat finds no row, and a failure also
within the millisecond. -/
theorem hJobEnd_again_iff (b : App) (now now' : ℕ) (req : Request) (done : Bool) :
    SameFiles (b.hJobEnd now req done).2.store
        ((b.hJobEnd now req done).2.hJobEnd now' req done).2.store ↔
      ∀ s g, queueTarget req (if done then ascii "/done/" else ascii "/fail/") = .ok (s, g) →
        req.queryU64 (ascii "index") 0 ≠ 0 →
        (b.hJobEnd now req done).2.store.InFlight s g (req.queryU64 (ascii "index") 0) →
          done = false ∧ u64 now' = u64 now := by
  cases ht : queueTarget req (if done then ascii "/done/" else ascii "/fail/") with
  | error a =>
    have hrun : ∀ (b : App) (now : ℕ), (b.hJobEnd now req done).2 = b := fun b now => by
      simp only [hJobEnd, ht]
    simp only [hrun, reduceCtorEq, false_imp_iff, implies_true, iff_true]
    exact .refl
  | ok target =>
    obtain ⟨s, g⟩ := target
    by_cases hn : req.queryU64 (ascii "index") 0 = 0
    · have hrun : ∀ (b : App) (now : ℕ), (b.hJobEnd now req done).2 = b := fun b now => by
        simp only [hJobEnd, ht, hn, if_true]
      simp only [hrun, hn, ne_eq, not_true_eq_false, false_imp_iff, implies_true, iff_true]
      exact .refl
    simp only [Except.ok.injEq, Prod.mk.injEq, and_imp, forall_eq', forall_apply_eq_imp_iff, ne_eq,
      hn, not_false_eq_true, forall_const]
    have hrun := hJobEnd_store ht hn
    have hfirst := hrun b now
    rw [hrun (b.hJobEnd now req done).2]
    generalize (b.hJobEnd now req done).2.store = once at hfirst ⊢
    generalize req.queryU64 (ascii "index") 0 = index at hfirst ⊢
    generalize req.queryU64 (ascii "delay") UINT64_MAX = delay at hfirst ⊢
    cases h' : once.queueRelease now' s g index done (if done then 0 else delay) with
    | error e =>
      refine iff_of_true .refl ?_
      rintro ⟨q, hload, -⟩
      rw [load_of_release_error h'] at hload
      contradiction
    | ok r' =>
      cases done with
      | true =>
        have hdone : once.bjmDone now' s g index = .ok r' := h'
        simp only [Bool.true_eq_false, false_and]
        exact bjmDone_same_iff hdone
      | false =>
        simp only [true_and]
        have hfail : once.bjmFail now' s g index delay = .ok r' := h'
        cases h : b.store.bjmFail now s g index delay with
        | error e =>
          have hload := load_of_release_error h
          have hno : ¬ once.InFlight s g index := by
            have honce : once = b.store := by
              rw [hfirst]
              simp only [bjmFail] at h
              simp only [Bool.false_eq_true, if_false, h]
            rintro ⟨q, hq, -⟩
            rw [honce, hload] at hq
            contradiction
          rcases queueRelease_cases hfail with ⟨heq, -⟩ | ⟨q, at_, hq, hfind, -⟩
          · exact iff_of_true (sameFiles_of_eq heq) fun hin => absurd hin hno
          · exact absurd ⟨q, hq, by simp [hfind]⟩ hno
        | ok r =>
          have honce : once = r.store := by
            rw [hfirst]
            simp only [bjmFail] at h
            simp only [Bool.false_eq_true, if_false, h]
          subst honce
          exact bjmFail_again_iff h hfail

theorem hRequeue_again_iff (H : Host) (b : App) (now : ℕ) (req : Request) :
    SameFiles b.store (b.hRequeue H now req).2.store ↔
      ∀ s, subjectAt req (ascii "/requeue/") = .ok s →
        req.queryU64 (ascii "index") 0 = 0 ∨ BJM_DEAD_SUFFIX.isSuffixOf s = true ∨
          ∃ e, b.store.deadEnvelope H s (req.queryU64 (ascii "index") 0) = .error e := by
  cases hs : subjectAt req (ascii "/requeue/") with
  | error a =>
    simp only [hRequeue, hs, reduceCtorEq, false_imp_iff, implies_true, iff_true]
    exact .refl
  | ok s =>
    simp only [Except.ok.injEq, forall_eq']
    by_cases hn : req.queryU64 (ascii "index") 0 = 0
    · simp only [hRequeue, hs, hn, if_true, true_or, iff_true]
      exact .refl
    by_cases hdead : BJM_DEAD_SUFFIX.isSuffixOf s = true
    · simp only [hRequeue, hs, hn, hdead, if_true, if_false, true_or, or_true, iff_true]
      exact .refl
    simp only [hRequeue, hs, hn, hdead, if_false, false_or, Bool.false_eq_true]
    cases henv : b.store.deadEnvelope H s (req.queryU64 (ascii "index") 0) with
    | error e =>
      simp only [requeue, henv, Except.error.injEq, exists_eq', iff_true]
      cases e <;> exact .refl
    | ok r =>
      obtain ⟨origin, entry⟩ := r
      have hvalid := deadEnvelope_valid henv
      obtain ⟨index, st, hpub⟩ := bjmPublish_ok b.store now entry (fileFits_of_valid hvalid)
      simp only [requeue, henv, hpub, reduceCtorEq, exists_false, iff_false]
      intro hsame
      have hlog : st.logOf origin = b.store.logOf origin := by
        simp only [logOf, hsame.logs]
      rw [logOf_insert (bjmPublish_eq hpub).2.1, if_pos rfl] at hlog
      simpa [Elog.append] using congrArg (·.entries.length) hlog

theorem hQueueConfig_now (b : App) (now now' : ℕ) (req : Request) :
    (b.hQueueConfig now' req).2 = (b.hQueueConfig now req).2 := by
  simp only [hQueueConfig]
  split
  · rfl
  · split
    · rfl
    · simp only [hQueues_store]

end App

theorem Handler.reads_same (H : Host) (b : App) (now : ℕ) (req : Request) {h : Handler}
    (hread : h = hPolicyGet ∨ h = hPolicies ∨ h = hDead ∨ h = hQueues ∨ h = hConsumers ∨
      h = hInfo ∨ h = hSubjects) : SameFiles b.store (h.run H b now req).2.store := by
  have hopen : SameFiles b.store { b.store with policyOpen := true } :=
    ⟨rfl, rfl, rfl, rfl, fun _ => rfl⟩
  rcases hread with rfl | rfl | rfl | rfl | rfl | rfl | rfl
  · rcases App.hPolicyGet_store b req with heq | heq
    · exact sameFiles_of_eq heq
    · simp only [run, heq]
      exact hopen
  · exact hopen
  all_goals
    apply sameFiles_of_eq
    simp only [run, App.hDead, App.hQueues, App.hConsumers, App.hInfo, App.hSubjects]
    repeat' split
    all_goals rfl

/-- Whether serving the request once more, in the state one run has left, changes nothing. -/
def Handler.HarmlessAgain (H : Host) (now now' : ℕ) (req : Request) (once : Store) :
    Handler → Prop
  | .hPublish => ∀ p, publication H.vendor req = .ok p → ∃ i, p.id = some i ∧
      ∀ key, dedupKey p.subject i = some key → once.StillKnows now' key
  | .hTake => ∀ s g, queueTarget req (ascii "/take/") = .ok (s, g) →
      once.Idling now' s g (req.queryU64 (ascii "lease") UINT64_MAX)
  | .hDone => ∀ s g, queueTarget req (ascii "/done/") = .ok (s, g) →
      req.queryU64 (ascii "index") 0 ≠ 0 → ¬ once.InFlight s g (req.queryU64 (ascii "index") 0)
  | .hFail => ∀ s g, queueTarget req (ascii "/fail/") = .ok (s, g) →
      req.queryU64 (ascii "index") 0 ≠ 0 → once.InFlight s g (req.queryU64 (ascii "index") 0) →
        u64 now' = u64 now
  | .hRequeue => ∀ s, subjectAt req (ascii "/requeue/") = .ok s →
      req.queryU64 (ascii "index") 0 = 0 ∨ BJM_DEAD_SUFFIX.isSuffixOf s = true ∨
        ∃ e, once.deadEnvelope H s (req.queryU64 (ascii "index") 0) = .error e
  | _ => True

theorem Handler.again_iff (H : Host) (b : App) (now now' : ℕ) (req : Request) (h : Handler) :
    SameFiles (h.run H b now req).2.store (h.run H (h.run H b now req).2 now' req).2.store ↔
      h.HarmlessAgain H now now' req (h.run H b now req).2.store := by
  cases h with
  | hPublish => exact hPublish_again_iff H.vendor b.store now now' req
  | hTake => exact App.hTake_again_iff H b now now' req
  | hDone =>
    refine (App.hJobEnd_again_iff b now now' req true).trans ?_
    simp only [Bool.true_eq_false, false_and]
    exact .rfl
  | hFail =>
    refine (App.hJobEnd_again_iff b now now' req false).trans ?_
    simp only [true_and]
    exact .rfl
  | hRequeue => exact App.hRequeue_again_iff H _ now' req
  | hPushPut => exact iff_of_true (App.hPushPut_again b req) trivial
  | hPushDelete => exact iff_of_true (App.hPushDelete_again b req) trivial
  | hSubscribe => exact iff_of_true (App.hSubscribe_again H b req) trivial
  | hAck => exact iff_of_true (App.hAck_oneCall.again b) trivial
  | hTrim => exact iff_of_true (App.hTrim_oneCall.again b) trivial
  | hQueueConfig =>
    refine iff_of_true ?_ trivial
    simp only [run]
    rw [App.hQueueConfig_now _ now now']
    exact (App.hQueueConfig_oneCall now).again b
  | hQueueDelete => exact iff_of_true (App.hQueueDelete_oneCall.again b) trivial
  | hUnsubscribe => exact iff_of_true (App.hUnsubscribe_oneCall.again b) trivial
  | hPolicyPut => exact iff_of_true (App.hPolicyPut_oneCall.again b) trivial
  | hPolicyDelete => exact iff_of_true (App.hPolicyDelete_oneCall.again b) trivial
  | hPushList => exact iff_of_true .refl trivial
  | hHealth => exact iff_of_true .refl trivial
  | hPolicyGet | hPolicies | hDead | hQueues | hConsumers | hInfo | hSubjects =>
    exact iff_of_true (reads_same H _ now' req (by simp)) trivial

/-- What every run leaves of the engine's table: a subscription once, one live for a name, and
one that is gone still in flight. -/
structure Pusher.Tidy (p : Pusher) : Prop where
  ids : (p.subs.map Psub.id).Nodup
  one : p.OneLive
  gone : ∀ s ∈ p.subs, s.gone = true → s.inflight = true

theorem Outstanding.tidy {V : Vendor} {h : List PushStep} {p : Pusher}
    (ho : Outstanding V h p) : p.Tidy :=
  ⟨ho.ids, ho.one, ho.gone⟩

namespace Pusher

theorem setCfg_setCfg (c : Bytes) (cfg : PushSub) (ss : List Psub) :
    setCfg c cfg (setCfg c cfg ss) = setCfg c cfg ss := by
  induction ss with
  | nil => rfl
  | cons s ss ih =>
    simp only [setCfg]
    split
    · rename_i hs
      simp only [setCfg, hs, if_true]
    · rename_i hs
      simp only [setCfg, hs, Bool.false_eq_true, if_false, ih]

theorem setCfg_append_of_none {c : Bytes} {cfg : PushSub} {ss : List Psub} {s : Psub}
    (h : ∀ t ∈ ss, t.gone = false → t.consumer ≠ c) (hs : { s with cfg := cfg } = s) :
    setCfg c cfg (ss ++ [s]) = ss ++ [s] := by
  induction ss with
  | nil =>
    simp only [List.nil_append, setCfg, hs]
    split <;> rfl
  | cons t ss ih =>
    have ht : (!t.gone && t.consumer == c) = false := by
      have := h t List.mem_cons_self
      cases hg : t.gone <;> simp_all
    simp only [List.cons_append, setCfg, ht, Bool.false_eq_true, if_false]
    rw [ih fun t' ht' => h t' (List.mem_cons_of_mem _ ht')]

theorem subs_add_again {p p' : Pusher} {c : Bytes} {cfg : PushSub}
    (h : p'.subs = (p.add c cfg).subs) : (p'.add c cfg).subs = p'.subs := by
  have hlive : ∃ s ∈ p'.subs, s.gone = false ∧ s.consumer = c := by
    rcases p.add_cases c cfg with ⟨pre, s, suf, -, hg, hc, hadd⟩ | ⟨-, hadd⟩
    · exact ⟨{ s with cfg := cfg }, by simp [h, hadd], hg, hc⟩
    · exact ⟨p.psubNew c cfg, by simp [h, hadd], rfl, rfl⟩
  have hset : (p'.add c cfg).subs = setCfg c cfg p'.subs := by
    cases hf : p'.find c with
    | some s => simp only [add, hf]
    | none =>
      obtain ⟨s, hs, hg, hc⟩ := hlive
      exact absurd hc (find_eq_none hf s hs hg)
  rw [hset, h]
  cases hf : p.find c with
  | some s =>
    simp only [add, hf]
    exact setCfg_setCfg c cfg p.subs
  | none =>
    simp only [add, hf, loadOne]
    exact setCfg_append_of_none (find_eq_none hf) rfl

theorem subs_remove_of_gone {p : Pusher} {c : Bytes}
    (h : ∀ s, p.subs.find? (·.consumer == c) = some s → s.gone = true ∧ s.inflight = true) :
    (p.remove c).subs = p.subs := by
  rcases p.remove_cases c with ⟨heq, -⟩ | ⟨pre, s, suf, hsubs, hsc, hpre, hcases⟩
  · rw [heq]
  have hfind : p.subs.find? (·.consumer == c) = some s := by
    rw [hsubs, List.find?_append, List.find?_eq_none.mpr]
    · simp [hsc]
    · simpa using hpre
  obtain ⟨hg, hf⟩ := h s hfind
  rcases hcases with ⟨-, heq⟩ | ⟨hno, -⟩
  · have hmarked : { s with gone := true } = s := by rw [← hg]
    rw [heq, hsubs, hmarked]
  · rw [hf] at hno
    contradiction

theorem subs_remove_again {p p' : Pusher} {c : Bytes} (hp : p.Tidy)
    (h : p'.subs = (p.remove c).subs) : (p'.remove c).subs = p'.subs := by
  apply subs_remove_of_gone
  intro s' hs'
  have hc' : s'.consumer = c := by simpa using List.find?_some hs'
  have hm' := List.mem_of_find?_eq_some hs'
  rw [h] at hs' hm'
  rcases p.remove_cases c with ⟨heq, hnone⟩ | ⟨pre, s, suf, hsubs, hsc, hpre, hcases⟩
  · rw [heq] at hm'
    exact absurd hc' (hnone s' hm')
  rcases hcases with ⟨hf, heq⟩ | ⟨hno, suf', hperm, heq⟩
  · have hfind : (pre ++ { s with gone := true } :: suf).find? (·.consumer == c) =
        some { s with gone := true } := by
      rw [List.find?_append, List.find?_eq_none.mpr]
      · simp [hsc]
      · simpa using hpre
    rw [heq] at hs'
    obtain rfl := Option.some.inj (hfind.symm.trans hs')
    exact ⟨rfl, hf⟩
  · -- another live one of the name would be the one that went
    rw [heq] at hm'
    have hs : s ∈ p.subs := by simp [hsubs]
    have hsuf : s' ∈ suf := by
      rcases List.mem_append.mp hm' with hm' | hm'
      · exact absurd hc' (hpre s' hm')
      · exact hperm.mem_iff.mp hm'
    have hm : s' ∈ p.subs := by simp [hsubs, hsuf]
    have hgone : s'.gone = true := by
      cases hg' : s'.gone with
      | true => rfl
      | false =>
        have hg : s.gone = false := by
          cases hg : s.gone with
          | false => rfl
          | true =>
            rw [hp.gone s hs hg] at hno
            contradiction
        obtain rfl := hp.one s hs s' hm hg hg' (hsc.trans hc'.symm)
        have hids := hp.ids
        rw [hsubs] at hids
        exact absurd hsuf (alone_of_ids hids).2
    exact ⟨hgone, hp.gone s' hm hgone⟩

end Pusher

theorem Handler.subs_again (H : Host) (b : App) (now now' : ℕ) (req : Request) (h : Handler)
    (hp : b.push.Tidy) :
    (h.run H (h.run H b now req).2 now' req).2.push.subs = (h.run H b now req).2.push.subs := by
  rcases push_cases H (h.run H b now req).2 now' req h with
    hl' | ⟨rfl, r', p', hr', hl', heq'⟩ | ⟨rfl, c', hc', heq'⟩
  · exact hl'.subs_eq
  · rcases b.hPushPut_push req with heq | ⟨r, found, hr, -, heq⟩
    · have hsame : (run H b now req hPushPut).2 = b := heq
      rw [hsame]
      exact congrArg (fun b : App => b.push.subs) heq
    · obtain rfl := Except.ok.inj (hr.symm.trans hr')
      rw [heq']
      have hsubs := hl'.subs_eq
      have hfirst : (run H b now req hPushPut).2.push =
          (if found.isNone then b.seedFor req r else b).push.add r.consumer r.cfg :=
        congrArg App.push heq
      rw [hfirst] at hsubs ⊢
      rw [Pusher.subs_add_again hsubs, hsubs]
  · rcases b.hPushDelete_push req with heq | ⟨c, hc, hpush, -⟩
    · have hsame : (run H b now req hPushDelete).2 = b := heq
      rw [hsame]
      exact congrArg (fun b : App => b.push.subs) heq
    · obtain rfl := Except.ok.inj (hc.symm.trans hc')
      rw [heq']
      exact Pusher.subs_remove_again hp (congrArg Pusher.subs hpush)

/-- Serving a request a second time leaves the logs, the receipts, the policies, the
registrations and the groups' tables exactly when that is harmless. -/
theorem request_served_twice_iff (H : Host) (b : App) (now now' : ℕ) (method : Bytes)
    (req : Request) :
    let once := (b.dispatch H now method req).2
    let twice := (once.dispatch H now' method req).2
    (SameFiles once.store twice.store ↔
      ∀ h, sukkalRoute method req.path = some h → h.HarmlessAgain H now now' req once.store) ∧
      (b.push.Tidy → twice.push.subs = once.push.subs) := by
  dsimp only
  rcases b.dispatch_cases H now method req with ⟨h, hroute, heq⟩ | ⟨hnone, heq⟩
  · rcases (b.dispatch H now method req).2.dispatch_cases H now' method req with
      ⟨h', hroute', heq'⟩ | ⟨hnone', -⟩
    · obtain rfl := Option.some.inj (hroute.symm.trans hroute')
      rw [heq', heq]
      refine ⟨?_, h.subs_again H b now now' req⟩
      simp only [hroute, Option.some.injEq, forall_eq']
      exact h.again_iff H b now now' req
    · rw [hroute] at hnone'
      contradiction
  · have hsame : ∀ (b : App) (now : ℕ), (b.dispatch H now method req).2 = b := by
      intro b now
      rcases b.dispatch_cases H now method req with ⟨h, hroute, -⟩ | ⟨-, heq⟩
      · rw [hnone] at hroute
        contradiction
      · exact heq
    simp only [hsame, hnone, reduceCtorEq, false_imp_iff, implies_true, iff_true, and_true]
    exact .refl

/-- The broker as the client's loop calls it. -/
def App.answers (H : Host) (method : Bytes) (req : Request) (now : ℕ) (b : App) : ℕ × App :=
  ((b.dispatch H now method req).1.status, (b.dispatch H now method req).2)

/-- However often a request that is always harmless to repeat is sent, the files are as they
were, or as one service leaves them. -/
theorem clientPerform_files {H : Host} {method : Bytes} {req : Request} {retryMs : ℕ}
    (hsafe : ∀ (b : App) (now now' : ℕ),
      SameFiles (b.dispatch H now method req).2.store
        ((b.dispatch H now method req).2.dispatch H now' method req).2.store)
    (attempts : List Attempt) (b : App) :
    SameFiles b.store (clientPerform retryMs (App.answers H method req) attempts b).2.store ∨
      ∃ now, SameFiles (b.dispatch H now method req).2.store
        (clientPerform retryMs (App.answers H method req) attempts b).2.store := by
  -- once it has been served, further attempts keep the files
  have hserved : ∀ (attempts : List Attempt) (b : App) (now : ℕ),
      SameFiles (b.dispatch H now method req).2.store (clientPerform retryMs
        (App.answers H method req) attempts (b.dispatch H now method req).2).2.store := by
    intro attempts
    induction attempts with
    | nil => exact fun _ _ => .refl
    | cons t ts ih =>
      intro b now
      simp only [clientPerform, clientPerformEx, Attempt.leaves]
      cases t.served with
      | false =>
        simp only [Bool.false_eq_true, if_false]
        split
        · exact .refl
        split
        · exact ih b now
        · exact .refl
      | true =>
        have hagain := hsafe b now t.now
        simp only [if_true]
        split
        · exact hagain
        split
        · exact hagain.trans (ih _ t.now)
        · exact hagain
  induction attempts with
  | nil => exact .inl .refl
  | cons t ts ih =>
    simp only [clientPerform, clientPerformEx, Attempt.leaves]
    cases t.served with
    | false =>
      simp only [Bool.false_eq_true, if_false]
      split
      · exact .inl .refl
      split
      · exact ih
      · exact .inl .refl
    | true =>
      refine .inr ⟨t.now, ?_⟩
      simp only [if_true]
      split
      · exact .refl
      split
      · exact hserved ts b t.now
      · exact .refl

/-- The envelope of a job that has been given up on. -/
def buriedEnvelope : Record :=
  envelopeRecord (ascii "jobs") (ascii "workers") 5 (1, 10) ⟨BJM_ENTRY_PLAIN, [0x01]⟩

/-- A host whose decoder knows that one envelope. -/
def buriedHost : Host where
  vendor := .binjson
  decode := fun p => if p = Binjson.encode buriedEnvelope then .ok buriedEnvelope
    else .error .verify
  listing := none
  backend := ascii "file"
  connections := 1
  startedS := 0

def buriedApp : App where
  store := { Store.empty with
    logs := ((∅ : ExtTreeMap Bytes Elog).insert (ascii "jobs")
      ⟨0, [⟨BJM_ENTRY_PLAIN, [0x01]⟩]⟩).insert (ascii "jobs.dead")
        ⟨0, [⟨BJM_ENTRY_PLAIN, Binjson.encode buriedEnvelope⟩]⟩ }
  push := .blank 0

/-- `sukkal requeue jobs 1`. -/
def requeueRequest : Request where
  path := ascii "/requeue/jobs"
  contentType := none
  body := some []
  query := fun key => if key = ascii "index" then some (ascii "1") else none

/-- How many messages a subject has. -/
def messagesOf (b : App) (s : Bytes) : ℕ := (b.store.logOf s).entries.length

theorem messagesOf_same {b b' : App} (h : SameFiles b.store b'.store) (s : Bytes) :
    messagesOf b' s = messagesOf b s := by
  simp only [messagesOf, logOf, h.logs]

/-- A requeue that is sent again, because its answer was lost, appends again. -/
theorem requeue_sent_again :
    let once := (buriedApp.dispatch buriedHost 10 POST requeueRequest).2
    ¬ SameFiles once.store (once.dispatch buriedHost 11 POST requeueRequest).2.store := by
  have honce : messagesOf (buriedApp.dispatch buriedHost 10 POST requeueRequest).2
      (ascii "jobs") = 2 := by decide +kernel
  have htwice : messagesOf ((buriedApp.dispatch buriedHost 10 POST requeueRequest).2.dispatch
      buriedHost 11 POST requeueRequest).2 (ascii "jobs") = 3 := by decide +kernel
  intro once hsame
  exact absurd (htwice.symm.trans ((messagesOf_same hsame _).trans honce)) (by decide)

end SukkalMsg
