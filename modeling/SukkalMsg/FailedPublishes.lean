import SukkalMsg.IdempotentPublish
import SukkalMsg.PushProgress
import SukkalMsg.RequestCalls
import SukkalMsg.TakeFaults

/-!
# Publishes that fail

`elog_append` buffers an entry and counts it, and `elog_sync` commits all that is
buffered. A publish that fails before its append leaves nothing behind. One whose sync
fails has answered with an error, and its message stays in the log: it is read and
delivered like any other, and the next sync commits it.
-/

namespace SukkalMsg

open Std Names Binjson OrderedScan Store

/-- A log that has grown by some entries, and may have been trimmed. -/
structure Elog.Extends (log log' : Elog) (es : List Entry) : Prop where
  base : log.base ≤ log'.base
  within : log'.base ≤ log.last + es.length
  entries : log'.entries = (log.entries ++ es).drop (log'.base - log.base)

namespace Elog.Extends

variable {log log' log'' : Elog} {es es' : List Entry}

theorem refl : log.Extends log [] :=
  ⟨Nat.le_refl _, Nat.le_add_right _ _, by simp⟩

theorem last (h : log.Extends log' es) : log'.last = log.last + es.length := by
  have hlen := congrArg List.length h.entries
  have hbase := h.base
  have hwithin := h.within
  simp only [List.length_drop, List.length_append] at hlen
  simp only [Elog.last] at *
  omega

theorem trans (h : log.Extends log' es) (h' : log'.Extends log'' es') :
    log.Extends log'' (es ++ es') := by
  have hbase := h.base
  have hbase' := h'.base
  refine ⟨Nat.le_trans hbase hbase', ?_, ?_⟩
  · have hwithin := h'.within
    rw [h.last] at hwithin
    rw [List.length_append]
    omega
  · have hle : log'.base - log.base ≤ (log.entries ++ es).length := by
      have hwithin := h.within
      simp only [Elog.last] at hwithin
      rw [List.length_append]
      omega
    have hsum : log'.base - log.base + (log''.base - log'.base) = log''.base - log.base := by omega
    rw [h'.entries, h.entries, ← List.drop_append_of_le_length hle, List.drop_drop, hsum,
      List.append_assoc]

theorem append (log : Elog) (e : Entry) : log.Extends (log.append e) [e] := by
  refine ⟨Nat.le_refl _, ?_, by simp [Elog.append]⟩
  rw [append_base, Elog.last]
  omega

theorem compact {n : ℕ} (hb : log.base ≤ n) (hl : n ≤ log.last) : log.Extends (log.compact n) [] :=
  ⟨hb, hl, by rw [List.append_nil]; rfl⟩

theorem get (h : log.Extends log' es) {i : ℕ} {e : Entry} (hi : log'.get i = some e) :
    log.get i = some e ∨ log.last < i ∧ es[i - log.last - 1]? = some e := by
  have hbase := h.base
  simp only [Elog.get] at hi
  split at hi
  · contradiction
  rename_i hlt
  rw [h.entries, List.getElem?_drop, List.getElem?_append] at hi
  have hidx : log'.base - log.base + (i - log'.base - 1) = i - log.base - 1 := by omega
  rw [hidx] at hi
  split at hi
  · have hlt' : ¬ i ≤ log.base := by omega
    refine .inl ?_
    simp only [Elog.get, hlt', if_false]
    exact hi
  · rename_i hlen
    have hlast : log.last < i := by
      simp only [Elog.last]
      omega
    have hidx' : i - log.base - 1 - log.entries.length = i - log.last - 1 := by
      simp only [Elog.last]
      omega
    rw [hidx'] at hi
    exact .inr ⟨hlast, hi⟩

end Elog.Extends

/-- A `bjm_publish` that has got as far as its log, and how it ended. -/
structure PublishTry where
  name : Bytes
  entry : Entry
  ending : Appending
  deriving DecidableEq

def landed (l : List PublishTry) (s : Bytes) : List Entry :=
  (l.filter fun t => t.name == s && t.ending.landed).map PublishTry.entry

def answered (l : List PublishTry) (s : Bytes) : List Entry :=
  (l.filter fun t => t.name == s && t.ending == .done).map PublishTry.entry

/-- Those the subject's last good sync has committed: all that were buffered then. -/
def committed (l : List PublishTry) (s : Bytes) : List Entry :=
  landed (l.reverse.dropWhile fun t => !(t.name == s && t.ending == .done)).reverse s

theorem landed_append (l l' : List PublishTry) (s : Bytes) :
    landed (l ++ l') s = landed l s ++ landed l' s := by
  simp [landed]

theorem landed_length (l : List PublishTry) (s : Bytes) :
    (landed l s).length = (answered l s).length +
      l.countP fun t => t.name == s && t.ending == .unsynced := by
  simp only [landed, answered, List.length_map, ← List.countP_eq_length_filter]
  induction l with
  | nil => rfl
  | cons t l ih =>
    simp only [List.countP_cons, ih]
    cases t.name == s with
    | false => simp
    | true => cases t.ending <;> simp [Appending.landed] <;> omega

theorem landed_eq_answered {l : List PublishTry} (hl : ∀ t ∈ l, t.ending ≠ .unsynced) (s : Bytes) :
    landed l s = answered l s := by
  simp only [landed, answered]
  congr 1
  refine List.filter_congr fun t ht => ?_
  have hne := hl t ht
  congr 1
  cases he : t.ending with
  | unsynced => exact absurd he hne
  | done => rfl
  | refused => rfl

namespace Store

/-- `bjm_publish`, whose append or sync may fail with some error; by then the subject's
log is there. -/
def bjmPublishFated (st : Store) (now : ℕ) (name : Bytes) (e : Entry) (err : BjErr) :
    Appending → Except BjErr ℕ × Store
  | .done => match st.bjmPublish now name e with
    | .error err => (.error err, st)
    | .ok (index, st) => (.ok index, st)
  | .unsynced => match st.subjectGet name true with
    | .error err => (.error err, st)
    | .ok _ => (.error err, st.bjmPublishUnsynced name e)
  | .refused => match st.subjectGet name true with
    | .error err => (.error err, st)
    | .ok log => (.error err, { st with logs := st.logs.insert name log })

/-- The call gets as far as the log, if there can be one of that name. -/
def publishTries (st : Store) (name : Bytes) (e : Entry) (ending : Appending) : List PublishTry :=
  match st.subjectGet name true with
  | .error _ => []
  | .ok _ => [⟨name, e, ending⟩]

/-- The calls of the dead-letter loop. -/
def takeTries (V : Vendor) (st : Store) (now : ℕ) (subject group : Bytes) (max : ℤ) (lease : ℕ) :
    TakeFate → List PublishTry
  | .unwritten => []
  | .written appends =>
    match st.bjmTakeFated V now subject group max lease (.written appends), deadSubjectOf subject with
    | .ok t, some dead => (t.dead.zip appends).filterMap fun x =>
        ((st.logOf subject).get x.1.1).map fun e =>
          ⟨dead, envelopeEntry V subject group now x.1 e, x.2⟩
    | _, _ => []

variable {V : Vendor} {st : Store}

theorem subjectGet_create (st : Store) {name : Bytes} (h : fileFits name = true) :
    st.subjectGet name true = .ok (st.logOf name) := by
  simp only [subjectGet, h, logOf]
  cases st.logs[name]? <;> rfl

theorem subjectGet_create_cases (st : Store) (name : Bytes) :
    st.subjectGet name true = .ok (st.logOf name) ∨
      ∃ err, st.subjectGet name true = .error err := by
  cases h : fileFits name with
  | true => exact .inl (subjectGet_create st h)
  | false => exact .inr ⟨.range, by simp [subjectGet, h]⟩

/-- Whatever becomes of a publish, its subject's log shows what has landed, and the
others show nothing of it. -/
theorem extends_publishFated (st : Store) (now : ℕ) (name : Bytes) (e : Entry) (err : BjErr)
    (ending : Appending) (s : Bytes) : (st.logOf s).Extends
      ((st.bjmPublishFated now name e err ending).2.logOf s)
      (landed (st.publishTries name e ending) s) := by
  have hinsert : ∀ (log : Elog) (st' : Store), st'.logs = st.logs.insert name log →
      (st.logOf name).Extends log (if ending.landed then [e] else []) →
      (st.logOf s).Extends (st'.logOf s) (landed [⟨name, e, ending⟩] s) := by
    intro log st' hlogs hlog
    rw [logOf_insert hlogs]
    by_cases hs : name = s
    · subst hs
      rw [if_pos rfl]
      convert hlog using 1
      cases hl : ending.landed <;> simp [landed, hl]
    · rw [if_neg hs]
      have hnone : landed [⟨name, e, ending⟩] s = [] := by simp [landed, hs]
      rw [hnone]
      exact .refl
  rcases subjectGet_create_cases st name with hget | ⟨err', hget⟩
  · simp only [publishTries, hget]
    cases ending with
    | done =>
      cases hpub : st.bjmPublish now name e with
      | error err' => simp [bjmPublish, hget] at hpub
      | ok r =>
        obtain ⟨-, hlogs, -⟩ := bjmPublish_eq hpub
        simp only [bjmPublishFated, hpub]
        exact hinsert _ _ hlogs (.append _ e)
    | unsynced =>
      simp only [bjmPublishFated, bjmPublishUnsynced, hget]
      exact hinsert _ _ rfl (.append _ e)
    | refused =>
      simp only [bjmPublishFated, hget]
      exact hinsert _ _ rfl .refl
  · have hpub : st.bjmPublish now name e = .error err' := by simp [bjmPublish, hget]
    simp only [publishTries, hget]
    cases ending <;> simp only [bjmPublishFated, hget, hpub] <;> exact .refl

theorem deadLetterFated_others {now : ℕ} {s g dead r : Bytes} (hr : r ≠ dead) (d : ℕ × ℕ)
    (a : Appending) : (deadLetterFated V now s g dead st d a).logOf r = st.logOf r := by
  cases a with
  | refused => rfl
  | done =>
    simp only [deadLetterFated, deadLetter]
    split
    · rfl
    split
    · rfl
    split
    · rfl
    · rename_i hpub
      exact (PublishedTo.of_publish hpub).logOf_eq hr
  | unsynced =>
    simp only [deadLetterFated, bjmPublishUnsynced]
    split
    · rfl
    split
    · rfl
    split
    · rfl
    · rw [logOf_insert rfl, if_neg (Ne.symm hr)]
      rfl

theorem landed_takeTries {now : ℕ} {s g dead : Bytes} {log : Elog}
    (turns : List ((ℕ × ℕ) × Appending)) :
    landed (turns.filterMap fun x => (log.get x.1.1).map fun e =>
      ⟨dead, envelopeEntry V s g now x.1 e, x.2⟩) dead = turns.flatMap (landing V s g now log) := by
  induction turns with
  | nil => rfl
  | cons x turns ih =>
    rw [List.flatMap_cons, ← ih, List.filterMap_cons]
    cases he : log.get x.1.1 with
    | none => simp [landing, he]
    | some e => cases hl : x.2.landed <;> simp [landing, he, hl, landed]

theorem extends_take {now lease : ℕ} {s g : Bytes} {max : ℤ} {fate : TakeFate} {t : Cut}
    (h : st.bjmTakeFated V now s g max lease fate = .ok t) (r : Bytes) :
    (st.logOf r).Extends (t.store.logOf r)
      (landed (st.takeTries V now s g max lease fate) r) := by
  obtain ⟨log, q, existed, plan, hget, -, -, hdead, hstore⟩ := bjmTakeFated_eq h
  cases fate with
  | unwritten =>
    rw [hstore]
    exact .refl
  | written appends =>
    obtain ⟨-, -, hlog⟩ := subjectGet_logOf hget
    cases hd : deadSubjectOf s with
    | none =>
      simp only [takeTries, h, hd, hstore, deadLettersFated]
      exact .refl
    | some dead =>
      simp only [takeTries, h, hd, hdead, hstore, deadLettersFated]
      generalize hst' : ({ st with queues := st.queues.insert (pairKey s g) (queueRecord plan.q) } :
        Store) = st'
      have hget' : st'.subjectGet s false = .ok log := by rw [← hst']; exact hget
      have hsame : st'.logOf r = st.logOf r := by rw [← hst']; rfl
      rw [hlog]
      by_cases hr : r = dead
      · subst hr
        obtain ⟨-, hchannel⟩ := foldl_deadLetterFated now st' (V := V) (g := g) hget'
          (deadSubjectOf_ne hd) (fileFits_of_valid (deadSubjectOf_valid hd))
          (plan.deadNow.rows.zip appends)
        rw [hchannel, landed_takeTries, hsame]
        exact ⟨Nat.le_refl _, by simp only [Elog.last]; omega, by simp⟩
      · have hothers : ∀ (turns : List ((ℕ × ℕ) × Appending)) (u : Store), (turns.foldl
            (fun st x => deadLetterFated V now s g dead st x.1 x.2) u).logOf r = u.logOf r := by
          intro turns
          induction turns with
          | nil => exact fun _ => rfl
          | cons x turns ih =>
            intro u
            rw [List.foldl_cons, ih, deadLetterFated_others hr]
        have hnone : ∀ l : List PublishTry, (∀ x ∈ l, x.name = dead) → landed l r = [] := by
          intro l hl
          simp only [landed, List.map_eq_nil_iff, List.filter_eq_nil_iff]
          intro x hx
          simp [hl x hx, Ne.symm hr]
        rw [hothers, hsame, hnone]
        · exact .refl
        · intro x hx
          obtain ⟨y, -, hy⟩ := List.mem_filterMap.mp hx
          obtain ⟨e, -, rfl⟩ := Option.map_eq_some_iff.mp hy
          rfl

theorem extends_trim {st' : Store} {name : Bytes} {before base removed : ℕ} {force : Bool}
    (h : st.bjmTrim name before force = .ok (base, removed, st')) (s : Bytes) :
    (st.logOf s).Extends (st'.logOf s) [] := by
  obtain ⟨hbase, hlast, hle, hwithin, -⟩ := bjmTrim_log h
  by_cases hs : s = name
  · subst hs
    rcases bjmTrim_store h with rfl | hm
    · exact .refl
    · rw [logOf_insert hm.logs_eq, if_pos rfl]
      exact .compact hle (hlast ▸ hwithin)
  · rw [bjmTrim_others h hs]
    exact .refl

end Store

/-- A call of a run; the appends of some fail. -/
inductive FatedCall where
  | call (call : StoreCall)
  | publish (now : ℕ) (name : Bytes) (e : Entry) (err : BjErr) (ending : Appending)
  | take (now : ℕ) (subject group : Bytes) (max : ℤ) (lease : ℕ) (fate : TakeFate)

namespace FatedCall

def Makes (V : Vendor) (st st' : Store) : FatedCall → Prop
  | call c => c.Makes V st st'
  | publish now name e err ending => (st.bjmPublishFated now name e err ending).2 = st'
  | take now subject group max lease fate =>
    ∃ t, st.bjmTakeFated V now subject group max lease fate = .ok t ∧ t.store = st'

/-- The `bjm_publish` calls it comes to. -/
def tries (V : Vendor) (st : Store) : FatedCall → List PublishTry
  | call (.publish _ name e) => st.publishTries name e .done
  | call (.take now subject group max lease) =>
    st.takeTries V now subject group max lease (.written (List.replicate BJM_INFLIGHT_MAX .done))
  | call _ => []
  | publish _ name e _ ending => st.publishTries name e ending
  | take now subject group max lease fate => st.takeTries V now subject group max lease fate

theorem tries_call (V : Vendor) (st : Store) (c : StoreCall) :
    ∀ t ∈ (call c).tries V st, t.ending = .done := by
  intro t ht
  cases c with
  | publish now name e =>
    simp only [tries, publishTries] at ht
    split at ht
    · exact absurd ht List.not_mem_nil
    · rw [List.mem_singleton.mp ht]
  | take now s g max lease =>
    simp only [tries, takeTries] at ht
    split at ht
    · obtain ⟨x, hx, hsome⟩ := List.mem_filterMap.mp ht
      obtain ⟨e, -, rfl⟩ := Option.map_eq_some_iff.mp hsome
      exact List.eq_of_mem_replicate (List.of_mem_zip hx).2
    · exact absurd ht List.not_mem_nil
  | _ => exact absurd ht List.not_mem_nil

/-- The logs show what has landed, and no more. -/
theorem Makes.logs {V : Vendor} {st st' : Store} {c : FatedCall} (h : c.Makes V st st')
    (s : Bytes) : (st.logOf s).Extends (st'.logOf s) (landed (c.tries V st) s) := by
  have hlogs : st'.logs = st.logs → (st.logOf s).Extends (st'.logOf s) [] := by
    intro heq
    have hlog : st'.logOf s = st.logOf s := by simp only [logOf, heq]
    rw [hlog]
    exact .refl
  cases c with
  | publish now name e err ending =>
    obtain rfl := h
    exact extends_publishFated st now name e err ending s
  | take now g' s' max lease fate =>
    obtain ⟨t, ht, rfl⟩ := h
    exact extends_take ht s
  | call c =>
    cases c with
    | publish now name e =>
      obtain ⟨index, hpub⟩ := h
      have hfated : (st.bjmPublishFated now name e .state .done).2 = st' := by
        simp only [bjmPublishFated, hpub]
      rw [← hfated]
      exact extends_publishFated st now name e .state .done s
    | take now s' g' max lease =>
      obtain ⟨t, ht, rfl⟩ := h
      have hfated : st.bjmTakeFated V now s' g' max lease
          (.written (List.replicate BJM_INFLIGHT_MAX .done)) = _ :=
        bjmTakeFated_done (fun a ha => List.eq_of_mem_replicate ha) (by rw [List.length_replicate])
      rw [ht] at hfated
      exact extends_take hfated s
    | trim name before force =>
      obtain ⟨base, removed, htrim⟩ := h
      exact extends_trim htrim s
    | dedup => exact hlogs (DedupOnly.logs_eq h)
    | cursorSet s' c n => exact hlogs (by rw [bjmCursorSet_same h])
    | cursorDelete s' c =>
      obtain ⟨deleted, hdel⟩ := h
      exact hlogs (by rw [(bjmCursorDelete_eq hdel).1])
    | release now s' g' i drop delay =>
      obtain ⟨x, hx, rfl⟩ := h
      obtain ⟨q, existed, -, ⟨heq, -⟩ | ⟨pre, e, suf, q', -, -, -, -, heq, -⟩⟩ := queueRelease_eq hx
      · exact hlogs (by rw [heq])
      · exact hlogs (by rw [heq])
    | queueConfig s' g' l a b m =>
      obtain ⟨q, existed, -, rfl⟩ := bjmQueueConfig_eq h
      exact hlogs rfl
    | queueDelete s' g' =>
      obtain ⟨deleted, hdel⟩ := h
      exact hlogs (by rw [(bjmQueueDelete_eq hdel).1])
    | policySet s' p =>
      obtain ⟨key, -, heq⟩ := bjmPolicySet_eq h
      exact hlogs (by rw [heq])
    | policyClear s' =>
      obtain ⟨cleared, hclear⟩ := h
      exact hlogs (by rw [(bjmPolicyClear_eq hclear).1])
    | cursorDeleteConsumer | policyOpen | pushSet | pushDelete =>
      obtain rfl := h
      exact hlogs rfl

end FatedCall

/-- A run of calls, and the publishes it has tried. -/
inductive FatedRun (V : Vendor) (st₀ : Store) : List PublishTry → Store → Prop
  | start : FatedRun V st₀ [] st₀
  | step {l : List PublishTry} {st st' : Store} (h : FatedRun V st₀ l st) (c : FatedCall)
      (hm : c.Makes V st st') : FatedRun V st₀ (l ++ c.tries V st) st'

/-- No failed publish can be told from the logs: what they show was there at the start, or
is the message of an answered publish at the index it was answered with, and every index
since the start was answered. -/
structure Traceless (st₀ : Store) (l : List PublishTry) (st : Store) : Prop where
  shown : ∀ s i e, (st.logOf s).get i = some e → (st₀.logOf s).get i = some e ∨
    (st₀.logOf s).last < i ∧ (answered l s)[i - (st₀.logOf s).last - 1]? = some e
  counted : ∀ s, (st.logOf s).last = (st₀.logOf s).last + (answered l s).length

namespace FatedRun

variable {V : Vendor} {st₀ st : Store} {l : List PublishTry}

theorem logs (h : FatedRun V st₀ l st) (s : Bytes) :
    (st₀.logOf s).Extends (st.logOf s) (landed l s) := by
  induction h with
  | start => exact .refl
  | step _ c hm ih =>
    rw [landed_append]
    exact ih.trans (hm.logs s)

theorem calls {asks : Store → StoreCall → Prop} {st' : Store} (h : FatedRun V st₀ l st)
    (hc : Calls V asks st st') :
    ∃ l', FatedRun V st₀ (l ++ l') st' ∧ ∀ t ∈ l', t.ending = .done := by
  induction hc with
  | refl => exact ⟨[], by rwa [List.append_nil], fun t ht => absurd ht List.not_mem_nil⟩
  | @tail st₁ _ _ c _ hm ih =>
    obtain ⟨l', hl', hdone⟩ := ih
    have hstep := hl'.step (.call c) hm
    rw [List.append_assoc] at hstep
    refine ⟨_, hstep, fun t ht => ?_⟩
    rcases List.mem_append.mp ht with ht | ht
    · exact hdone t ht
    · exact FatedCall.tries_call V st₁ c t ht

end FatedRun

/-- A run's failed publishes leave no trace exactly when none of them failed at the sync. -/
theorem failed_publish_traceless_iff {V : Vendor} {st₀ st : Store} {l : List PublishTry}
    (h : FatedRun V st₀ l st) :
    Traceless st₀ l st ↔ ∀ t ∈ l, t.ending ≠ .unsynced := by
  constructor
  · intro htrace t ht hending
    have hlast := (h.logs t.name).last
    rw [landed_length, htrace.counted t.name] at hlast
    have hpos : 0 < l.countP fun u => u.name == t.name && u.ending == .unsynced := by
      rw [List.countP_pos_iff]
      exact ⟨t, ht, by simp [hending]⟩
    omega
  · intro hends
    have hextends := fun s => h.logs s
    simp only [landed_eq_answered hends] at hextends
    exact ⟨fun s i e hi => (hextends s).get hi, fun s => (hextends s).last⟩

namespace Store

/-- `h_publish` from its append on, when the append ends so. -/
def publishFreshFated (st : Store) (now : ℕ) (p : Publication) (err : BjErr) (ending : Appending) :
    Except Answer (ℕ × Bool) × Store :=
  match st.bjmPublishFated now p.subject p.entry err ending with
  | (.error e, st) => (.error (.err (statusFor e) (ascii "publish failed\n")), st)
  | (.ok index, st) => match p.id with
    | none => (.ok (index, false), st)
    | some id => (.ok (index, false), (st.bjmDedupRecord now p.subject id index).2)

def publishOnceFated (st : Store) (now : ℕ) (p : Publication) (err : BjErr) (ending : Appending) :
    Except Answer (ℕ × Bool) × Store :=
  match p.id with
  | none => st.publishFreshFated now p err ending
  | some id => match st.bjmDedupLookup now p.subject id with
    | (.error e, st) => (.error (.err (statusFor e) (ascii "dedup lookup failed\n")), st)
    | (.ok (some index), st) => (.ok (index, true), st)
    | (.ok none, st) => st.publishFreshFated now p err ending

def hPublishFated (V : Vendor) (st : Store) (now : ℕ) (req : Request) (err : BjErr)
    (ending : Appending) : Answer × Store :=
  match publication V req with
  | .error a => (a, st)
  | .ok p => match st.publishOnceFated now p err ending with
    | (.error a, st) => (a, st)
    | (.ok (index, duplicate), st) => match st.publishAck req with
      | (.error a, st) => (a, st)
      | (.ok acked, st) => (.published p.subject index acked (p.id.map fun _ => duplicate), st)

theorem publishFreshFated_done (st : Store) (now : ℕ) (p : Publication) (err : BjErr) :
    st.publishFreshFated now p err .done = st.publishFresh now p := by
  simp only [publishFreshFated, publishFresh, bjmPublishFated]
  cases st.bjmPublish now p.subject p.entry with
  | error e => rfl
  | ok r => cases p.id <;> rfl

theorem publishOnceFated_done (st : Store) (now : ℕ) (p : Publication) (err : BjErr) :
    st.publishOnceFated now p err .done = st.publishOnce now p := by
  unfold publishOnceFated publishOnce
  cases p.id with
  | none => exact publishFreshFated_done st now p err
  | some id =>
    dsimp only
    generalize st.bjmDedupLookup now p.subject id = r
    rcases r with ⟨e | found, st'⟩
    · rfl
    · cases found with
      | none => exact publishFreshFated_done st' now p err
      | some index => rfl

theorem hPublishFated_done (V : Vendor) (st : Store) (now : ℕ) (req : Request) (err : BjErr) :
    st.hPublishFated V now req err .done = st.hPublish V now req := by
  unfold hPublishFated hPublish
  cases publication V req with
  | error a => rfl
  | ok p =>
    have honce := publishOnceFated_done st now p err
    dsimp only
    generalize hr : st.publishOnceFated now p err .done = r
    obtain rfl : st.publishOnce now p = r := honce.symm.trans hr
    generalize st.publishOnce now p = r
    rcases r with ⟨a | ⟨index, duplicate⟩, st'⟩
    · rfl
    · rcases hy : st'.publishAck req with ⟨a | acked, st''⟩ <;> simp only [hy]

end Store

namespace FatedRun

variable {V : Vendor} {st₀ st : Store} {l : List PublishTry}

theorem publishFresh (h : FatedRun V st₀ l st) (now : ℕ) (p : Publication) (err : BjErr)
    (ending : Appending) : ∃ l', FatedRun V st₀ (l ++ l') (st.publishFreshFated now p err ending).2 ∧
      ∀ t ∈ l', t.entry = p.entry ∧ t.ending = ending := by
  have hpub := h.step (.publish now p.subject p.entry err ending) rfl
  have htries : ∀ t ∈ (FatedCall.publish now p.subject p.entry err ending).tries V st,
      t.entry = p.entry ∧ t.ending = ending := by
    intro t ht
    simp only [FatedCall.tries, publishTries] at ht
    split at ht
    · exact absurd ht List.not_mem_nil
    · rw [List.mem_singleton.mp ht]
      exact ⟨rfl, rfl⟩
  simp only [publishFreshFated]
  generalize st.bjmPublishFated now p.subject p.entry err ending = r at hpub
  rcases r with ⟨e | index, st'⟩
  · exact ⟨_, hpub, htries⟩
  · cases p.id with
    | none => exact ⟨_, hpub, htries⟩
    | some id =>
      have hrec := hpub.step (.call .dedup) (bjmDedupRecord_dedupOnly st' now p.subject id index)
      rw [List.append_assoc] at hrec
      refine ⟨_, hrec, fun t ht => ?_⟩
      rcases List.mem_append.mp ht with ht | ht
      · exact htries t ht
      · exact absurd ht List.not_mem_nil

theorem hPublish (h : FatedRun V st₀ l st) (now : ℕ) (req : Request) (err : BjErr)
    (ending : Appending) : ∃ l', FatedRun V st₀ (l ++ l') (st.hPublishFated V now req err ending).2 ∧
      ∀ t ∈ l', t.ending = ending := by
  simp only [hPublishFated]
  cases publication V req with
  | error a => exact ⟨[], by rwa [List.append_nil], fun t ht => absurd ht List.not_mem_nil⟩
  | ok p =>
    have honce : ∃ l', FatedRun V st₀ (l ++ l') (st.publishOnceFated now p err ending).2 ∧
        ∀ t ∈ l', t.ending = ending := by
      simp only [publishOnceFated]
      cases p.id with
      | none =>
        obtain ⟨l', hl', ht⟩ := h.publishFresh now p err ending
        exact ⟨l', hl', fun t hm => (ht t hm).2⟩
      | some id =>
        have hlook : FatedRun V st₀ (l ++ []) (st.bjmDedupLookup now p.subject id).2 :=
          h.step (.call .dedup) (bjmDedupLookup_dedupOnly st now p.subject id)
        rw [List.append_nil] at hlook
        dsimp only
        generalize st.bjmDedupLookup now p.subject id = r at hlook
        rcases r with ⟨e | found, st'⟩
        · exact ⟨[], by rwa [List.append_nil], fun t ht => absurd ht List.not_mem_nil⟩
        · cases found with
          | some index =>
            exact ⟨[], by rwa [List.append_nil], fun t ht => absurd ht List.not_mem_nil⟩
          | none =>
            obtain ⟨l', hl', ht⟩ := hlook.publishFresh now p err ending
            exact ⟨l', hl', fun t hm => (ht t hm).2⟩
    obtain ⟨l', hrun, hends⟩ := honce
    dsimp only
    generalize st.publishOnceFated now p err ending = r at hrun
    rcases r with ⟨a | ⟨index, duplicate⟩, st'⟩
    · exact ⟨l', hrun, hends⟩
    · -- the receipt, if one is asked for, is set last
      have hack : FatedRun V st₀ (l ++ l') (st'.publishAck req).2 := by
        simp only [publishAck]
        split
        · exact hrun
        split
        · split
          · exact hrun
          split
          · exact hrun
          · rename_i st'' hset
            have hstep : FatedRun V st₀ (l ++ l' ++ []) st'' :=
              hrun.step (.call (.cursorSet _ _ _)) hset
            rwa [List.append_nil] at hstep
        · exact hrun
      refine ⟨l', ?_, hends⟩
      dsimp only
      generalize st'.publishAck req = y at hack
      rcases y with ⟨a | acked, st''⟩ <;> exact hack

end FatedRun

def orderEntry : Entry := ⟨BJM_ENTRY_PLAIN, [0]⟩

def triedOrder (ending : Appending) : Store :=
  (Store.empty.bjmPublishFated 1 (ascii "orders") orderEntry .verify ending).2

def retriedOrder (ending : Appending) : Store :=
  ((triedOrder ending).bjmPublishFated 2 (ascii "orders") orderEntry .verify .done).2

def orderTries (ending : Appending) : List PublishTry :=
  [⟨ascii "orders", orderEntry, ending⟩, ⟨ascii "orders", orderEntry, .done⟩]

theorem retriedOrder_run (V : Vendor) (ending : Appending) :
    FatedRun V .empty (orderTries ending) (retriedOrder ending) := by
  have htries : ∀ (st : Store) (a : Appending), st.publishTries (ascii "orders") orderEntry a =
      [⟨ascii "orders", orderEntry, a⟩] := by
    intro st a
    have hget := subjectGet_create st (fileFits_of_valid (show
      bjmSubjectValid (ascii "orders") = true by decide +kernel))
    simp only [publishTries, hget]
  have hstart : FatedRun V .empty [] .empty := .start
  have hfirst := hstart.step (.publish 1 (ascii "orders") orderEntry .verify ending) rfl
  have hboth := hfirst.step (.publish 2 (ascii "orders") orderEntry .verify .done) rfl
  simp only [FatedCall.tries, htries, List.nil_append, List.cons_append] at hboth
  exact hboth

/-- The sync of an order fails. It is read before it is on the disk; the client, who has
been told of the failure, publishes it again under the same id, and it is there twice. -/
theorem unsynced_order_doubled :
    let failed := Store.empty.hPublishFated wholeBodies 1 (order none) .verify .unsynced
    failed.1 = .err 500 (ascii "publish failed\n") ∧
    failed.2.bjmRead .packing (ascii "orders") 1 65536 = .ok (1, 1) ∧
    (failed.2.hPublish wholeBodies 2 (order none)).1 =
      .published (ascii "orders") 2 none (some false) ∧
    ((failed.2.hPublish wholeBodies 2 (order none)).2.logOf (ascii "orders")).entries =
      [orderEntry, orderEntry] ∧
    FatedRun wholeBodies .empty (orderTries .unsynced) (retriedOrder .unsynced) ∧
    committed (orderTries .unsynced) (ascii "orders") = [orderEntry, orderEntry] ∧
    ¬ Traceless .empty (orderTries .unsynced) (retriedOrder .unsynced) := by
  refine ⟨?_, ?_, ?_, ?_, retriedOrder_run _ _, ?_, fun h => ?_⟩
  case refine_6 =>
    have hcount := h.counted (ascii "orders")
    revert hcount
    decide +kernel
  all_goals decide +kernel

/-- An order refused at its append is there once, when it is published again. -/
theorem refused_order_traceless_iff :
    Traceless .empty (orderTries .refused) (retriedOrder .refused) ↔
      ∀ t ∈ orderTries .refused, t.ending ≠ .unsynced :=
  failed_publish_traceless_iff (retriedOrder_run wholeBodies .refused)

end SukkalMsg
