import SukkalMsg.IdempotentPublish

/-!
# Publishes that are refused

A client that is answered 4xx takes its publish for undone, and sends a corrected
one. Every check of the handler stands in front of what it writes, except the one
of the two names an acknowledgement carries: there the message is in its log, and
its id in the index, before the request is refused.
-/

namespace SukkalMsg

open Std Names Binjson OrderedScan TwoGenerations Store

variable {V : Vendor}

def Answer.Refusal (a : Answer) : Prop := 400 ≤ a.status ∧ a.status < 500

instance : DecidablePred Answer.Refusal := fun a => by unfold Answer.Refusal; infer_instance

/-- Every log, every receipt and the dedup index, its trees and what it remembers, are the same. -/
structure Undone (now : ℕ) (st st' : Store) : Prop where
  logs : st'.logs = st.logs
  receipts : st'.cursors = st.cursors
  trees : ∀ gen, st'.dd gen = st.dd gen
  index : (st'.dedupOpen now).memoryOf = (st.dedupOpen now).memoryOf

/-- The request asks for an acknowledgement under two names, and one of them is invalid. -/
def Request.MisnamesAck (req : Request) : Prop :=
  req.queryU64 (ascii "ack_index") 0 ≠ 0 ∧
    ∃ s c, req.queryGet (ascii "ack_subject") (BJM_SUBJECT_MAX + 1) = .value s ∧
      req.queryGet (ascii "ack_consumer") (BJM_CONSUMER_MAX + 1) = .value c ∧
      (bjmSubjectValid s && bjmConsumerValid c) = false

def Unreadable (found : Option Record) : Prop := ∃ r e, found = some r ∧ decodeIndex r = .error e

/-- The index has the id where a lookup leaves it: in the current generation, which
is not due to be retired. The record that is found, wherever it is, may also be one
that cannot be read. -/
def Store.KnowsInPlace (st : Store) (now : ℕ) (s i : Bytes) : Prop :=
  let m := (st.dedupOpen now).memoryOf
  let elapsed := u64Sub now m.rotated
  if elapsed < st.bjmDedupWindow then
    m.cur (pairKey s i) ≠ none ∨ Unreadable (m.old (pairKey s i))
  else elapsed < u64 (2 * st.bjmDedupWindow) ∧ Unreadable (m.cur (pairKey s i))

theorem decodeIndex_error {r : Record} {e : BjErr} (h : decodeIndex r = .error e) :
    statusFor e = 500 := by
  by_cases hr : Readable r
  · rw [decodeIndex_eq r hr] at h
    cases hf : r.foldl grabInt none with
    | none =>
      simp only [hf] at h
      obtain rfl := Except.error.inj h
      rfl
    | some n => simp [hf] at h
  · rw [decodeIndex_unreadable hr] at h
    obtain rfl := Except.error.inj h
    rfl

namespace Undone

variable {now : ℕ} {st st' : Store}

theorem refl : Undone now st st := ⟨rfl, rfl, fun _ => rfl, rfl⟩

theorem dedupOpen : Undone now st (st.dedupOpen now) := by
  have hd : DedupOnly st (st.dedupOpen now) := .dedupOpen now
  have hrec : ∀ gen, ({ st with policyOpen := true } : Store).ddRecover.dd gen = st.dd gen := by
    intro gen
    simp only [ddRecover]
    split
    · rfl
    · split <;> rfl
  refine ⟨hd.logs_eq, hd.cursors_eq, fun gen => ?_, ?_⟩
  · simp only [Store.dedupOpen]
    split
    · rfl
    · split <;> exact hrec gen
  · rw [dedupOpen_of_open (dedupOpen_ddOpen st now)]

end Undone

theorem u64Sub_self (n : ℕ) : u64Sub n n = 0 := by
  have := u64_lt n
  simp only [u64Sub, u64] at this ⊢
  omega

theorem memoryOf_rotated (st : Store) (now : ℕ) :
    let m := st.memoryOf
    let elapsed := u64Sub now m.rotated
    (st.dedupRotate now).memoryOf =
      if elapsed < st.bjmDedupWindow then m
      else if elapsed < u64 (2 * st.bjmDedupWindow) then ⟨fun _ => none, m.cur, now⟩
      else ⟨fun _ => none, fun _ => none, now⟩ := by
  have hrot : st.memoryOf.rotated = st.ddRotatedMs := rfl
  simp only [dedupRotate, hrot]
  split
  · rfl
  · by_cases hclear : u64Sub now st.ddRotatedMs < u64 (2 * st.bjmDedupWindow)
    · simp only [ge_iff_le, Nat.not_le.mpr hclear, hclear, if_true, if_false]
      cases hg : st.ddGen <;> simp [memoryOf, ddStateSave, dd, setDd, hg]
    · simp only [ge_iff_le, Nat.le_of_not_lt hclear, hclear, if_true, if_false]
      rfl

section

variable {st st' : Store} {now n : ℕ} {req : Request} {p : Publication} {key : Bytes}

theorem ackRefusal_refusal : ackRefusal.Refusal := by decide

theorem bjmDedupLookup_ddOpen (st : Store) (now : ℕ) (s i : Bytes) :
    (st.bjmDedupLookup now s i).2.ddOpen = true := by
  simp only [bjmDedupLookup]
  split
  · simp
  · split
    · simp
    · split
      · simp
      · split <;> simp

theorem Request.MisnamesAck.refused (h : req.MisnamesAck) (st : Store) :
    st.publishAck req = (.error ackRefusal, st) := by
  obtain ⟨hn, s, c, hs, hc, hbad⟩ := h
  have hbad' : (!bjmSubjectValid s || !bjmConsumerValid c) = true := by
    rw [← Bool.not_and, hbad]
    rfl
  simp only [publishAck, hn, if_false, hs, hc, hbad', if_true]

theorem publishAck_status {a : Answer} (h : (st.publishAck req).1 = .error a)
    (hm : ¬ req.MisnamesAck) : a.status = 500 := by
  simp only [publishAck] at h
  split at h
  · contradiction
  rename_i hn
  split at h
  · rename_i s c hs hc
    by_cases hv : (bjmSubjectValid s && bjmConsumerValid c) = true
    · have hvs : bjmSubjectValid s = true ∧ bjmConsumerValid c = true := by simpa using hv
      simp only [hvs.1, hvs.2, Bool.not_true, Bool.or_self, Bool.false_eq_true, if_false,
        bjmCursorSet, bjmCursorGet, cursorKey_of_valid hvs.1 hvs.2] at h
      cases hget : st.cursors[pairKey s c]? with
      | none => simp [hget] at h
      | some r =>
        cases hd : decodeIndex r with
        | error e =>
          simp only [hget, hd, Except.map] at h
          obtain rfl := Except.error.inj h
          exact decodeIndex_error hd
        | ok m =>
          simp only [hget, hd, Except.map] at h
          split at h
          · rename_i heq
            split at heq <;> contradiction
          · contradiction
    · exact absurd ⟨hn, s, c, hs, hc, by simpa using hv⟩ hm
  · contradiction

theorem publishFresh_logs (hs : bjmSubjectValid p.subject = true) :
    (st.publishFresh now p).2.logs ≠ st.logs := by
  obtain ⟨st₁, hpub, -, hst⟩ := publishFresh_eq st now hs
  have hlogs : (st.publishFresh now p).2.logs = st₁.logs := by
    rw [hst]
    cases p.id with
    | none => rfl
    | some id => exact (bjmDedupRecord_dedupOnly ..).logs_eq
  intro heq
  have hget : (st.logOf p.subject).append p.entry = st.logOf p.subject := by
    have : st₁.logOf p.subject = _ := logOf_insert (bjmPublish_eq hpub).2.1
    simp only [if_true] at this
    rw [← this]
    simp only [logOf, ← hlogs, heq]
  simpa [Elog.append] using congrArg (·.entries.length) hget

theorem index_changed {r : Record}
    (hcur : ((st.dedupOpen now).dedupRotate now).memoryOf.cur key = none) :
    ((((st.dedupOpen now).dedupRotate now).memoryOf.remember key r) ≠
      (st.dedupOpen now).memoryOf) := by
  intro heq
  rw [memoryOf_rotated] at heq hcur
  have hw := window_pos (st.dedupOpen now)
  split at heq
  · rename_i hel
    rw [if_pos hel] at hcur
    have := congrFun (congrArg Memory.cur heq) key
    simp [Memory.remember, hcur] at this
  · rename_i hel
    have hrot : (st.dedupOpen now).memoryOf.rotated = now := by
      rw [← heq]
      split <;> rfl
    rw [hrot, u64Sub_self] at hel
    exact hel hw

variable (st now) in
/-- What a lookup answers, by whether the index knows the id in place. -/
theorem lookup_cases {s i : Bytes} (hkey : dedupKey s i = some (pairKey s i)) :
    (∃ e r, (st.bjmDedupLookup now s i).1 = .error e ∧ decodeIndex r = .error e ∧
      st.KnowsInPlace now s i) ∨
    (∃ n, st.bjmDedupLookup now s i = (.ok (some n), st.dedupOpen now) ∧
      st.KnowsInPlace now s i) ∨
    ((st.bjmDedupLookup now s i).1 = .ok none ∧ ¬ st.KnowsInPlace now s i) ∨
    (∃ n r, (st.bjmDedupLookup now s i).1 = .ok (some n) ∧
      (st.bjmDedupLookup now s i).2.memoryOf =
        ((st.dedupOpen now).dedupRotate now).memoryOf.remember (pairKey s i) r ∧
      ((st.dedupOpen now).dedupRotate now).memoryOf.cur (pairKey s i) = none ∧
      ¬ st.KnowsInPlace now s i) := by
  have hw : (st.dedupOpen now).bjmDedupWindow = st.bjmDedupWindow :=
    (DedupOnly.dedupOpen now).window_eq
  have hrot := memoryOf_rotated (st.dedupOpen now) now
  have hstay : u64Sub now (st.dedupOpen now).memoryOf.rotated < st.bjmDedupWindow →
      (st.dedupOpen now).dedupRotate now = st.dedupOpen now := fun hel => by
    simp only [dedupRotate, hw]
    exact if_pos hel
  simp only [hw] at hrot
  rcases bjmDedupLookup_cases st now hkey with ⟨e, r, h, hfound, hd⟩ | ⟨h, hc, ho⟩ |
    ⟨r, n, h, hc, hd⟩ | ⟨r, n, h, hc, ho, hd⟩
  · refine .inl ⟨e, r, by rw [h], hd, ?_⟩
    simp only [KnowsInPlace]
    rw [hrot] at hfound
    split at hfound
    · rw [if_pos ‹_›]
      rcases hfound with hc | ho
      · exact .inl (by simp [hc])
      · exact .inr ⟨r, e, ho, hd⟩
    · rw [if_neg ‹_›]
      split at hfound
      · refine ⟨‹_›, r, e, ?_, hd⟩
        simpa using hfound
      · simp at hfound
  · refine .inr (.inr (.inl ⟨by rw [h], fun hk => ?_⟩))
    simp only [KnowsInPlace] at hk
    rw [hrot] at hc ho
    split at hk
    · rename_i hel
      rw [if_pos hel] at hc ho
      rcases hk with hk | ⟨r, e, hr, -⟩
      · exact hk hc
      · simp [ho] at hr
    · rename_i hel
      obtain ⟨hel', r, e, hr, -⟩ := hk
      rw [if_neg hel, if_pos hel'] at ho
      simp [hr] at ho
  · have hel : u64Sub now (st.dedupOpen now).memoryOf.rotated < st.bjmDedupWindow := by
      by_contra hel
      rw [hrot, if_neg hel] at hc
      split at hc <;> simp at hc
    rw [hstay hel] at h hc
    refine .inr (.inl ⟨n, h, ?_⟩)
    simp only [KnowsInPlace, if_pos hel]
    exact .inl (by simp [hc])
  · refine .inr (.inr (.inr ⟨n, indexRecord n, by rw [h], ?_, hc, fun hk => ?_⟩))
    · rw [h]
      exact memoryOf_ddRemember _ _ _
    · simp only [KnowsInPlace] at hk
      rw [hrot] at hc ho
      split at hk
      · rename_i hel
        rw [if_pos hel] at hc ho
        rcases hk with hk | ⟨r', e, hr, hd'⟩
        · exact hk hc
        · simp only [ho, Option.some.injEq] at hr
          simp [← hr, hd] at hd'
      · rename_i hel
        obtain ⟨hel', r', e, hr, hd'⟩ := hk
        rw [if_neg hel, if_pos hel'] at ho
        simp only [hr, Option.some.injEq] at ho
        simp [ho, hd] at hd'

/-- A publish that passes its checks and names its acknowledgement properly is not refused. -/
theorem not_refusal_of_named {V : Vendor} (hp : publication V req = .ok p)
    (hm : ¬ req.MisnamesAck) : ¬ (st.hPublish V now req).1.Refusal := by
  obtain ⟨hs, hi⟩ := publication_valid hp
  have hanswered : (∀ a, (st.publishOnce now p).1 = .error a → a.status = 500) →
      ¬ (st.hPublish V now req).1.Refusal := by
    intro herr hr
    cases ho : st.publishOnce now p with
    | mk r st₁ =>
      cases r with
      | error a =>
        simp only [hPublish, hp, ho, Answer.Refusal] at hr
        have := herr a (by rw [ho])
        omega
      | ok x =>
        cases hack : st₁.publishAck req with
        | mk b st₂ =>
          cases b with
          | error a =>
            simp only [hPublish, hp, ho, hack, Answer.Refusal] at hr
            have hstatus : (st₁.publishAck req).1 = .error a := by rw [hack]
            have := publishAck_status hstatus hm
            omega
          | ok acked =>
            simp [hPublish, hp, ho, hack, Answer.Refusal, Answer.status] at hr
  have hfresh : ∀ st₁ : Store, ∀ a, (st₁.publishFresh now p).1 = .error a → a.status = 500 :=
    fun st₁ a h => by
      obtain ⟨-, -, hanswer, -⟩ := publishFresh_eq st₁ now hs
      simp [hanswer] at h
  refine hanswered fun a h => ?_
  simp only [publishOnce] at h
  split at h
  · exact hfresh st a h
  · rename_i i hid
    split at h
    · rename_i e st₁ hl
      obtain rfl := Except.error.inj h
      rcases lookup_cases st now (dedupKey_of_valid hs (hi i hid)) with
        ⟨e', r, h', hd, -⟩ | ⟨n, h', -⟩ | ⟨h', -⟩ | ⟨_, _, h', -⟩ <;>
        simp only [hl, Prod.mk.injEq, Except.error.injEq, reduceCtorEq, false_and] at h'
      subst h'
      exact decodeIndex_error hd
    · contradiction
    · exact hfresh _ a h

/-- A publish is refused and undone, unless it misnames its acknowledgement and its id is
not one the index knows in place. -/
theorem refused_publish_undone_iff (V : Vendor) (st : Store) (now : ℕ) (req : Request) :
    ((st.hPublish V now req).1.Refusal → Undone now st (st.hPublish V now req).2) ↔
      ∀ p, publication V req = .ok p → req.MisnamesAck →
        ∃ i, p.id = some i ∧ st.KnowsInPlace now p.subject i := by
  constructor
  · intro hundone p hp hm
    obtain ⟨hs, hi⟩ := publication_valid hp
    have hfresh : ∀ st₁ : Store, st₁.logs = st.logs →
        st.publishOnce now p = st₁.publishFresh now p → False := fun st₁ hlogs heq => by
      obtain ⟨-, -, hanswer, -⟩ := publishFresh_eq st₁ now hs
      cases hf : st₁.publishFresh now p with
      | mk r st₂ =>
        rw [hf] at heq hanswer
        simp only at hanswer
        subst hanswer
        have hpub : st.hPublish V now req = (ackRefusal, st₂) := by
          simp only [hPublish, hp, heq, hm.refused]
        rw [hpub] at hundone
        have hlogs' := (hundone ackRefusal_refusal).logs
        have hne : (st₁.publishFresh now p).2.logs ≠ st₁.logs := publishFresh_logs hs
        rw [hf] at hne
        exact hne (hlogs'.trans hlogs.symm)
    cases hid : p.id with
    | none => exact (hfresh st rfl (by simp only [publishOnce, hid])).elim
    | some i =>
      refine ⟨i, rfl, ?_⟩
      have hlogs : (st.bjmDedupLookup now p.subject i).2.logs = st.logs :=
        (bjmDedupLookup_dedupOnly ..).logs_eq
      rcases lookup_cases st now (dedupKey_of_valid hs (hi i hid)) with
        ⟨_, _, -, -, hk⟩ | ⟨_, -, hk⟩ | ⟨h, -⟩ | ⟨n, r, h, hmem, hc, -⟩
      · exact hk
      · exact hk
      · cases hl : st.bjmDedupLookup now p.subject i with
        | mk a st₁ =>
          rw [hl] at h hlogs
          simp only at h
          subst h
          exact (hfresh st₁ hlogs (by simp only [publishOnce, hid, hl])).elim
      · cases hl : st.bjmDedupLookup now p.subject i with
        | mk a st₁ =>
          have hopen : st₁.dedupOpen now = st₁ :=
            dedupOpen_of_open (by simpa [hl] using bjmDedupLookup_ddOpen st now p.subject i) now
          rw [hl] at h hmem
          simp only at h hmem
          subst h
          have hpub : st.hPublish V now req = (ackRefusal, st₁) := by
            simp only [hPublish, hp, publishOnce, hid, hl, hm.refused]
          rw [hpub] at hundone
          have hindex := (hundone ackRefusal_refusal).index
          rw [hopen, hmem] at hindex
          exact (index_changed hc hindex).elim
  · intro hknown hrefused
    cases hp : publication V req with
    | error a =>
      simp only [hPublish, hp]
      exact .refl
    | ok p =>
      obtain ⟨hs, hi⟩ := publication_valid hp
      by_cases hm : req.MisnamesAck
      · obtain ⟨i, hid, hk⟩ := hknown p hp hm
        rcases lookup_cases st now (dedupKey_of_valid hs (hi i hid)) with
          ⟨e, r, h, hd, -⟩ | ⟨n, h, -⟩ | ⟨-, hk'⟩ | ⟨_, _, -, -, -, hk'⟩
        · cases hl : st.bjmDedupLookup now p.subject i with
          | mk a st₁ =>
            rw [hl] at h
            simp only at h
            subst h
            simp only [hPublish, hp, publishOnce, hid, hl, Answer.Refusal, Answer.status,
              decodeIndex_error hd] at hrefused
            omega
        · simp only [hPublish, hp, publishOnce, hid, h, hm.refused]
          exact .dedupOpen
        · exact absurd hk hk'
        · exact absurd hk hk'
      · exact absurd hrefused (not_refusal_of_named hp hm)

end

/-- An order that acknowledges a subject no log can have is answered 400, and is in its log. -/
theorem refused_order_is_kept :
    (Store.empty.hPublish wholeBodies 1 (order (some (ascii ".")))).1.status = 400 ∧
      ((Store.empty.hPublish wholeBodies 1 (order (some (ascii ".")))).2.logOf
        (ascii "orders")).entries = [⟨BJM_ENTRY_PLAIN, [0]⟩] ∧
      ¬ Undone 1 Store.empty (Store.empty.hPublish wholeBodies 1 (order (some (ascii ".")))).2 := by
  have hlog : ((Store.empty.hPublish wholeBodies 1 (order (some (ascii ".")))).2.logOf
      (ascii "orders")).entries = [⟨BJM_ENTRY_PLAIN, [0]⟩] := by decide +kernel
  refine ⟨by decide +kernel, hlog, fun h => ?_⟩
  have hempty : (Store.empty.logOf (ascii "orders")).entries = [] := by decide +kernel
  simp only [logOf, h.logs] at hlog hempty
  simp [hempty] at hlog

end SukkalMsg
