import SukkalMsg.PublishRefusals
import SukkalMsg.RepeatedCalls

/-!
# Publishes sent twice

A publish under an id that is sent again is answered from the index, as long as the index
still has the id when the second one arrives. An id is kept in the generation it was put
into until that has been retired. Without an id, or with one the index has let go of, the
message is appended again.
-/

namespace SukkalMsg

open Std Names Binjson OrderedScan TwoGenerations

namespace Store

variable {V : Vendor} {st st' : Store} {now now' : ℕ} {req : Request} {p : Publication}
  {s i key : Bytes}

/-- The rotation the next lookup makes leaves the index what it has under the key. -/
def StillKnows (st : Store) (now : ℕ) (key : Bytes) : Prop :=
  let gap := u64Sub now st.memoryOf.rotated
  gap < st.bjmDedupWindow ∨ gap < u64 (2 * st.bjmDedupWindow) ∧ st.memoryOf.cur key ≠ none

theorem lookup_fst (st : Store) (now : ℕ) (hkey : dedupKey s i = some key) :
    (st.bjmDedupLookup now s i).1 =
      match ((st.dedupOpen now).dedupRotate now).memoryOf.find key with
      | none => .ok none
      | some r => (decodeIndex r).map some := by
  simp only [bjmDedupLookup, hkey, Memory.find, memoryOf]
  generalize (st.dedupOpen now).dedupRotate now = m
  cases (m.dd m.ddGen)[key]? with
  | some r => rfl
  | none =>
    cases (m.dd (!m.ddGen))[key]? with
    | none => rfl
    | some r => cases hd : decodeIndex r <;> simp [hd, Except.map]

theorem find_rotated (st : Store) (now : ℕ) (key : Bytes) :
    (st.StillKnows now key ∧ (st.dedupRotate now).memoryOf.find key = st.memoryOf.find key) ∨
      (¬ st.StillKnows now key ∧ (st.dedupRotate now).memoryOf.find key = none) := by
  have hrot := memoryOf_rotated st now
  dsimp only at hrot
  simp only [StillKnows]
  split at hrot
  · rename_i hyoung
    exact .inl ⟨.inl hyoung, by rw [hrot]⟩
  rename_i hold
  split at hrot
  · rename_i hone
    rw [hrot]
    cases hcur : st.memoryOf.cur key with
    | none => exact .inr ⟨by simp [hold], by simp [Memory.find, hcur]⟩
    | some r => exact .inl ⟨.inr ⟨hone, by simp⟩, by simp [Memory.find, hcur]⟩
  · rename_i hboth
    rw [hrot]
    exact .inr ⟨by simp [hold, hboth], rfl⟩

theorem lookup_again (hopen : st.ddOpen = true) (hkey : dedupKey s i = some key) {r : Record}
    (hr : st.memoryOf.find key = some r) :
    (st.StillKnows now key ∧ (st.bjmDedupLookup now s i).1 = (decodeIndex r).map some) ∨
      (¬ st.StillKnows now key ∧ (st.bjmDedupLookup now s i).1 = .ok none) := by
  rw [lookup_fst st now hkey, dedupOpen_of_open hopen]
  rcases find_rotated st now key with ⟨hk, hf⟩ | ⟨hk, hf⟩
  · exact .inl ⟨hk, by rw [hf, hr]⟩
  · exact .inr ⟨hk, by rw [hf]⟩

/-- What a first publish under an id leaves in the index: the record it answers from, or
could not read. -/
structure Remembered (st : Store) (key : Bytes) (a : Except Answer (ℕ × Bool)) : Prop where
  opened : st.ddOpen = true
  found : ∃ r, st.memoryOf.find key = some r ∧
    (∀ e, a = .error e → ∃ err, decodeIndex r = .error err)

theorem remembered_of_once (hs : bjmSubjectValid p.subject = true) (hid : p.id = some i)
    (hkey : dedupKey p.subject i = some key) :
    Remembered (st.publishOnce now p).2 key (st.publishOnce now p).1 := by
  have hopen : ((st.dedupOpen now).dedupRotate now).ddOpen = true := by simp
  have hput : ∀ {st₁ : Store} {n : ℕ} {a : Except Answer (ℕ × Bool)}, st₁.ddOpen = true →
      (∀ e, a ≠ .error e) → Remembered (st₁.ddRemember key n) key a := by
    intro st₁ n a ho ha
    refine ⟨by simp [ho], indexRecord n, ?_, fun e he => absurd he (ha e)⟩
    simp [memoryOf_ddRemember, Memory.find, Memory.remember_cur]
  rcases bjmDedupLookup_cases st now hkey with ⟨e, r, h, -⟩ | ⟨h, -⟩ | ⟨r, n, h, hc, -⟩ |
    ⟨r, n, h, -⟩
  · simp only [publishOnce, hid, h]
    have hfst := lookup_fst st now hkey
    rw [h] at hfst
    cases hf : ((st.dedupOpen now).dedupRotate now).memoryOf.find key with
    | none => simp [hf] at hfst
    | some r =>
      rw [hf] at hfst
      refine ⟨hopen, r, hf, fun _ _ => ⟨e, ?_⟩⟩
      cases hd : decodeIndex r <;> simp_all [Except.map]
  · simp only [publishOnce, hid, h]
    obtain ⟨st₁, hpub, hres, hst⟩ :=
      publishFresh_eq ((st.dedupOpen now).dedupRotate now) now hs
    have hm := (PublishedTo.of_publish hpub).marks
    have ho : st₁.ddOpen = true := by rw [hm.same]; exact hopen
    rw [hid] at hst
    simp only [bjmDedupRecord, hkey, dedupOpen_of_open ho] at hst
    rw [hres, hst]
    exact hput ho (by simp)
  · simp only [publishOnce, hid, h]
    exact ⟨hopen, r, by simp [Memory.find, hc], by simp⟩
  · simp only [publishOnce, hid, h]
    exact hput hopen (by simp)

theorem bjmCursorSet_cursors (h : st'.cursors = st.cursors) (s c : Bytes) (n : ℕ) :
    (st'.bjmCursorSet s c n).map Store.cursors = (st.bjmCursorSet s c n).map Store.cursors := by
  have hget : st'.bjmCursorGet s c = st.bjmCursorGet s c := by simp only [bjmCursorGet, h]
  simp only [bjmCursorSet, hget]
  cases st.bjmCursorGet s c with
  | error e => rfl
  | ok current =>
    dsimp only
    split
    · simp only [Except.map, h]
    · cases cursorKey s c with
      | none => rfl
      | some key => simp only [Except.map, h]

/-- An acknowledgement that is sent again moves nothing. -/
theorem publishAck_again (h : st'.cursors = (st.publishAck req).2.cursors) :
    (st'.publishAck req).2.cursors = st'.cursors := by
  simp only [publishAck] at h ⊢
  split
  · rfl
  rename_i hn
  rw [if_neg hn] at h
  split
  · rename_i s c hs hc
    simp only [hs, hc] at h
    split
    · rfl
    rename_i hv
    rw [if_neg hv] at h
    have hcongr := fun (st₁ : Store) (h₁ : st'.cursors = st₁.cursors) =>
      bjmCursorSet_cursors h₁ s c (req.queryU64 (ascii "ack_index") 0)
    cases h₂ : st'.bjmCursorSet s c (req.queryU64 (ascii "ack_index") 0) with
    | error e => rfl
    | ok st₂ =>
      cases h₁ : st.bjmCursorSet s c (req.queryU64 (ascii "ack_index") 0) with
      | error e =>
        rw [h₁] at h
        have heq := hcongr st h
        rw [h₁, h₂] at heq
        simp [Except.map] at heq
      | ok st₁ =>
        rw [h₁] at h
        have heq := hcongr st₁ h
        cases h₃ : st₁.bjmCursorSet s c (req.queryU64 (ascii "ack_index") 0) with
        | error e => simp [h₂, h₃, Except.map] at heq
        | ok st₃ =>
          obtain rfl := bjmCursorSet_again h₁ h₃
          simp only [h₂, h₃, Except.map, Except.ok.injEq] at heq
          exact heq.trans h.symm
  · rfl

theorem hPublish_store (hp : publication V req = .ok p) :
    (st.hPublish V now req).2 = match st.publishOnce now p with
      | (.error _, st₁) => st₁
      | (.ok _, st₁) => (st₁.publishAck req).2 := by
  simp only [hPublish, hp]
  cases st.publishOnce now p with
  | mk a st₁ =>
    cases a with
    | error a => rfl
    | ok a =>
      dsimp only
      cases st₁.publishAck req with
      | mk b st₂ => cases b <;> rfl

theorem hPublish_but_cursors (hp : publication V req = .ok p) :
    (st.hPublish V now req).2 =
      { (st.publishOnce now p).2 with cursors := (st.hPublish V now req).2.cursors } := by
  rw [hPublish_store hp]
  cases st.publishOnce now p with
  | mk a st₁ =>
    cases a with
    | error a => rfl
    | ok a => exact publishAck_same st₁ req

theorem not_sameFiles_of_fresh (hp : publication V req = .ok p)
    (hfresh : ∃ st₁ : Store, st₁.logs = st.logs ∧ st.publishOnce now p = st₁.publishFresh now p) :
    ¬ SameFiles st (st.hPublish V now req).2 := by
  intro hsame
  obtain ⟨st₁, hlogs, honce⟩ := hfresh
  have h := hsame.logs
  rw [hPublish_but_cursors hp, honce, ← hlogs] at h
  exact publishFresh_logs (publication_valid hp).1 h

/-- A publish sent twice appends once exactly when it is refused, or has an id the index
still has when it comes again. -/
theorem hPublish_again_iff (V : Vendor) (st : Store) (now now' : ℕ) (req : Request) :
    SameFiles (st.hPublish V now req).2 ((st.hPublish V now req).2.hPublish V now' req).2 ↔
      ∀ p, publication V req = .ok p → ∃ i, p.id = some i ∧
        ∀ key, dedupKey p.subject i = some key →
          (st.hPublish V now req).2.StillKnows now' key := by
  cases hp : publication V req with
  | error a =>
    have hsame : ∀ (st : Store) (now : ℕ), (st.hPublish V now req).2 = st := fun st now => by
      simp only [hPublish, hp]
    simp only [hsame, reduceCtorEq, false_imp_iff, implies_true, iff_true]
    exact .refl
  | ok p =>
    obtain ⟨hs, hi⟩ := publication_valid hp
    simp only [Except.ok.injEq, forall_eq']
    cases hid : p.id with
    | none =>
      simp only [reduceCtorEq, false_and, exists_false, iff_false]
      refine not_sameFiles_of_fresh hp ⟨_, rfl, ?_⟩
      simp only [publishOnce, hid]
    | some i =>
      have hkey := dedupKey_of_valid hs (hi i hid)
      simp only [Option.some.injEq, hkey, exists_eq_left', forall_eq']
      have hrem : Remembered (st.publishOnce now p).2 (pairKey p.subject i)
          (st.publishOnce now p).1 :=
        remembered_of_once hs hid hkey
      have hbut : (st.hPublish V now req).2 = { (st.publishOnce now p).2 with
          cursors := (st.hPublish V now req).2.cursors } :=
        hPublish_but_cursors hp
      have hstore : (st.hPublish V now req).2 = match st.publishOnce now p with
          | (.error _, st₁) => st₁
          | (.ok _, st₁) => (st₁.publishAck req).2 :=
        hPublish_store hp
      generalize (st.hPublish V now req).2 = once at hbut hstore ⊢
      obtain ⟨r, hr, hread⟩ := hrem.found
      have hr' : once.memoryOf.find (pairKey p.subject i) = some r := by
        rw [hbut]
        exact hr
      have hopen : once.ddOpen = true := by
        rw [hbut]
        exact hrem.opened
      have hdd := bjmDedupLookup_dedupOnly once now' p.subject i
      have hagain : (once.StillKnows now' (pairKey p.subject i) ∧
            (once.bjmDedupLookup now' p.subject i).1 = (decodeIndex r).map some) ∨
          (¬ once.StillKnows now' (pairKey p.subject i) ∧
            (once.bjmDedupLookup now' p.subject i).1 = .ok none) :=
        lookup_again hopen hkey hr'
      rcases hagain with ⟨hk, hl⟩ | ⟨hk, hl⟩
      · refine ⟨fun _ => hk, fun _ => ?_⟩
        rw [hPublish_store hp]
        cases hlook : once.bjmDedupLookup now' p.subject i with
        | mk a st₂ =>
          rw [hlook] at hl hdd
          cases hd : decodeIndex r with
          | error e =>
            simp only [hd, Except.map] at hl
            subst hl
            simp only [publishOnce, hid, hlook]
            exact hdd.sameFiles
          | ok n =>
            simp only [hd, Except.map] at hl
            subst hl
            simp only [publishOnce, hid, hlook]
            -- the first one was answered, so it has moved the receipt
            have hacked : once = ((st.publishOnce now p).2.publishAck req).2 := by
              cases ho : st.publishOnce now p with
              | mk b st₁ =>
                rw [ho] at hstore hread
                cases b with
                | error b =>
                  obtain ⟨err, herr⟩ := hread b rfl
                  simp [hd] at herr
                | ok b => exact hstore
            have hcursors : (st₂.publishAck req).2.cursors = st₂.cursors :=
              publishAck_again (hdd.cursors_eq.trans (congrArg Store.cursors hacked))
            rw [publishAck_same, hcursors]
            exact hdd.sameFiles
      · refine iff_of_false (not_sameFiles_of_fresh hp ⟨_, hdd.logs_eq, ?_⟩) hk
        cases hlook : once.bjmDedupLookup now' p.subject i with
        | mk a st₂ =>
          rw [hlook] at hl
          simp only at hl
          subst hl
          simp only [publishOnce, hid, hlook]

end Store

end SukkalMsg
