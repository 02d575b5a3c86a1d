import SukkalMsg.Legibility
import SukkalMsg.PublishRefusals
import SukkalMsg.WireGrammar

/-!
# What an accepted body decodes to

A body is accepted when the size its first bytes announce is the size it has, and a
subscriber decodes it with its contents. The broker's logs stay decodable under exactly
those requests whose framed body is a word of the grammar to its innermost value.
-/

namespace SukkalMsg

open Names Binjson Store

variable {D : Type} {P : PyBinjson.PyRuntime D} {V : Vendor} {st : Store} {req : Request}

/-- `bj_value_size` is the rule the Python package ports. -/
def SizedByRule (V : Vendor) : Prop :=
  ∀ body, V.valueSize body = (PyBinjson.valueSize body 0).toOption

def Store.Decodable (P : PyBinjson.PyRuntime D) (st : Store) : Prop :=
  ∀ s, ∀ e ∈ (st.logOf s).entries, ∃ w, PyBinjson.decode P e.payload = .ok w

/-- The requests that pass every check carry bodies whose contents are values too. -/
def Request.CarriesValue (P : PyBinjson.PyRuntime D) (V : Vendor) (req : Request) : Prop :=
  ∀ p, publication V req = .ok p → ¬ req.MisnamesAck → PyBinjson.WellFormed P p.entry.payload

theorem decodable_append {st' : Store} {s : Bytes} {e : Entry} (h : st.Decodable P)
    (hlogs : st'.logs = st.logs.insert s ((st.logOf s).append e))
    (he : ∃ w, PyBinjson.decode P e.payload = .ok w) : st'.Decodable P := by
  intro s' e' he'
  rw [logOf_insert hlogs] at he'
  split at he'
  · rename_i heq
    rcases List.mem_append.mp he' with hold | hnew
    · exact h s e' hold
    · obtain rfl := List.mem_singleton.mp hnew
      exact he
  · exact h s' e' he'

theorem decodable_congr {st' : Store} (h : st.Decodable P) (hlogs : st'.logs = st.logs) :
    st'.Decodable P := by
  intro s e he
  simp only [logOf, hlogs] at he
  exact h s e he

theorem publishAck_of_no_receipts (hc : st.cursors = ∅) (hm : ¬ req.MisnamesAck) :
    ∃ acked, (st.publishAck req).1 = .ok acked := by
  simp only [publishAck]
  split
  · exact ⟨_, rfl⟩
  rename_i hn
  split
  · rename_i s c hs hcons
    by_cases hv : (bjmSubjectValid s && bjmConsumerValid c) = true
    · have hvs : bjmSubjectValid s = true ∧ bjmConsumerValid c = true := by simpa using hv
      simp [hvs.1, hvs.2, bjmCursorSet, bjmCursorGet, cursorKey_of_valid hvs.1 hvs.2, hc]
    · exact absurd ⟨hn, s, c, hs, hcons, by simpa using hv⟩ hm
  · exact ⟨_, rfl⟩

theorem publishOnce_empty (now : ℕ) {p : Publication} (hs : bjmSubjectValid p.subject = true)
    (hi : ∀ i, p.id = some i → bjmDedupIdValid i = true) :
    ∃ st₁ : Store, st₁.logs = ∅ ∧ st₁.cursors = ∅ ∧
      Store.empty.publishOnce now p = st₁.publishFresh now p := by
  cases hid : p.id with
  | none => exact ⟨Store.empty, rfl, rfl, by simp only [publishOnce, hid]⟩
  | some i =>
    have hkey := dedupKey_of_valid hs (hi i hid)
    have hd := bjmDedupLookup_dedupOnly Store.empty now p.subject i
    have hmem : ∀ k, (Store.empty.dedupOpen now).memoryOf.cur k = none ∧
        (Store.empty.dedupOpen now).memoryOf.old k = none := fun k => by
      have htrees : ∀ gen, (Store.empty.dedupOpen now).dd gen = ∅ := fun gen =>
        (Undone.dedupOpen.trees gen).trans (by cases gen <;> rfl)
      simp [memoryOf, htrees]
    have hrot : ∀ k, ((Store.empty.dedupOpen now).dedupRotate now).memoryOf.cur k = none ∧
        ((Store.empty.dedupOpen now).dedupRotate now).memoryOf.old k = none := fun k => by
      rw [memoryOf_rotated]
      split
      · exact hmem k
      · split
        · exact ⟨rfl, (hmem k).1⟩
        · exact ⟨rfl, rfl⟩
    rcases bjmDedupLookup_cases Store.empty now hkey with ⟨e, r, -, hfound, -⟩ | ⟨h, -⟩ |
      ⟨r, n, -, hcur, -⟩ | ⟨r, n, -, -, hold, -⟩
    · simp [hrot] at hfound
    · rw [h] at hd
      exact ⟨_, hd.logs_eq, hd.cursors_eq, by simp only [publishOnce, hid, h]⟩
    · simp [hrot] at hcur
    · simp [hrot] at hold

theorem hPublish_empty (now : ℕ) {p : Publication} (hp : publication V req = .ok p)
    (hm : ¬ req.MisnamesAck) :
    (Store.empty.hPublish V now req).1.status = 200 ∧
      ((Store.empty.hPublish V now req).2.logOf p.subject).entries = [p.entry] := by
  obtain ⟨hs, hi⟩ := publication_valid hp
  obtain ⟨st₁, hlogs, hcursors, honce⟩ := publishOnce_empty now hs hi
  obtain ⟨-, -, hanswer, -⟩ := publishFresh_eq st₁ now hs
  have hfresh := publishFresh_appends st₁ now hs
  cases hf : st₁.publishFresh now p with
  | mk r st₂ =>
    rw [hf] at hanswer hfresh honce
    simp only at hanswer hfresh
    subst hanswer
    have hc : st₂.cursors = ∅ := by
      have hkept := publishOnce_cursors Store.empty now p
      rw [honce] at hkept
      exact hkept
    obtain ⟨hstore, hans⟩ := hPublish_of_once hp honce
    obtain ⟨acked, hacked⟩ := publishAck_of_no_receipts hc hm
    rw [hacked] at hans
    refine ⟨by rw [hans]; rfl, ?_⟩
    have hlogs' := congrArg (·.logs) hstore
    simp only at hlogs'
    rw [hfresh] at hlogs'
    have hnone : (st₁.logOf p.subject).entries = [] := by simp [logOf, hlogs]
    rw [logOf_insert hlogs', if_pos rfl]
    simp [Elog.append, hnone]

theorem statusFor_ne_ok (e : BjErr) : statusFor e ≠ 200 := by cases e <;> decide

theorem status_of_misnamed {now : ℕ} {p : Publication} (hp : publication V req = .ok p)
    (hm : req.MisnamesAck) : (st.hPublish V now req).1.status ≠ 200 := by
  have herr : ∀ a, (st.publishOnce now p).1 = .error a → a.status ≠ 200 := fun a h => by
    have hfresh : ∀ st₁ : Store, (st₁.publishFresh now p).1 = .error a → a.status ≠ 200 :=
      fun st₁ h => by
        obtain ⟨-, -, hanswer, -⟩ := publishFresh_eq st₁ now (publication_valid hp).1
        simp [hanswer] at h
    simp only [publishOnce] at h
    split at h
    · exact hfresh st h
    · split at h
      · obtain rfl := Except.error.inj h
        exact statusFor_ne_ok _
      · contradiction
      · exact hfresh _ h
  cases ho : st.publishOnce now p with
  | mk r st₁ =>
    cases r with
    | error a =>
      simp only [hPublish, hp, ho]
      exact herr a (by rw [ho])
    | ok x =>
      simp only [hPublish, hp, ho, hm.refused]
      decide

/-- Every log stays decodable over a successful publish, from any state, exactly when what the
request carries past the checks is a value with all its contents. -/
theorem accepted_decodes_iff (P : PyBinjson.PyRuntime D) (V : Vendor) (req : Request) :
    (∀ (st : Store) (now : ℕ), st.Decodable P → (st.hPublish V now req).1.status = 200 →
      (st.hPublish V now req).2.Decodable P) ↔ req.CarriesValue P V := by
  constructor
  · intro hall p hp hm
    have hempty : Store.empty.Decodable P := by
      intro s e he
      simp [logOf, Store.empty] at he
    obtain ⟨hstatus, hlog⟩ := hPublish_empty 1 hp hm
    have hdec := hall Store.empty 1 hempty hstatus p.subject p.entry (by rw [hlog]; simp)
    exact PyBinjson.decode_isOk_iff.mp hdec
  · intro hreq st now hst hstatus
    rcases hPublish_logs V st now req with hlogs | ⟨p, hp, hlogs⟩
    · exact decodable_congr hst hlogs
    · by_cases hm : req.MisnamesAck
      · exact absurd hstatus (status_of_misnamed hp hm)
      · exact decodable_append hst hlogs (PyBinjson.decode_isOk_iff.mpr (hreq p hp hm))

def sizedVendor : Vendor :=
  { Vendor.silent with valueSize := fun body => (PyBinjson.valueSize body 0).toOption }

/-- An array of the announced size whose one element is no value. -/
def hollowArray : Bytes := [0x10, 5, 0, 0, 0, 1, 0, 0, 0, 0xff]

def hollowPublish : Request where
  path := ascii "/pub/orders"
  contentType := some SUKKAL_MEDIA_TYPE
  body := some hollowArray
  query := fun _ => none

/-- It is published, and no subscriber decodes it. -/
theorem hollowArray_accepted :
    SizedByRule sizedVendor ∧
      (Store.empty.hPublish sizedVendor 1 hollowPublish).1.status = 200 ∧
      ((Store.empty.hPublish sizedVendor 1 hollowPublish).2.logOf (ascii "orders")).entries =
        [⟨BJM_ENTRY_PLAIN, hollowArray⟩] ∧
      PyBinjson.decode PyBinjson.plainRuntime hollowArray =
        .error (.binjson "unknown type byte: 0xff") :=
  ⟨fun _ => rfl, by decide +kernel, by decide +kernel, by rfl⟩

end SukkalMsg
