import SukkalMsg.AcceptedBodies

/-!
# The transport of the Python package

`request` tries until the broker can be reached, and `_once`, which it tries with,
sends again by itself when a kept-alive connection turns out to be broken. What an
attempt met is all either loop looks at: an exception that proves the request never
arrived, another one, or an answer.
-/

namespace SukkalMsg.PyTransport

open Names PyBinjson

inductive Exc where
  | connectionRefused
  | gaierror
  /-- `OSError`: a timeout, a reset, a broken pipe. -/
  | os
  /-- `HTTPException`: a connection closed in place of an answer, a malformed one. -/
  | http
  | other
  deriving DecidableEq

def Exc.neverArrived : Exc → Bool
  | .connectionRefused | .gaierror => true
  | _ => false

/-- `except (http.client.HTTPException, OSError)`, which both of `_NEVER_ARRIVED` are too. -/
def Exc.caught : Exc → Bool
  | .other => false
  | _ => true

structure Response where
  status : ℤ
  contentType : Bytes
  raw : Bytes

/-- What an attempt met: whether the broker ran its handler and when, what the client saw,
and whether the transport was closed by then. -/
structure Fate where
  acted : Bool
  now : ℕ
  outcome : Except Exc Response
  closed : Bool

structure Fate.Possible (f : Fate) : Prop where
  answered : ∀ r, f.outcome = .ok r → f.acted = true
  refused : ∀ e, f.outcome = .error e → e.neverArrived = true → f.acted = false

inductive Ended (D : Type) where
  | returned (status : ℤ) (value : Option (PyValue D))
  | sukkal (status : ℤ) (text : Bytes)
  | undecodable (e : PyError)
  | unreachable (e : Exc)
  | raised (e : Exc)

/-- Where the two loops stand: at an attempt of `_once`, or behind them. -/
inductive Phase (D : Type) where
  | trying (attempt : ℕ)
  | ended (e : Ended D)

variable {D : Type}

def mediaType : Bytes := ascii "application/binjson"

/-- What `_once` makes of an answer. -/
def answer (P : PyRuntime D) (r : Response) : Ended D :=
  if ¬ (200 ≤ r.status ∧ r.status < 300) then .sukkal r.status r.raw
  else if r.raw ≠ [] ∧ mediaType <+: r.contentType then
    match decode P r.raw with
    | .error e => .undecodable e
    | .ok value => .returned r.status (some value)
  else .returned r.status none

/-- One turn of the loop of `_once`, and of the loop of `request` around it; `retries` is
`retry_seconds > 0`. -/
def turn (P : PyRuntime D) (retries : Bool) (attempt : ℕ) (f : Fate) : Phase D :=
  match f.outcome with
  | .ok r => .ended (answer P r)
  | .error e =>
    if e.neverArrived then
      -- out of `_once`: `request` sleeps and calls it anew
      if retries = false ∨ f.closed = true then .ended (.unreachable e) else .trying 0
    else if e.caught ∧ attempt = 0 then .trying 1
    else .ended (.raised e)

def phase (P : PyRuntime D) (retries : Bool) (fates : ℕ → Fate) : ℕ → Phase D
  | 0 => .trying 0
  | n + 1 => match phase P retries fates n with
    | .trying attempt => turn P retries attempt (fates n)
    | .ended e => .ended e

def Made (P : PyRuntime D) (retries : Bool) (fates : ℕ → Fate) (n : ℕ) : Prop :=
  match phase P retries fates n with
  | .trying _ => True
  | .ended _ => False

instance (P : PyRuntime D) (retries : Bool) (fates : ℕ → Fate) (n : ℕ) :
    Decidable (Made P retries fates n) := by
  unfold Made
  split <;> infer_instance

/-- The broker's store after so many attempts of one publish. -/
def brokerAfter (P : PyRuntime D) (retries : Bool) (V : Vendor) (req : Request)
    (fates : ℕ → Fate) (st : Store) : ℕ → Store
  | 0 => st
  | n + 1 =>
    let st := brokerAfter P retries V req fates st n
    if Made P retries fates n ∧ (fates n).acted then
      (st.hPublish V (fates n).now req).2
    else st

/-- The attempt failed for another reason than that it never arrived, and one `_once` catches. -/
def Fate.broke (f : Fate) : Bool :=
  match f.outcome with
  | .ok _ => false
  | .error e => e.caught && !e.neverArrived

/-- Why `request` calls `_once` again. -/
def Fate.retried (retries : Bool) (f : Fate) : Prop :=
  (∃ e, f.outcome = .error e ∧ e.neverArrived = true) ∧ retries = true ∧ f.closed = false

/-- After a refused connection the loops begin anew, after a broken one `_once` sends again if
it has not yet, and otherwise the request is over. -/
theorem turn_cases (P : PyRuntime D) (retries : Bool) (attempt : ℕ) (f : Fate) :
    (f.retried retries ∧ turn P retries attempt f = .trying 0) ∨
    (f.broke = true ∧ attempt = 0 ∧ turn P retries attempt f = .trying 1) ∨
    (¬ f.retried retries ∧ (f.broke = true → attempt ≠ 0) ∧
      ∃ e, turn P retries attempt f = .ended e) := by
  cases ho : f.outcome with
  | ok r =>
    refine .inr (.inr ⟨fun h => ?_, fun h => ?_, answer P r, by simp only [turn, ho]⟩)
    · obtain ⟨e, he, -⟩ := h.1
      rw [ho] at he
      contradiction
    · simp [Fate.broke, ho] at h
  | error e =>
    by_cases hn : e.neverArrived = true
    · by_cases hr : retries = false ∨ f.closed = true
      · refine .inr (.inr ⟨fun h => ?_, fun h => ?_, .unreachable e, by simp [turn, ho, hn, hr]⟩)
        · rcases hr with hr | hr
          · exact Bool.noConfusion (h.2.1.symm.trans hr)
          · exact Bool.noConfusion (h.2.2.symm.trans hr)
        · simp [Fate.broke, ho, hn] at h
      · refine .inl ⟨⟨⟨e, ho, hn⟩, ?_⟩, by simp only [turn, ho, hn, hr, if_true, if_false]⟩
        rw [not_or, Bool.not_eq_false, Bool.not_eq_true] at hr
        exact hr
    · have hnot : ¬ f.retried retries := fun h => by
        obtain ⟨e', he', hn'⟩ := h.1
        rw [ho, Except.error.injEq] at he'
        exact hn (he' ▸ hn')
      have hbroke : f.broke = e.caught := by simp [Fate.broke, ho, hn]
      by_cases hc : e.caught = true ∧ attempt = 0
      · exact .inr (.inl ⟨hbroke.trans hc.1, hc.2, by simp [turn, ho, hn, hc.1, hc.2]⟩)
      · refine .inr (.inr ⟨hnot, fun h ha => hc ⟨hbroke ▸ h, ha⟩, .raised e, ?_⟩)
        simp only [turn, ho, hn, hc, if_false, Bool.false_eq_true]

section

variable {P : PyRuntime D} {retries : Bool} {fates : ℕ → Fate} {n attempt : ℕ} {V : Vendor}
  {req : Request} {st : Store}

theorem phase_succ (h : phase P retries fates n = .trying attempt) :
    phase P retries fates (n + 1) = turn P retries attempt (fates n) := by
  simp only [phase, h]

theorem phase_of_retried (h : ∀ m < n, (fates m).retried retries) :
    phase P retries fates n = .trying 0 := by
  induction n with
  | zero => rfl
  | succ n ih =>
    rw [phase_succ (ih fun m hm => h m (by omega))]
    rcases turn_cases P retries 0 (fates n) with ⟨-, ht⟩ | ⟨hb, -, -⟩ | ⟨hnot, -⟩
    · exact ht
    · obtain ⟨e, he, hn⟩ := (h n (by omega)).1
      simp [Fate.broke, he, hn] at hb
    · exact absurd (h n (by omega)) hnot

def NotResent (P : PyRuntime D) (retries : Bool) (fates : ℕ → Fate) : Prop :=
  ∀ n, Made P retries fates n → (fates n).broke = true → ¬ Made P retries fates (n + 1)

def ArrivesWhole (retries : Bool) (fates : ℕ → Fate) : Prop :=
  ∀ n, (∀ m < n, (fates m).retried retries) → (fates n).broke = false

theorem made_iff : Made P retries fates n ↔ ∃ attempt, phase P retries fates n = .trying attempt := by
  unfold Made
  cases phase P retries fates n <;> simp

theorem made_of_made_succ (h : Made P retries fates (n + 1)) : Made P retries fates n := by
  obtain ⟨attempt, h⟩ := made_iff.mp h
  refine made_iff.mpr ?_
  cases hp : phase P retries fates n with
  | trying a => exact ⟨a, rfl⟩
  | ended e => simp [phase, hp] at h

theorem retried_of_made (h : ArrivesWhole retries fates) (hm : Made P retries fates n) :
    ∀ m < n, (fates m).retried retries := by
  induction n with
  | zero => nofun
  | succ n ih =>
    have hbefore := ih (made_of_made_succ hm)
    intro m hmn
    rcases Nat.lt_succ_iff_lt_or_eq.mp hmn with hlt | rfl
    · exact hbefore m hlt
    · obtain ⟨attempt, hp⟩ := made_iff.mp hm
      rw [phase_succ (phase_of_retried hbefore)] at hp
      rcases turn_cases P retries 0 (fates m) with ⟨hr, -⟩ | ⟨hb, -, -⟩ | ⟨-, -, e, ht⟩
      · exact hr
      · rw [h m hbefore] at hb
        contradiction
      · rw [ht] at hp
        contradiction

theorem notResent_iff : NotResent P retries fates ↔ ArrivesWhole retries fates := by
  constructor
  · intro h n hbefore
    by_contra hb
    rw [Bool.not_eq_false] at hb
    have hp := phase_of_retried (P := P) hbefore
    refine h n (made_iff.mpr ⟨0, hp⟩) hb (made_iff.mpr ⟨1, ?_⟩)
    rw [phase_succ hp]
    rcases turn_cases P retries 0 (fates n) with ⟨hr, -⟩ | ⟨-, -, ht⟩ | ⟨-, hne, -⟩
    · obtain ⟨e, he, hn⟩ := hr.1
      simp [Fate.broke, he, hn] at hb
    · exact ht
    · exact absurd rfl (hne hb)
  · intro h n hm hb
    rw [h n (retried_of_made h hm)] at hb
    contradiction

def AppliedOnce (V : Vendor) (req : Request) (st st' : Store) : Prop :=
  st' = st ∨ ∃ now, st' = (st.hPublish V now req).2

theorem appliedOnce_of_arrivesWhole (hpossible : ∀ n, (fates n).Possible)
    (h : ArrivesWhole retries fates) (n : ℕ) :
    (Made P retries fates n ∧ brokerAfter P retries V req fates st n = st) ∨
      (¬ Made P retries fates n ∧
        AppliedOnce V req st (brokerAfter P retries V req fates st n)) := by
  induction n with
  | zero => exact .inl ⟨made_iff.mpr ⟨0, rfl⟩, rfl⟩
  | succ n ih =>
    rcases ih with ⟨hm, hst⟩ | ⟨hm, hst⟩
    · have hp := phase_of_retried (P := P) (retried_of_made h hm)
      have hstep := phase_succ hp
      rcases turn_cases P retries 0 (fates n) with ⟨hr, ht⟩ | ⟨hb, -, -⟩ | ⟨-, -, e, ht⟩
      · obtain ⟨e, he, hn⟩ := hr.1
        have hacted := (hpossible n).refused e he hn
        refine .inl ⟨made_iff.mpr ⟨0, hstep.trans ht⟩, ?_⟩
        simp [brokerAfter, hacted, hst]
      · rw [h n (retried_of_made h hm)] at hb
        contradiction
      · refine .inr ⟨fun hm' => ?_, ?_⟩
        · obtain ⟨attempt, hp'⟩ := made_iff.mp hm'
          rw [hstep, ht] at hp'
          contradiction
        · simp only [brokerAfter, hst]
          split
          · exact .inr ⟨_, rfl⟩
          · exact .inl rfl
    · refine .inr ⟨fun hm' => hm (made_of_made_succ hm'), ?_⟩
      simpa [brokerAfter, hm] using hst

end

variable {D : Type}

/-- A publish is not sent again after an attempt that may have landed, and the broker runs it
once at the most, exactly when the first attempt that is more than a refusal does not break. -/
theorem publish_sent_once_iff (P : PyRuntime D) (V : Vendor) (retries : Bool) (req : Request)
    (fates : ℕ → Fate) (hpossible : ∀ n, (fates n).Possible) :
    (NotResent P retries fates ∧ ∀ (st : Store) (n : ℕ),
      AppliedOnce V req st (brokerAfter P retries V req fates st n)) ↔
      ArrivesWhole retries fates := by
  refine ⟨fun h => notResent_iff.mp h.1, fun h => ⟨notResent_iff.mpr h, fun st n => ?_⟩⟩
  exact (appliedOnce_of_arrivesWhole hpossible h n).elim (fun hst => .inl hst.2) fun hst => hst.2

def bareOrder : Request where
  path := ascii "/pub/orders"
  contentType := some SUKKAL_MEDIA_TYPE
  body := some [0x00]
  query := fun _ => none

def refusedTwice (n : ℕ) : Fate :=
  if n < 2 then ⟨false, n, .error .connectionRefused, false⟩
  else ⟨true, n, .ok ⟨200, mediaType, [0x00]⟩, false⟩

theorem refusedTwice_sent_once :
    (NotResent plainRuntime true refusedTwice ∧ ∀ (st : Store) (n : ℕ),
      AppliedOnce sizedVendor bareOrder st
        (brokerAfter plainRuntime true sizedVendor bareOrder refusedTwice st n)) := by
  refine (publish_sent_once_iff plainRuntime sizedVendor true bareOrder refusedTwice
    fun n => ?_).mpr fun n _ => ?_
  · unfold refusedTwice
    split
    · exact ⟨fun r h => by simp at h, fun e _ _ => rfl⟩
    · exact ⟨fun r _ => rfl, fun e h => by simp at h⟩
  · unfold refusedTwice
    split <;> rfl

def answeredLate (n : ℕ) : Fate :=
  if n = 0 then ⟨true, n, .error .os, false⟩ else ⟨true, n, .ok ⟨200, mediaType, [0x00]⟩, false⟩

/-- A publish with no id, sent again after a timeout: the message is in the log twice. -/
theorem answeredLate_appends_twice :
    (∀ n, (answeredLate n).Possible) ∧ requestId bareOrder = .ok none ∧
      (answeredLate 0).broke = true ∧ Made plainRuntime true answeredLate 1 ∧
      ((brokerAfter plainRuntime true sizedVendor bareOrder answeredLate Store.empty 2).logOf
        (ascii "orders")).entries =
          [⟨BJM_ENTRY_PLAIN, [0x00]⟩, ⟨BJM_ENTRY_PLAIN, [0x00]⟩] := by
  refine ⟨fun n => ?_, rfl, rfl, trivial, by decide +kernel⟩
  unfold answeredLate
  split
  · refine ⟨fun _ _ => rfl, fun e h hn => ?_⟩
    obtain rfl := Except.error.inj h
    contradiction
  · exact ⟨fun r _ => rfl, fun e h => by simp at h⟩

end SukkalMsg.PyTransport
