import Mathlib.Data.List.Count
import Mathlib.Data.List.Induction
import Mathlib.Tactic.Common

/-!
# The life of a leased job, told by its events

Jobs are numbered. A job is untouched until it is first handed to a worker, held
under a lease from then on, and leaves for good when a worker finishes it or the
queue buries it. `Phase.next` is the whole of that life cycle: a lease is renewed
or buried only once it has lapsed, each renewal counts one more attempt, and a
release moves the lapse to the time the job is due again.
A history is legal for a job when its events replay from `untouched`.
-/

namespace SukkalMsg.JobLedger

universe u

variable {W : Type u}

/-- What happens to one job, with the worker it concerns and the time. -/
inductive Event (W : Type u) where
  | hand (worker : W) (job attempts expires time : ℕ)
  | release (worker : W) (job delay due time : ℕ)
  | finish (worker : W) (job time : ℕ)
  | bury (job attempts time : ℕ)
  deriving DecidableEq

def Event.job : Event W → ℕ
  | .hand _ i _ _ _ | .release _ i _ _ _ | .finish _ i _ | .bury i _ _ => i

def Event.isHand : Event W → Bool
  | .hand .. => true
  | _ => false

def Event.isFinish : Event W → Bool
  | .finish .. => true
  | _ => false

def Event.isBury : Event W → Bool
  | .bury .. => true
  | _ => false

/-- Where a job stands. -/
inductive Phase where
  | untouched
  | leased (expires attempts : ℕ)
  | finished
  | buried
  deriving DecidableEq

/-- The one transition an event makes, or nothing when the event is illegal there. -/
def Phase.next : Phase → Event W → Option Phase
  | .untouched, .hand _ _ a e _ => if a = 1 then some (.leased e 1) else none
  | .leased e a, .hand _ _ a' e' t =>
      if e ≤ t ∧ a' = a + 1 then some (.leased e' a') else none
  | .leased _ a, .release _ _ _ due _ => some (.leased due a)
  | .leased _ _, .finish .. => some .finished
  | .leased e a, .bury _ a' t => if e ≤ t ∧ a' = a then some .buried else none
  | _, _ => none

/-- The phase of job `i` after a history, starting from a given phase. -/
def replay (i : ℕ) : Phase → List (Event W) → Option Phase
  | p, [] => some p
  | p, e :: es => if e.job = i then (p.next e).bind (replay i · es) else replay i p es

@[simp] theorem replay_nil (i : ℕ) (p : Phase) : replay (W := W) i p [] = some p := rfl

theorem replay_append (i : ℕ) (p : Phase) (es fs : List (Event W)) :
    replay i p (es ++ fs) = (replay i p es).bind (replay i · fs) := by
  induction es generalizing p with
  | nil => rfl
  | cons e es ih =>
    by_cases h : e.job = i
    · cases hp : p.next e <;> simp [replay, h, hp, ih]
    · simp [replay, h, ih]

theorem replay_of_absent {i : ℕ} {p : Phase} {es : List (Event W)}
    (h : ∀ e ∈ es, e.job ≠ i) : replay i p es = some p := by
  induction es with
  | nil => rfl
  | cons e es ih =>
    simp only [replay, h e List.mem_cons_self, if_false]
    exact ih (fun f hf => h f (List.mem_cons_of_mem _ hf))

theorem replay_of_unique {i : ℕ} {p : Phase} {es fs : List (Event W)} {e : Event W}
    (he : e.job = i) (hes : ∀ f ∈ es, f.job ≠ i) (hfs : ∀ f ∈ fs, f.job ≠ i) :
    replay i p (es ++ e :: fs) = p.next e := by
  rw [replay_append, replay_of_absent hes]
  simp only [Option.bind_some, replay, he, if_true]
  cases hp : p.next e with
  | none => rfl
  | some q => simp [replay_of_absent hfs]

theorem replay_of_nodup {p : Phase} {es : List (Event W)} {e : Event W}
    (hnd : (es.map Event.job).Nodup) (he : e ∈ es) : replay e.job p es = p.next e := by
  obtain ⟨fs, gs, rfl⟩ := List.append_of_mem he
  simp only [List.map_append, List.map_cons, List.nodup_append, List.nodup_cons, List.mem_map,
    List.mem_cons, not_exists, not_and] at hnd
  obtain ⟨-, ⟨hgs, -⟩, hfs⟩ := hnd
  refine replay_of_unique rfl (fun f hf hj => ?_) (fun f hf => hgs f hf)
  exact hfs f.job ⟨f, hf, rfl⟩ e.job (.inl rfl) hj

theorem absent_of_replay_settled {i : ℕ} {p q : Phase} {es : List (Event W)}
    (hp : p = .finished ∨ p = .buried) (h : replay i p es = some q) :
    ∀ e ∈ es, e.job ≠ i := by
  induction es with
  | nil => simp
  | cons e es ih =>
    by_cases he : e.job = i
    · rcases hp with rfl | rfl <;> cases e <;> simp [replay, he, Phase.next] at h
    · simp only [replay, he, if_false] at h
      intro f hf
      rcases List.mem_cons.mp hf with rfl | hf
      · exact he
      · exact ih h f hf

/-- Hand-outs of job `i` in a history. -/
def handCount (i : ℕ) (es : List (Event W)) : ℕ :=
  es.countP fun e => e.isHand && e.job == i

def finishCount (i : ℕ) (es : List (Event W)) : ℕ :=
  es.countP fun e => e.isFinish && e.job == i

def buryCount (i : ℕ) (es : List (Event W)) : ℕ :=
  es.countP fun e => e.isBury && e.job == i

/-- What the counts of a job's events amount to in each phase. -/
def Phase.Tallies (p : Phase) (hands finishes buries : ℕ) : Prop :=
  match p with
  | .untouched => hands = 0 ∧ finishes = 0 ∧ buries = 0
  | .leased _ a => hands = a ∧ finishes = 0 ∧ buries = 0
  | .finished => finishes = 1 ∧ buries = 0
  | .buried => finishes = 0 ∧ buries = 1

theorem tallies_next {p q : Phase} {e : Event W} {h f b : ℕ} (ht : p.Tallies h f b)
    (hn : p.next e = some q) :
    q.Tallies (h + if e.isHand then 1 else 0) (f + if e.isFinish then 1 else 0)
      (b + if e.isBury then 1 else 0) := by
  cases p <;> cases e <;> simp only [Phase.next] at hn <;> try split at hn
  all_goals first
    | contradiction
    | (obtain rfl := Option.some.inj hn
       simp_all [Phase.Tallies, Event.isHand, Event.isFinish, Event.isBury])

theorem tallies_replay {i : ℕ} {p q : Phase} {es : List (Event W)} {h f b : ℕ}
    (ht : p.Tallies h f b) (hr : replay i p es = some q) :
    q.Tallies (h + handCount i es) (f + finishCount i es) (b + buryCount i es) := by
  induction es generalizing p h f b with
  | nil =>
    obtain rfl := Option.some.inj hr
    simpa [handCount, finishCount, buryCount] using ht
  | cons e es ih =>
    by_cases he : e.job = i
    · simp only [replay, he, if_true] at hr
      obtain ⟨p', hp, hr⟩ := Option.bind_eq_some_iff.mp hr
      have hnext := ih (tallies_next ht hp) hr
      simpa [handCount, finishCount, buryCount, List.countP_cons, he, Nat.add_assoc,
        Nat.add_comm] using hnext
    · simp only [replay, he, if_false] at hr
      simpa [handCount, finishCount, buryCount, List.countP_cons, he] using ih ht hr

theorem tallies_of_legal {i : ℕ} {q : Phase} {es : List (Event W)}
    (hr : replay i .untouched es = some q) :
    q.Tallies (handCount i es) (finishCount i es) (buryCount i es) := by
  simpa using tallies_replay (i := i) (p := .untouched) ⟨rfl, rfl, rfl⟩ hr

theorem attempts_eq_of_legal {i a e t : ℕ} {w : W} {es fs : List (Event W)} {q : Phase}
    (hr : replay i .untouched (es ++ .hand w i a e t :: fs) = some q) :
    a = handCount i es + 1 := by
  rw [replay_append] at hr
  obtain ⟨p, hp, hr⟩ := Option.bind_eq_some_iff.mp hr
  have ht := tallies_of_legal hp
  simp only [replay, Event.job, if_true] at hr
  obtain ⟨p', hn, -⟩ := Option.bind_eq_some_iff.mp hr
  cases p <;> simp only [Phase.next] at hn <;> try contradiction
  · split at hn
    · have := ht.1
      omega
    · contradiction
  · split at hn
    · have := ht.1
      omega
    · contradiction

theorem handCount_le_of_legal {i m : ℕ} {es : List (Event W)} {q : Phase}
    (hm : ∀ w a e t, .hand w i a e t ∈ es → a ≤ m) (hr : replay i .untouched es = some q) :
    handCount i es ≤ m := by
  induction es using List.reverseRec generalizing q with
  | nil => simp [handCount]
  | append_singleton es e ih =>
    have hr' := hr
    rw [replay_append] at hr'
    obtain ⟨p, hp, -⟩ := Option.bind_eq_some_iff.mp hr'
    have hle := ih (fun w a x t h => hm w a x t (List.mem_append_left _ h)) hp
    by_cases he : e.isHand = true ∧ e.job = i
    · obtain ⟨hhand, hjob⟩ := he
      cases e with
      | hand w j a x t =>
        obtain rfl : j = i := hjob
        have ha := attempts_eq_of_legal hr
        have := hm w a x t (by simp)
        simp [handCount, Event.isHand, Event.job] at ha ⊢
        omega
      | _ => simp [Event.isHand] at hhand
    · have : handCount i (es ++ [e]) = handCount i es := by
        simp only [handCount, List.countP_append, List.countP_singleton, Bool.and_eq_true,
          beq_iff_eq, he, if_false, Nat.add_zero]
      omega

/-- A lease is extended only by releases until the job is handed out again. -/
theorem expiry_of_unhanded {i e a : ℕ} {q : Phase} {es : List (Event W)}
    (hno : ∀ f ∈ es, f.isHand = true → f.job ≠ i)
    (hr : replay i (.leased e a) es = some q) :
    q = .finished ∨ q = .buried ∨ q = .leased e a ∨
      ∃ w d due t, .release w i d due t ∈ es ∧ q = .leased due a := by
  induction es generalizing e with
  | nil => exact .inr (.inr (.inl (Option.some.inj hr).symm))
  | cons f es ih =>
    have hno' : ∀ g ∈ es, g.isHand = true → g.job ≠ i :=
      fun g hg => hno g (List.mem_cons_of_mem _ hg)
    by_cases hf : f.job = i
    · simp only [replay, hf, if_true] at hr
      obtain ⟨p, hn, hr⟩ := Option.bind_eq_some_iff.mp hr
      cases f with
      | hand w j a' e' t => exact absurd hf (hno _ List.mem_cons_self rfl)
      | release w j d due t =>
        obtain rfl := Option.some.inj hn
        obtain rfl : j = i := hf
        rcases ih hno' hr with h | h | h | ⟨w', d', due', t', hm, h⟩
        · exact .inl h
        · exact .inr (.inl h)
        · exact .inr (.inr (.inr ⟨w, d, due, t, List.mem_cons_self, h⟩))
        · exact .inr (.inr (.inr ⟨w', d', due', t', List.mem_cons_of_mem _ hm, h⟩))
      | finish w j t =>
        obtain rfl := Option.some.inj hn
        rw [replay_of_absent] at hr
        · exact .inl (Option.some.inj hr).symm
        · exact absent_of_replay_settled (.inl rfl) hr
      | bury j a' t =>
        simp only [Phase.next] at hn
        split at hn
        · obtain rfl := Option.some.inj hn
          rw [replay_of_absent] at hr
          · exact .inr (.inl (Option.some.inj hr).symm)
          · exact absent_of_replay_settled (.inr rfl) hr
        · contradiction
    · simp only [replay, hf, if_false] at hr
      rcases ih hno' hr with h | h | h | ⟨w, d, due, t, hm, h⟩
      · exact .inl h
      · exact .inr (.inl h)
      · exact .inr (.inr (.inl h))
      · exact .inr (.inr (.inr ⟨w, d, due, t, List.mem_cons_of_mem _ hm, h⟩))

/-- Between two successive hand-outs of a job its lease lapses, or a release in
between sets a delay that passes first. -/
theorem exclusive_of_legal {i a₁ e₁ t₁ a₂ e₂ t₂ : ℕ} {w₁ w₂ : W}
    {es fs gs : List (Event W)} {q : Phase}
    (hno : ∀ f ∈ fs, f.isHand = true → f.job ≠ i)
    (hr : replay i .untouched
      (es ++ .hand w₁ i a₁ e₁ t₁ :: (fs ++ .hand w₂ i a₂ e₂ t₂ :: gs)) = some q) :
    e₁ ≤ t₂ ∨ ∃ w d due t, .release w i d due t ∈ fs ∧ due ≤ t₂ := by
  rw [replay_append] at hr
  obtain ⟨p, -, hr⟩ := Option.bind_eq_some_iff.mp hr
  simp only [replay, Event.job, if_true] at hr
  obtain ⟨p₁, hp₁, hr⟩ := Option.bind_eq_some_iff.mp hr
  have hlease : p₁ = .leased e₁ a₁ := by
    cases p <;> simp only [Phase.next] at hp₁ <;> try contradiction
    · split at hp₁
      · simp_all
      · contradiction
    · split at hp₁
      · simp_all
      · contradiction
  subst hlease
  rw [replay_append] at hr
  obtain ⟨p₂, hp₂, hr⟩ := Option.bind_eq_some_iff.mp hr
  simp only [replay, Event.job, if_true] at hr
  obtain ⟨p₃, hp₃, -⟩ := Option.bind_eq_some_iff.mp hr
  rcases expiry_of_unhanded hno hp₂ with rfl | rfl | rfl | ⟨w, d, due, t, hm, rfl⟩
  · simp [Phase.next] at hp₃
  · simp [Phase.next] at hp₃
  · simp only [Phase.next] at hp₃
    split at hp₃
    · rename_i h
      exact .inl h.1
    · contradiction
  · simp only [Phase.next] at hp₃
    split at hp₃
    · rename_i h
      exact .inr ⟨w, d, due, t, hm, h.1⟩
    · contradiction

/-- A job that is handed out stays under lease until it is finished or buried. -/
theorem leased_of_unsettled {i : ℕ} {p q : Phase} {es : List (Event W)}
    (hp : ∃ e a, p = .leased e a)
    (hno : ∀ f ∈ es, f.job = i → f.isFinish = false ∧ f.isBury = false)
    (hr : replay i p es = some q) : ∃ e a, q = .leased e a := by
  induction es generalizing p with
  | nil =>
    obtain rfl := Option.some.inj hr
    exact hp
  | cons f es ih =>
    have hno' : ∀ g ∈ es, g.job = i → g.isFinish = false ∧ g.isBury = false :=
      fun g hg => hno g (List.mem_cons_of_mem _ hg)
    by_cases hf : f.job = i
    · simp only [replay, hf, if_true] at hr
      obtain ⟨e, a, rfl⟩ := hp
      obtain ⟨p', hn, hrest⟩ := Option.bind_eq_some_iff.mp hr
      have hlive := hno f List.mem_cons_self hf
      refine ih ?_ hno' hrest
      cases f with
      | hand w j a' e' t =>
        simp only [Phase.next] at hn
        split at hn
        · exact ⟨e', a', (Option.some.inj hn).symm⟩
        · contradiction
      | release w j d due t => exact ⟨due, a, (Option.some.inj hn).symm⟩
      | finish => simp [Event.isFinish] at hlive
      | bury => simp [Event.isBury] at hlive
    · simp only [replay, hf, if_false] at hr
      exact ih hp hno' hr

theorem absent_after_settled {i : ℕ} {e : Event W} {es fs : List (Event W)} {q : Phase}
    (he : e.job = i) (hs : e.isFinish = true ∨ e.isBury = true)
    (hr : replay i .untouched (es ++ e :: fs) = some q) : ∀ f ∈ fs, f.job ≠ i := by
  rw [replay_append] at hr
  obtain ⟨p, -, hr⟩ := Option.bind_eq_some_iff.mp hr
  simp only [replay, he, if_true] at hr
  obtain ⟨p', hn, hr⟩ := Option.bind_eq_some_iff.mp hr
  have hsettled : p' = .finished ∨ p' = .buried := by
    cases e <;> cases p <;> simp_all [Phase.next, Event.isFinish, Event.isBury]
  exact absent_of_replay_settled hsettled hr

end SukkalMsg.JobLedger
