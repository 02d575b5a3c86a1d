import Mathlib.Data.List.Basic

/-!
# Runs of an action machine and the history they leave

A machine answers every action with the events it caused and the next state. A
run performs a list of actions in order. `Along` restricts a run to the actions
a guard admits, where the guard may read the history, the state and the action;
`invariant` is the induction every safety result of this development uses.
-/

namespace SukkalMsg.ActionRuns

universe u v w

variable {σ : Type u} {α : Type v} {ε : Type w}

/-- Perform the actions in order, collecting what each of them caused. -/
def run (exec : σ → α → List ε × σ) : σ → List α → List ε × σ
  | s, [] => ([], s)
  | s, a :: as =>
    ((exec s a).1 ++ (run exec (exec s a).2 as).1, (run exec (exec s a).2 as).2)

/-- Every action of the run is admitted by the guard when its turn comes. -/
def Along (exec : σ → α → List ε × σ) (guard : List ε → σ → α → Prop) :
    List ε → σ → List α → Prop
  | _, _, [] => True
  | h, s, a :: as =>
    guard h s a ∧ Along exec guard (h ++ (exec s a).1) (exec s a).2 as

variable {exec : σ → α → List ε × σ} {guard : List ε → σ → α → Prop}

@[simp] theorem run_nil (s : σ) : run exec s [] = ([], s) := rfl

theorem run_cons (s : σ) (a : α) (as : List α) :
    run exec s (a :: as) =
      ((exec s a).1 ++ (run exec (exec s a).2 as).1, (run exec (exec s a).2 as).2) := rfl

theorem run_append (s : σ) (as bs : List α) :
    run exec s (as ++ bs) =
      ((run exec s as).1 ++ (run exec (run exec s as).2 bs).1,
        (run exec (run exec s as).2 bs).2) := by
  induction as generalizing s with
  | nil => simp
  | cons a as ih => simp [run_cons, ih]

theorem along_append {h : List ε} {s : σ} {as bs : List α} :
    Along exec guard h s (as ++ bs) ↔ Along exec guard h s as ∧
      Along exec guard (h ++ (run exec s as).1) (run exec s as).2 bs := by
  induction as generalizing h s with
  | nil => simp [Along]
  | cons a as ih => simp [Along, ih, run_cons, and_assoc]

theorem Along.mono {guard' : List ε → σ → α → Prop}
    (hg : ∀ h s a, guard h s a → guard' h s a) {h : List ε} {s : σ} {as : List α}
    (ha : Along exec guard h s as) : Along exec guard' h s as := by
  induction as generalizing h s with
  | nil => trivial
  | cons a as ih => exact ⟨hg _ _ _ ha.1, ih ha.2⟩

theorem invariant {I : List ε → σ → Prop} {h : List ε} {s : σ} {as : List α} (hi : I h s)
    (ha : Along exec guard h s as)
    (step : ∀ h s a, guard h s a → I h s → I (h ++ (exec s a).1) (exec s a).2) :
    I (h ++ (run exec s as).1) (run exec s as).2 := by
  induction as generalizing h s with
  | nil => simpa using hi
  | cons a as ih =>
    have hnext := ih (step h s a ha.1 hi) ha.2
    simpa [run_cons, List.append_assoc] using hnext

/-- What an invariant gives at each admitted action holds all along the run. -/
theorem Along.of_invariant {I : List ε → σ → Prop} {guard' : List ε → σ → α → Prop} {h : List ε}
    {s : σ} {as : List α} (hi : I h s) (ha : Along exec guard h s as)
    (step : ∀ h s a, guard h s a → I h s →
      guard' h s a ∧ I (h ++ (exec s a).1) (exec s a).2) : Along exec guard' h s as := by
  induction as generalizing h s with
  | nil => trivial
  | cons a as ih =>
    obtain ⟨hguard, hnext⟩ := step h s a ha.1 hi
    exact ⟨hguard, ih hnext ha.2⟩

/-- Each event of a history stands in a relation to the history before it. -/
def Each (P : List ε → ε → Prop) (h : List ε) : Prop :=
  ∀ before e after, h = before ++ e :: after → P before e

theorem each_nil {P : List ε → ε → Prop} : Each P [] := by
  intro before e after h
  simp at h

theorem Each.snoc {P : List ε → ε → Prop} {h : List ε} {e : ε} (hh : Each P h) (he : P h e) :
    Each P (h ++ [e]) := by
  intro before f after heq
  rcases List.append_eq_append_iff.mp heq with ⟨zs, rfl, hz⟩ | ⟨zs, rfl, hz⟩
  · cases zs with
    | nil =>
      simp only [List.nil_append, List.cons.injEq] at hz
      simpa [← hz.1] using he
    | cons z zs => simp at hz
  · cases zs with
    | nil =>
      simp only [List.nil_append, List.append_nil, List.cons.injEq] at hz he
      simpa [hz.1] using he
    | cons z zs =>
      obtain ⟨rfl, -⟩ := List.cons.inj hz
      exact hh before f zs rfl

end SukkalMsg.ActionRuns
