import Mathlib.Data.List.Induction
import Mathlib.Logic.Function.Basic

/-!
# A map of high-water marks

A mark is raised to a number, and never lowered; marks are forgotten by a test of
their key. Whatever the order of the changes, a key's mark is the highest number it
was raised to since it was last forgotten, and a key that was never raised since
then has none.
-/

namespace SukkalMsg.HighWater

universe u

variable {κ : Type u}

inductive Change (κ : Type u) where
  | raise (k : κ) (n : ℕ)
  | forget (drop : κ → Bool)

def higher (n : ℕ) : Option ℕ → ℕ
  | none => n
  | some m => max m n

variable [DecidableEq κ]

def Change.exec (m : κ → Option ℕ) : Change κ → κ → Option ℕ
  | .raise k n => Function.update m k (some (higher n (m k)))
  | .forget drop => fun k => if drop k then none else m k

/-- The marks after these changes. -/
def marks (h : List (Change κ)) : κ → Option ℕ := h.foldl Change.exec fun _ => none

/-- The change is about this key. -/
def Change.Touches (k : κ) : Change κ → Prop
  | .raise k' _ => k' = k
  | .forget drop => drop k = true

def Change.forgets (k : κ) : Change κ → Bool
  | .raise .. => false
  | .forget drop => drop k

def Change.raisedTo (k : κ) : Change κ → Option ℕ
  | .raise k' n => if k' = k then some n else none
  | .forget _ => none

/-- What a key was raised to since it was last forgotten, the latest first. -/
def since (k : κ) (h : List (Change κ)) : List ℕ :=
  (h.reverse.takeWhile fun c => !c.forgets k).filterMap (Change.raisedTo k)

variable {k : κ} {c : Change κ} {h : List (Change κ)} {m : κ → Option ℕ}

@[simp] theorem marks_nil : marks ([] : List (Change κ)) = fun _ => none := rfl

theorem marks_snoc : marks (h ++ [c]) = c.exec (marks h) := by
  simp [marks]

/-- A change leaves every other key's mark alone. -/
theorem exec_of_untouched (hc : ¬ c.Touches k) : c.exec m k = m k := by
  cases c with
  | raise k' n => exact Function.update_of_ne (Ne.symm hc) _ _
  | forget drop => exact if_neg hc

private theorem max?_cons (n : ℕ) (ns : List ℕ) : (n :: ns).max? = some (higher n ns.max?) := by
  rw [List.max?_cons]
  cases ns.max? with
  | none => rfl
  | some m => simp [higher, Nat.max_comm]

/-- A key's mark is the highest number since it was last forgotten. -/
theorem marks_eq_max (h : List (Change κ)) (k : κ) : marks h k = (since k h).max? := by
  induction h using List.reverseRecOn with
  | nil => rfl
  | append_singleton h c ih =>
    rw [marks_snoc]
    cases c with
    | raise k' n =>
      simp only [since, List.reverse_append, List.reverse_singleton, List.singleton_append,
        List.takeWhile_cons, Change.forgets, Bool.not_false, if_true, List.filterMap_cons,
        Change.raisedTo, Change.exec]
      by_cases hk : k' = k
      · subst hk
        simp only [Function.update_self, if_true, max?_cons, ih]
        rfl
      · simp only [hk, if_false, Function.update_of_ne (Ne.symm hk), ih]
        rfl
    | forget drop =>
      simp only [since, List.reverse_append, List.reverse_singleton, List.singleton_append,
        List.takeWhile_cons, Change.exec]
      by_cases hd : drop k = true
      · simp [Change.forgets, hd]
      · have hkept : (!(Change.forget drop).forgets k) = true := by simp [Change.forgets, hd]
        rw [if_neg hd, if_pos hkept, ih]
        rfl

end SukkalMsg.HighWater
