import Mathlib.Logic.Function.Basic
import Mathlib.Tactic.Common

/-!
# A memory of two generations

What is remembered goes into the current generation. When a lookup finds the
window elapsed, the current generation is retired and a new one begins; when too
much has elapsed, both are cleared. A lookup that finds a key in the retired
generation copies it forward. `Safe` is what keeps a key findable for one window
after it was remembered; `Aged` is what bounds how long it can stay.
-/

namespace SukkalMsg.TwoGenerations

universe u v

variable {K : Type u} {V : Type v}

structure Memory (K : Type u) (V : Type v) where
  cur : K → Option V
  old : K → Option V
  rotated : ℕ

namespace Memory

/-- Retire or clear once `window` has elapsed; `clearAt` is where both are cleared. -/
def rotate (window clearAt now : ℕ) (m : Memory K V) : Memory K V :=
  if now - m.rotated < window then m
  else if clearAt ≤ now - m.rotated then ⟨fun _ => none, fun _ => none, now⟩
  else ⟨fun _ => none, m.cur, now⟩

/-- The current generation answers before the retired one. -/
def find (m : Memory K V) (k : K) : Option V := (m.cur k).or (m.old k)

variable {window clearAt now t : ℕ} {m : Memory K V} {k k' : K} {v v' : V}

theorem rotate_young (clearAt : ℕ) (hw : 0 < window) (hnow : m.rotated ≤ now) :
    (m.rotate window clearAt now).rotated ≤ now ∧
      now < (m.rotate window clearAt now).rotated + window := by
  simp only [rotate]
  split
  · omega
  · split <;> simp only <;> omega

theorem rotate_sub (h : (m.rotate window clearAt now).cur k = some v ∨
      (m.rotate window clearAt now).old k = some v) : m.cur k = some v ∨ m.old k = some v := by
  simp only [rotate] at h
  split at h
  · exact h
  · split at h
    · simp at h
    · exact .inl (by simpa using h)

/-- The key stays findable with this value until one window after `t`. -/
def Safe (window : ℕ) (m : Memory K V) (k : K) (v : V) (t : ℕ) : Prop :=
  (m.cur k = some v ∧ t < m.rotated + window) ∨ (m.find k = some v ∧ t < m.rotated)

theorem Safe.find_eq (h : Safe window m k v t) : m.find k = some v := by
  rcases h with ⟨h, -⟩ | ⟨h, -⟩
  · simp [find, h]
  · exact h

/-- Rotating within the window after `t` at worst retires the key. -/
theorem Safe.rotate (h : Safe window m k v t) (hw : 0 < window) (hnow : now ≤ t + window)
    (hclear : window ≤ now - m.rotated → clearAt ≤ now - m.rotated →
      2 * window ≤ now - m.rotated) :
    Safe window (m.rotate window clearAt now) k v t := by
  simp only [Memory.rotate]
  split
  · exact h
  · rename_i hel
    rcases h with ⟨hc, ht⟩ | ⟨-, ht⟩
    · split
      · rename_i hcl
        have := hclear (by omega) hcl
        omega
      · exact .inr ⟨by simp [find, hc], by simp only; omega⟩
    · omega

/-- The key stays findable from `t` on, or a whole window has passed since. -/
def Held (window : ℕ) (m : Memory K V) (k : K) (v : V) (t : ℕ) : Prop :=
  Safe window m k v (t - 1) ∨ t + window ≤ m.rotated

theorem Held.rotate (h : Held window m k v t) (hw : 0 < window) (hnow : m.rotated ≤ now)
    (hclear : window ≤ now - m.rotated → clearAt ≤ now - m.rotated →
      2 * window ≤ now - m.rotated) :
    Held window (m.rotate window clearAt now) k v t := by
  rcases h with h | h
  · by_cases hin : now ≤ t - 1 + window
    · exact .inl (h.rotate hw hin hclear)
    · -- the window has passed: a rotation, if any, sets `rotated` to `now`
      simp only [Memory.rotate]
      split
      · exact .inl h
      · split <;> exact .inr (by simp only; omega)
  · refine .inr ?_
    simp only [Memory.rotate]
    split
    · exact h
    · split <;> simp only <;> omega

theorem Held.later (h : Held window m k v t) {r : ℕ} (hr : m.rotated ≤ r) :
    Held window { m with rotated := r } k v t := by
  rcases h with (⟨hc, ht⟩ | ⟨hf, ht⟩) | h
  · exact .inl (.inl ⟨hc, by simp only; omega⟩)
  · exact .inl (.inr ⟨hf, by simp only; omega⟩)
  · exact .inr (by simp only; omega)

theorem Held.of_find_ne (h : Held window m k v t) (hf : m.find k ≠ some v) :
    t + window ≤ m.rotated := by
  rcases h with h | h
  · exact absurd h.find_eq hf
  · exact h

/-- How old each generation's keys can be, given the times each key was touched. -/
structure Aged (window : ℕ) (touched : K → ℕ → Prop) (m : Memory K V) : Prop where
  cur : ∀ k, m.cur k ≠ none → ∃ t, touched k t ∧ m.rotated ≤ t
  old : ∀ k, m.old k ≠ none → ∃ t, touched k t ∧ m.rotated ≤ t + window + 1

namespace Aged

variable {touched touched' : K → ℕ → Prop}

theorem mono (h : Aged window touched m) (hsub : ∀ k t, touched k t → touched' k t) :
    Aged window touched' m where
  cur k hk := by
    obtain ⟨t, ht, hle⟩ := h.cur k hk
    exact ⟨t, hsub k t ht, hle⟩
  old k hk := by
    obtain ⟨t, ht, hle⟩ := h.old k hk
    exact ⟨t, hsub k t ht, hle⟩

theorem rotate (h : Aged window touched m)
    (hstep : window ≤ now - m.rotated → now - m.rotated < clearAt → ∀ k, m.cur k ≠ none →
      ∃ t, touched k t ∧ now ≤ t + window + 1) :
    Aged window touched (m.rotate window clearAt now) := by
  simp only [Memory.rotate]
  split
  · exact h
  · split
    · exact ⟨by simp, by simp⟩
    · exact ⟨by simp, fun k hk => hstep (by omega) (by omega) k hk⟩

theorem found (h : Aged window touched m) (hw : 0 < window) (hnow : now < m.rotated + window)
    (hf : m.find k = some v) : ∃ t, touched k t ∧ now ≤ t + 2 * window := by
  simp only [find] at hf
  cases hc : m.cur k with
  | some w =>
    obtain ⟨t, ht, hle⟩ := h.cur k (by simp [hc])
    exact ⟨t, ht, by omega⟩
  | none =>
    obtain ⟨t, ht, hle⟩ := h.old k (by
      intro ho
      simp [hc, ho] at hf)
    exact ⟨t, ht, by omega⟩

end Aged

variable [DecidableEq K]

def remember (m : Memory K V) (k : K) (v : V) : Memory K V :=
  { m with cur := Function.update m.cur k (some v) }

/-- What a lookup answers, and the memory it leaves. -/
def lookup (window clearAt now : ℕ) (m : Memory K V) (k : K) : Option V × Memory K V :=
  let m := m.rotate window clearAt now
  match m.cur k, m.old k with
  | some v, _ => (some v, m)
  | none, some v => (some v, m.remember k v)
  | none, none => (none, m)

@[simp] theorem remember_rotated : (m.remember k v).rotated = m.rotated := rfl

@[simp] theorem remember_old : (m.remember k v).old = m.old := rfl

theorem remember_cur : (m.remember k v).cur k' = if k' = k then some v else m.cur k' := by
  simp [remember, Function.update_apply]

theorem lookup_fst :
    (m.lookup window clearAt now k).1 = (m.rotate window clearAt now).find k := by
  simp only [lookup, find]
  cases (m.rotate window clearAt now).cur k <;> cases (m.rotate window clearAt now).old k <;> rfl

@[simp] theorem lookup_rotated :
    (m.lookup window clearAt now k).2.rotated = (m.rotate window clearAt now).rotated := by
  simp only [lookup]
  split <;> rfl

/-- A successful lookup leaves its key in the current generation. -/
theorem lookup_cur (h : (m.lookup window clearAt now k).1 = some v) :
    (m.lookup window clearAt now k).2.cur k = some v := by
  rw [lookup_fst] at h
  simp only [find] at h
  simp only [lookup]
  cases hc : (m.rotate window clearAt now).cur k with
  | some w =>
    simp only [hc, Option.some_or] at h
    simpa [hc] using h
  | none =>
    simp only [hc, Option.none_or] at h
    simp [h, remember_cur]

/-- Whatever a lookup leaves behind was there after rotating. -/
theorem lookup_sub (h : (m.lookup window clearAt now k).2.cur k' = some v ∨
      (m.lookup window clearAt now k).2.old k' = some v) :
    (m.rotate window clearAt now).cur k' = some v ∨
      (m.rotate window clearAt now).old k' = some v := by
  simp only [lookup] at h
  cases hc : (m.rotate window clearAt now).cur k with
  | some w =>
    simpa [hc] using h
  | none =>
    cases ho : (m.rotate window clearAt now).old k with
    | none => simpa [hc, ho] using h
    | some w =>
      simp only [hc, ho, remember_cur] at h
      by_cases hk : k' = k
      · subst hk
        simp only [if_true, Option.some.injEq] at h
        rcases h with rfl | h
        · exact .inr ho
        · exact .inr h
      · simpa [hk] using h

/-- A lookup of any key keeps what was safe. -/
theorem Safe.lookup (h : Safe window m k v t) (hw : 0 < window) (hnow : now ≤ t + window)
    (hclear : window ≤ now - m.rotated → clearAt ≤ now - m.rotated →
      2 * window ≤ now - m.rotated) :
    Safe window (m.lookup window clearAt now k').2 k v t := by
  have hr := h.rotate hw hnow hclear
  simp only [Memory.lookup]
  generalize m.rotate window clearAt now = m' at hr ⊢
  cases hc : m'.cur k' with
  | some w => simpa [hc] using hr
  | none =>
    cases ho : m'.old k' with
    | none => simpa [hc, ho] using hr
    | some w =>
      by_cases hk : k = k'
      · subst hk
        have hv : some w = some v := by simpa [find, hc, ho] using hr.find_eq
        obtain rfl := Option.some.inj hv
        rcases hr with ⟨hr, ht⟩ | ⟨-, ht⟩
        · rw [hc] at hr
          contradiction
        · exact .inr ⟨by simp [find, remember_cur], ht⟩
      · rcases hr with ⟨hr, ht⟩ | ⟨hr, ht⟩
        · exact .inl ⟨by simp [remember_cur, hk, hr], ht⟩
        · refine .inr ⟨?_, ht⟩
          simpa [find, remember_cur, hk, remember] using hr

theorem Safe.remember (h : Safe window m k v t) (hk : k ≠ k') :
    Safe window (m.remember k' v') k v t := by
  rcases h with ⟨h, ht⟩ | ⟨h, ht⟩
  · exact .inl ⟨by simp [remember_cur, hk, h], ht⟩
  · refine .inr ⟨?_, ht⟩
    simpa [find, remember_cur, hk, Memory.remember] using h

theorem Held.remember (h : Held window m k v t) (hk : k ≠ k') :
    Held window (m.remember k' v') k v t := by
  rcases h with h | h
  · exact .inl (h.remember hk)
  · exact .inr h

theorem Held.again (h : Held window m k v t) : Held window (m.remember k v') k v' t := by
  rcases h with (⟨-, ht⟩ | ⟨-, ht⟩) | h
  · exact .inl (.inl ⟨by simp [remember_cur], ht⟩)
  · exact .inl (.inl ⟨by simp [remember_cur], by simp only [remember_rotated]; omega⟩)
  · exact .inr h

theorem held_remember (hw : 0 < window) (ht : t ≤ m.rotated + window) :
    Held window (m.remember k v) k v t :=
  .inl (.inl ⟨by simp [remember_cur], by simp only [remember_rotated]; omega⟩)

theorem Aged.remember {touched : K → ℕ → Prop} (h : Aged window touched m)
    (ht : touched k t) (hle : m.rotated ≤ t) : Aged window touched (m.remember k v) := by
  refine ⟨fun k' hk' => ?_, h.old⟩
  rw [remember_cur] at hk'
  by_cases hk : k' = k
  · subst hk
    exact ⟨t, ht, hle⟩
  · rw [if_neg hk] at hk'
    exact h.cur k' hk'

end Memory

end SukkalMsg.TwoGenerations
