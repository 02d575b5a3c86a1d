import Mathlib.Data.List.Infix
import SukkalMsg.ActionRuns

/-!
# Windows on growing sequences

A window holds the end of a sequence: how many items lie in front of it, and the
items from there on. The sequence grows at its end, the window loses items at its
front, and what both ends allow is one relation between windows. An account tells
what the windows showed; kept along a run it is exact at every state, and at the end
it tells them all.
-/

namespace SukkalMsg.Windows

open ActionRuns

universe u v w x

structure Window (α : Type u) where
  base : ℕ
  items : List α

namespace Window

variable {α : Type u} {h h' : List α} {w w' w'' : Window α}

/-- How far the sequence goes, as the window has it. -/
def last (w : Window α) : ℕ := w.base + w.items.length

theorem last_def (w : Window α) : w.last = w.base + w.items.length := rfl

/-- The window holds what the sequence has from its base on, up to its last. -/
structure Shows (h : List α) (w : Window α) : Prop where
  within : w.last ≤ h.length
  items : w.items <+: h.drop w.base

/-- The window holds all there is of the sequence from its base on. -/
structure Ends (h : List α) (w : Window α) : Prop where
  base : w.base ≤ h.length
  items : w.items = h.drop w.base

/-- What the next window has behind the last of this one. -/
def added (w w' : Window α) : List α := w'.items.drop (w.last - w'.base)

/-- Items were added behind the last, and others taken off the front. -/
structure Advances (w w' : Window α) : Prop where
  base : w.base ≤ w'.base
  grown : ∃ new, w'.base ≤ w.last + new.length ∧
    w'.items = (w.items ++ new).drop (w'.base - w.base)

theorem Ends.last_eq (he : Ends h w) : w.last = h.length := by
  have hb := he.base
  rw [last, he.items, List.length_drop]
  omega

theorem Ends.shows (he : Ends h w) : Shows h w :=
  ⟨Nat.le_of_eq he.last_eq, he.items ▸ List.prefix_rfl⟩

theorem Shows.mono (hs : Shows h w) (hh : h <+: h') : Shows h' w :=
  ⟨Nat.le_trans hs.within hh.length_le, hs.items.trans (hh.drop w.base)⟩

theorem Shows.getElem? (hs : Shows h w) {i : ℕ} {a : α} (ha : w.items[i]? = some a) :
    h[w.base + i]? = some a := by
  obtain ⟨rest, hrest⟩ := hs.items
  rw [← List.getElem?_drop, ← hrest, List.getElem?_append_left (List.getElem?_eq_some_iff.mp ha).1]
  exact ha

theorem Shows.part (hs : Shows h w) (k n : ℕ) :
    (w.items.drop k).take n <+: h.drop (w.base + k) := by
  rw [← List.drop_drop]
  exact (List.take_prefix n _).trans (hs.items.drop k)

namespace Advances

theorem refl (w : Window α) : Advances w w :=
  ⟨Nat.le_refl _, [], by simp [last], by simp⟩

theorem append (w : Window α) (new : List α) : Advances w ⟨w.base, w.items ++ new⟩ :=
  ⟨Nat.le_refl _, new, by simp [last, Nat.add_assoc], by simp⟩

theorem drop {b : ℕ} (hb : w.base ≤ b) (hl : b ≤ w.last) :
    Advances w ⟨b, w.items.drop (b - w.base)⟩ :=
  ⟨hb, [], by simpa using hl, by simp⟩

theorem trans (hw : Advances w w') (hw' : Advances w' w'') : Advances w w'' := by
  obtain ⟨hb, new, hl, hi⟩ := hw
  obtain ⟨hb', new', hl', hi'⟩ := hw'
  have hlen : w'.items.length = w.last + new.length - w'.base := by
    rw [hi, List.length_drop, List.length_append, last]
    omega
  refine ⟨Nat.le_trans hb hb', new ++ new', ?_, ?_⟩
  · rw [last] at hl'
    rw [List.length_append]
    omega
  · have hfit : w'.base - w.base ≤ (w.items ++ new).length := by
      rw [List.length_append]
      rw [last] at hl
      omega
    have hsum : w''.base - w.base = w'.base - w.base + (w''.base - w'.base) := by omega
    rw [hi', hi, ← List.drop_append_of_le_length hfit, List.drop_drop, List.append_assoc, hsum]

theorem last_le (hw : Advances w w') : w.last ≤ w'.last := by
  obtain ⟨hb, new, hl, hi⟩ := hw
  have hlen : w'.items.length = w.last + new.length - w'.base := by
    rw [hi, List.length_drop, List.length_append, last]
    omega
  rw [w'.last_def, hlen]
  omega

theorem getElem?_eq (hw : Advances w w') {n : ℕ} (hn : w'.base ≤ n) (hl : n < w.last) :
    w'.items[n - w'.base]? = w.items[n - w.base]? := by
  obtain ⟨hb, new, -, hi⟩ := hw
  have hsum : w'.base - w.base + (n - w'.base) = n - w.base := by omega
  rw [last] at hl
  rw [hi, List.getElem?_drop, hsum, List.getElem?_append_left (by omega)]

theorem added_eq (hw : Advances w w') (hb : w'.base ≤ w.last) {new : List α}
    (hnew : w'.items = (w.items ++ new).drop (w'.base - w.base)) : w.added w' = new := by
  have hbase := hw.base
  have hsum : w'.base - w.base + (w.last - w'.base) = w.items.length := by
    rw [last] at hb ⊢
    omega
  rw [added, hnew, List.drop_drop, hsum, List.drop_left]

theorem ends_added (hw : Advances w w') (hb : w'.base ≤ w.last) (he : Ends h w) :
    Ends (h ++ w.added w') w' := by
  have hall := hw
  obtain ⟨hbase, new, -, hi⟩ := hall
  rw [hw.added_eq hb hi]
  rw [he.last_eq] at hb
  refine ⟨by rw [List.length_append]; omega, ?_⟩
  have hsum : w'.base = w.base + (w'.base - w.base) := by omega
  rw [hi, he.items, ← List.drop_append_of_le_length he.base, List.drop_drop, ← hsum]

end Advances

end Window

/-- What is told of states by accounts: an account grows, and tells no less for it.
An exact account tells nothing but the state. -/
structure Telling (β : Type u) (σ : Type v) where
  grows : β → β → Prop
  refl : ∀ x, grows x x
  trans : ∀ {x y z}, grows x y → grows y z → grows x z
  tells : β → σ → Prop
  mono : ∀ {x y s}, grows x y → tells x s → tells y s

/-- The account of a run, kept step by step. -/
def history {β : Type u} {σ : Type v} {α : Type w} {ε : Type x} (exec : σ → α → List ε × σ)
    (next : β → σ → σ → β) : β → σ → List α → β
  | x, _, [] => x
  | x, s, a :: as => history exec next (next x s (exec s a).2) (exec s a).2 as

namespace Telling

variable {β : Type u} {σ : Type v} {α : Type w} {ε : Type x} (T : Telling β σ)
  {exec : σ → α → List ε × σ} {guard : List ε → σ → α → Prop} {next : β → σ → σ → β}
  {exact : β → σ → Prop}

/-- Where an exact account of each state goes on to one of the next, the account is
exact wherever the run has come, and tells every state from then back. -/
theorem run (htells : ∀ x s, exact x s → T.tells x s)
    (step : ∀ h s a x, guard h s a → exact x s →
      T.grows x (next x s (exec s a).2) ∧ exact (next x s (exec s a).2) (exec s a).2)
    {h : List ε} {s : σ} {as : List α} (ha : Along exec guard h s as) {x : β} (hx : exact x s) :
    T.grows x (history exec next x s as) ∧ ∀ before after, as = before ++ after →
      exact (history exec next x s before) (ActionRuns.run exec s before).2 ∧
        T.tells (history exec next x s as) (ActionRuns.run exec s before).2 := by
  induction as generalizing h s x with
  | nil =>
    refine ⟨T.refl x, fun before after hsplit => ?_⟩
    obtain ⟨rfl, -⟩ := List.append_eq_nil_iff.mp hsplit.symm
    exact ⟨hx, htells x s hx⟩
  | cons a as ih =>
    obtain ⟨hgrows, hnext⟩ := step h s a x ha.1 hx
    obtain ⟨hmore, hrest⟩ := ih ha.2 hnext
    refine ⟨T.trans hgrows hmore, fun before after hsplit => ?_⟩
    cases before with
    | nil => exact ⟨hx, T.mono (T.trans hgrows hmore) (htells x s hx)⟩
    | cons b before =>
      obtain ⟨rfl, htail⟩ := List.cons.inj hsplit
      exact hrest before after htail

end Telling

end SukkalMsg.Windows
