import Mathlib.Data.List.Basic

/-!
# Tables of bounded capacity

A table is an array of fixed capacity and a count of the rows in use, so it never
holds more rows than it has room for. Removing a row moves the last one into its
place: the rows before it keep their positions, the rest are the same up to order.
-/

namespace SukkalMsg

universe u

structure BoundedTable (α : Type u) (cap : ℕ) where
  rows : List α
  fits : rows.length ≤ cap
  deriving DecidableEq

namespace BoundedTable

variable {α : Type u} {cap : ℕ}

def empty : BoundedTable α cap := ⟨[], Nat.zero_le _⟩

def count (t : BoundedTable α cap) : ℕ := t.rows.length

/-- Add a row at the end; a full table ignores it. -/
def add (t : BoundedTable α cap) (a : α) : BoundedTable α cap :=
  if h : t.rows.length < cap then ⟨t.rows ++ [a], by rw [List.length_append]; exact h⟩ else t

/-- Add a row at the end; a full table first drops its oldest. -/
def addEvicting (t : BoundedTable α cap) (a : α) : BoundedTable α cap :=
  ⟨(t.rows ++ [a]).drop (t.rows.length + 1 - cap), by simp; omega⟩

def set (t : BoundedTable α cap) (i : ℕ) (a : α) : BoundedTable α cap :=
  ⟨t.rows.set i a, by simpa using t.fits⟩

/-- Overwrite row `i` with the last row and drop the last one. -/
def removeRow (rows : List α) (i : ℕ) : List α :=
  match rows.getLast? with
  | none => []
  | some last => (rows.set i last).dropLast

theorem length_removeRow (rows : List α) (i : ℕ) :
    (removeRow rows i).length = rows.length - 1 := by
  rcases List.eq_nil_or_concat rows with rfl | ⟨init, last, rfl⟩
  · rfl
  · simp [removeRow]

def swapRemove (t : BoundedTable α cap) (i : ℕ) : BoundedTable α cap :=
  ⟨removeRow t.rows i, by have := t.fits; rw [length_removeRow]; omega⟩

@[simp] theorem empty_rows : (empty : BoundedTable α cap).rows = [] := rfl

theorem ext {t t' : BoundedTable α cap} (h : t.rows = t'.rows) : t = t' := by
  cases t
  cases t'
  simpa using h

theorem add_rows {t : BoundedTable α cap} (h : t.rows.length < cap) (a : α) :
    (t.add a).rows = t.rows ++ [a] := by
  simp [add, h]

theorem set_rows {t : BoundedTable α cap} {pre suf : List α} {x : α}
    (h : t.rows = pre ++ x :: suf) (a : α) : (t.set pre.length a).rows = pre ++ a :: suf := by
  simp [set, h]

/-- The last row moves to the front. -/
def lastFirst (rows : List α) : List α :=
  match rows.getLast? with
  | none => []
  | some last => last :: rows.dropLast

theorem lastFirst_perm (rows : List α) : (lastFirst rows).Perm rows := by
  rcases List.eq_nil_or_concat rows with rfl | ⟨init, last, rfl⟩
  · exact .refl _
  · rw [List.concat_eq_append]
    simp only [lastFirst, List.getLast?_concat, List.dropLast_concat]
    exact (List.perm_append_singleton last init).symm

/-- The last of the rows that follow moves into the place of the one removed. -/
theorem removeRow_lastFirst (pre suf : List α) (x : α) :
    removeRow (pre ++ x :: suf) pre.length = pre ++ lastFirst suf := by
  rcases List.eq_nil_or_concat suf with rfl | ⟨init, last, hsuf⟩
  · simp [removeRow, lastFirst]
  · rw [List.concat_eq_append] at hsuf
    subst hsuf
    have hlast : (pre ++ x :: (init ++ [last])).getLast? = some last := by
      rw [← List.cons_append, ← List.append_assoc, List.getLast?_concat]
    have hset : (pre ++ x :: (init ++ [last])).set pre.length last =
        (pre ++ last :: init) ++ [last] := by simp
    simp only [removeRow, hlast, hset, List.dropLast_concat, lastFirst, List.getLast?_concat]

/-- Removing a row keeps what stands before it and permutes what follows. -/
theorem removeRow_split (pre suf : List α) (x : α) :
    ∃ suf', removeRow (pre ++ x :: suf) pre.length = pre ++ suf' ∧ suf'.Perm suf :=
  ⟨lastFirst suf, removeRow_lastFirst pre suf x, lastFirst_perm suf⟩

theorem swapRemove_rows {t : BoundedTable α cap} {pre suf : List α} {x : α}
    (h : t.rows = pre ++ x :: suf) :
    ∃ suf', (t.swapRemove pre.length).rows = pre ++ suf' ∧ suf'.Perm suf := by
  simp only [swapRemove, h]
  exact removeRow_split pre suf x

end BoundedTable

end SukkalMsg
