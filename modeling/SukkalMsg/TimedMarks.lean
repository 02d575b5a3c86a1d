import Mathlib.Data.List.Basic

/-!
# Marks on a timed history

A history numbers its entries upwards, at times that do not go back. Some of them are
marked: a mark is an entry of the history, its number and its time. Whatever is done
to the marks, by way of dropping some and adding the newest entry, they stay in order,
and everything numbered up to a mark is as old as the mark, or older.

Sparse marking takes the first entry, and then each that comes an interval after the
last one taken.
-/

namespace SukkalMsg.TimedMarks

/-- One entry comes after another. -/
def Later (a b : ℕ × ℕ) : Prop := a.1 < b.1 ∧ a.2 ≤ b.2

/-- The entries of a history, oldest first. -/
def Timeline (h : List (ℕ × ℕ)) : Prop := h.Pairwise Later

variable {h m : List (ℕ × ℕ)} {a b e : ℕ × ℕ}

namespace Timeline

theorem snoc (hh : Timeline h) (he : ∀ a ∈ h, Later a e) : Timeline (h ++ [e]) := by
  refine List.pairwise_append.mpr ⟨hh, List.pairwise_singleton _ _, fun a ha b hb => ?_⟩
  obtain rfl := List.mem_singleton.mp hb
  exact he a ha

theorem sublist (hh : Timeline h) (hm : m.Sublist h) : Timeline m := List.Pairwise.sublist hm hh

/-- What is numbered up to an entry is no younger. -/
theorem time_le (hh : Timeline h) (ha : a ∈ h) (hb : b ∈ h) (hle : b.1 ≤ a.1) : b.2 ≤ a.2 := by
  induction h with
  | nil => contradiction
  | cons c h ih =>
    obtain ⟨hc, hrest⟩ := List.pairwise_cons.mp hh
    rcases List.mem_cons.mp ha with rfl | ha'
    · rcases List.mem_cons.mp hb with rfl | hb'
      · exact Nat.le_refl _
      · have := (hc b hb').1
        omega
    · rcases List.mem_cons.mp hb with rfl | hb'
      · exact (hc a ha').2
      · exact ih hrest ha' hb'

end Timeline

/-- Marks laid out as numbers, two to a mark. -/
def laid : List (ℕ × ℕ) → List ℕ
  | [] => []
  | (i, t) :: m => i :: t :: laid m

/-- And read two at a time. -/
def pairs : List ℕ → List (ℕ × ℕ)
  | i :: t :: m => (i, t) :: pairs m
  | _ => []

@[simp] theorem pairs_laid (m : List (ℕ × ℕ)) : pairs (laid m) = m := by
  induction m with
  | nil => rfl
  | cons a m ih => simp only [laid, pairs, ih]

@[simp] theorem length_laid (m : List (ℕ × ℕ)) : (laid m).length = 2 * m.length := by
  induction m with
  | nil => rfl
  | cons a m ih =>
    simp only [laid, List.length_cons, ih]
    omega

theorem laid_append (m m' : List (ℕ × ℕ)) : laid (m ++ m') = laid m ++ laid m' := by
  induction m with
  | nil => rfl
  | cons a m ih => simp only [List.cons_append, laid, ih]

theorem laid_drop (m : List (ℕ × ℕ)) : (laid m).drop 2 = laid (m.drop 1) := by
  cases m <;> rfl

theorem mem_laid {n : ℕ} : n ∈ laid m ↔ ∃ a ∈ m, n = a.1 ∨ n = a.2 := by
  induction m with
  | nil => simp [laid]
  | cons a m ih => simp [laid, ih, or_assoc]

/-- The entries a marking takes, given the time of the last one taken; 0 is none. -/
def leadersFrom (interval : ℕ) : ℕ → List (ℕ × ℕ) → List (ℕ × ℕ)
  | _, [] => []
  | last, e :: h =>
    if last ≠ 0 ∧ e.2 - last < interval then leadersFrom interval last h
    else e :: leadersFrom interval e.2 h

def leaders (interval : ℕ) (h : List (ℕ × ℕ)) : List (ℕ × ℕ) := leadersFrom interval 0 h

/-- The time of the last mark, 0 when there is none. -/
def lastTime (last : ℕ) (m : List (ℕ × ℕ)) : ℕ := (m.getLast?.map Prod.snd).getD last

theorem leadersFrom_snoc (interval last : ℕ) (h : List (ℕ × ℕ)) (e : ℕ × ℕ) :
    leadersFrom interval last (h ++ [e]) = leadersFrom interval last h ++
      if lastTime last (leadersFrom interval last h) ≠ 0 ∧
        e.2 - lastTime last (leadersFrom interval last h) < interval then [] else [e] := by
  induction h generalizing last with
  | nil =>
    simp only [List.nil_append, leadersFrom, lastTime, List.getLast?_nil, Option.map_none,
      Option.getD_none]
    rfl
  | cons c h ih =>
    simp only [List.cons_append, leadersFrom]
    split
    · exact ih last
    · have hlast : lastTime last (c :: leadersFrom interval c.2 h) =
          lastTime c.2 (leadersFrom interval c.2 h) := by
        simp only [lastTime, List.getLast?_cons]
        cases (leadersFrom interval c.2 h).getLast? <;> rfl
      rw [ih c.2, hlast, List.cons_append]

theorem leaders_snoc (interval : ℕ) (h : List (ℕ × ℕ)) (e : ℕ × ℕ) :
    leaders interval (h ++ [e]) = leaders interval h ++
      if lastTime 0 (leaders interval h) ≠ 0 ∧
        e.2 - lastTime 0 (leaders interval h) < interval then [] else [e] :=
  leadersFrom_snoc interval 0 h e

theorem leadersFrom_sublist (interval last : ℕ) (h : List (ℕ × ℕ)) :
    (leadersFrom interval last h).Sublist h := by
  induction h generalizing last with
  | nil => exact .slnil
  | cons e h ih =>
    simp only [leadersFrom]
    split
    · exact (ih last).cons e
    · exact (ih e.2).cons_cons e

theorem leaders_sublist (interval : ℕ) (h : List (ℕ × ℕ)) : (leaders interval h).Sublist h :=
  leadersFrom_sublist interval 0 h

theorem lastTime_snoc (last : ℕ) (m : List (ℕ × ℕ)) (e : ℕ × ℕ) :
    lastTime last (m ++ [e]) = e.2 := by
  simp [lastTime]

theorem lastTime_mem (last : ℕ) (m : List (ℕ × ℕ)) :
    lastTime last m = last ∨ ∃ a ∈ m, lastTime last m = a.2 := by
  cases hm : m.getLast? with
  | none => exact .inl (by simp [lastTime, hm])
  | some a => exact .inr ⟨a, List.mem_of_getLast? hm, by simp [lastTime, hm]⟩

/-- What is numbered above a number comes last. -/
theorem Timeline.above_suffix (hh : Timeline h) (n : ℕ) :
    (h.filter fun a => n < a.1) <:+ h := by
  induction h with
  | nil => exact List.suffix_refl _
  | cons a h ih =>
    obtain ⟨ha, hrest⟩ := List.pairwise_cons.mp hh
    by_cases hn : n < a.1
    · have hall : ∀ b ∈ a :: h, n < b.1 := by
        intro b hb
        rcases List.mem_cons.mp hb with rfl | hb
        · exact hn
        · exact Nat.lt_trans hn (ha b hb).1
      have hsame := List.filter_eq_self.mpr fun b hb => decide_eq_true (hall b hb)
      exact ⟨[], by rw [hsame, List.nil_append]⟩
    · rw [List.filter_cons_of_neg (by simpa using hn)]
      exact (ih hrest).trans (List.suffix_cons a h)

/-- The last so many of some marks. -/
def newest (n : ℕ) (m : List (ℕ × ℕ)) : List (ℕ × ℕ) := m.drop (m.length - n)

theorem newest_sublist (n : ℕ) (m : List (ℕ × ℕ)) : (newest n m).Sublist m :=
  List.drop_sublist ..

theorem suffix_newest {n : ℕ} {m' : List (ℕ × ℕ)} (hs : m' <:+ m) (hlen : m'.length ≤ n) :
    m' <:+ newest n m := by
  have hle := hs.length_le
  refine List.suffix_of_suffix_length_le hs (List.drop_suffix _ m) ?_
  rw [newest, List.length_drop]
  omega

theorem newest_eq {n : ℕ} {m' : List (ℕ × ℕ)} (hs : m' <:+ m) (hlen : m'.length = n) :
    newest n m = m' := by
  refine ((suffix_newest hs (Nat.le_of_eq hlen)).eq_of_length_le ?_).symm
  rw [newest, List.length_drop]
  omega

theorem mem_newest_snoc {n : ℕ} (h : a ∈ newest n (m ++ [e])) : a ∈ newest n m ∨ a = e := by
  simp only [newest, List.length_append, List.length_singleton, List.drop_append] at h
  rcases List.mem_append.mp h with h | h
  · refine .inl ((List.drop_sublist_drop_left m ?_).mem h)
    omega
  · exact .inr (List.mem_singleton.mp (List.mem_of_mem_drop h))

end SukkalMsg.TimedMarks
