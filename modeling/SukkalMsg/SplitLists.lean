import Mathlib.Data.List.Infix

/-!
# Lists split at a separator

What the parts of a split list hold, when one of them is empty, and how a list that ends
with the separator, or is renamed, splits.
-/

namespace SukkalMsg.SplitLists

universe u v

variable {α : Type u} {β : Type v} [DecidableEq α] [DecidableEq β] {a x : α} {l t : List α}

theorem splitOn_cons (a x : α) (l : List α) :
    (x :: l).splitOn a = if x = a then [] :: l.splitOn a else (l.splitOn a).modifyHead (x :: ·) := by
  rw [List.splitOn_cons_eq_if_modifyHead]
  simp only [beq_iff_eq]

theorem exists_splitOn (a : α) (l : List α) : ∃ t ts, l.splitOn a = t :: ts :=
  List.exists_cons_of_ne_nil (List.splitOn_ne_nil a l)

theorem mem_of_mem_part (ht : t ∈ l.splitOn a) (hx : x ∈ t) : x ∈ l ∧ x ≠ a := by
  induction l generalizing t with
  | nil =>
    rw [List.splitOn_nil, List.mem_singleton] at ht
    subst ht
    contradiction
  | cons y l ih =>
    obtain ⟨u, us, hsplit⟩ := exists_splitOn a l
    rw [splitOn_cons] at ht
    split at ht
    · rcases List.mem_cons.mp ht with rfl | ht
      · contradiction
      · exact ⟨List.mem_cons_of_mem _ (ih ht hx).1, (ih ht hx).2⟩
    · rename_i hy
      rw [hsplit, List.modifyHead_cons] at ht
      rcases List.mem_cons.mp ht with rfl | ht
      · rcases List.mem_cons.mp hx with rfl | hx
        · exact ⟨List.mem_cons_self, hy⟩
        · have h := ih (hsplit ▸ List.mem_cons_self) hx
          exact ⟨List.mem_cons_of_mem _ h.1, h.2⟩
      · have h := ih (hsplit ▸ List.mem_cons_of_mem _ ht) hx
        exact ⟨List.mem_cons_of_mem _ h.1, h.2⟩

theorem mem_part_of_mem (hx : x ∈ l) (hne : x ≠ a) : ∃ t ∈ l.splitOn a, x ∈ t := by
  induction l with
  | nil => contradiction
  | cons y l ih =>
    obtain ⟨u, us, hsplit⟩ := exists_splitOn a l
    rw [splitOn_cons]
    split
    · rename_i hy
      rcases List.mem_cons.mp hx with rfl | hx
      · exact absurd hy hne
      · obtain ⟨t, ht, hxt⟩ := ih hx
        exact ⟨t, List.mem_cons_of_mem _ ht, hxt⟩
    · rw [hsplit, List.modifyHead_cons]
      rcases List.mem_cons.mp hx with rfl | hx
      · exact ⟨_, List.mem_cons_self, List.mem_cons_self⟩
      · obtain ⟨t, ht, hxt⟩ := ih hx
        rw [hsplit] at ht
        rcases List.mem_cons.mp ht with rfl | ht
        · exact ⟨_, List.mem_cons_self, List.mem_cons_of_mem _ hxt⟩
        · exact ⟨t, List.mem_cons_of_mem _ ht, hxt⟩

/-- The first part is empty where the list is, or begins with the separator. -/
theorem head_part_nil : (l.splitOn a).head? = some [] ↔ l = [] ∨ l.head? = some a := by
  cases l with
  | nil => simp
  | cons y l =>
    obtain ⟨u, us, hsplit⟩ := exists_splitOn a l
    rw [splitOn_cons, hsplit]
    split <;> simp_all

/-- Another part is empty where the list ends with the separator, or repeats it. -/
theorem nil_mem_tail_parts :
    [] ∈ (l.splitOn a).tail ↔ l.getLast? = some a ∨ [a, a] <:+: l := by
  induction l with
  | nil => simp
  | cons y l ih =>
    obtain ⟨u, us, hsplit⟩ := exists_splitOn a l
    have hhead := head_part_nil (a := a) (l := l)
    rw [splitOn_cons, List.infix_cons_iff]
    rw [hsplit] at ih hhead ⊢
    simp only [List.head?_cons, Option.some.injEq, List.tail_cons] at ih hhead
    by_cases hy : y = a
    · subst hy
      rw [if_pos rfl, List.tail_cons, List.mem_cons, ih, eq_comm, hhead]
      cases l with
      | nil => simp
      | cons z l =>
        simp only [List.getLast?_cons_cons, reduceCtorEq, false_or, List.head?_cons,
          Option.some.injEq, List.cons_prefix_cons, List.nil_prefix, and_true, true_and]
        constructor
        · rintro (rfl | h | h)
          · exact .inr (.inl rfl)
          · exact .inl h
          · exact .inr (.inr h)
        · rintro (h | rfl | h)
          · exact .inr (.inl h)
          · exact .inl rfl
          · exact .inr (.inr h)
    · rw [if_neg hy, List.modifyHead_cons, List.tail_cons, ih]
      have hpre : ¬ [a, a] <+: y :: l := fun h => hy (List.cons_prefix_cons.mp h).1.symm
      cases l with
      | nil => simp [hy, hpre]
      | cons z l => simp [hpre]

theorem nil_mem_parts : [] ∈ l.splitOn a ↔
    l = [] ∨ l.head? = some a ∨ l.getLast? = some a ∨ [a, a] <:+: l := by
  obtain ⟨u, us, hsplit⟩ := exists_splitOn a l
  have hhead := head_part_nil (a := a) (l := l)
  have htail := nil_mem_tail_parts (a := a) (l := l)
  rw [hsplit] at hhead htail ⊢
  simp only [List.head?_cons, Option.some.injEq, List.tail_cons] at hhead htail
  rw [List.mem_cons, htail, eq_comm, hhead, or_assoc]

theorem splitOn_concat (a : α) (l : List α) : (l ++ [a]).splitOn a = l.splitOn a ++ [[]] := by
  rw [List.splitOn_append_cons_self, List.splitOn_nil]

/-- Renaming the elements renames the parts, if nothing else becomes the separator. -/
theorem splitOn_map {f : α → β} (h : ∀ x, f x = f a → x = a) (l : List α) :
    (l.map f).splitOn (f a) = (l.splitOn a).map (List.map f) := by
  induction l with
  | nil => simp
  | cons y l ih =>
    obtain ⟨u, us, hsplit⟩ := exists_splitOn a l
    rw [List.map_cons, splitOn_cons, splitOn_cons, ih, hsplit]
    by_cases hy : y = a
    · subst hy
      simp
    · have hfy : ¬ f y = f a := fun hf => hy (h y hf)
      simp [hy, hfy]

end SukkalMsg.SplitLists
