import SukkalMsg.PublishHandler

/-!
# The count behind the shape of an envelope

The visitor of an envelope counts the values it is told of in an `int`, and takes the first
two for the envelope itself. The count of the values it has seen comes round after `2 ^ 31`
of them, and a value without elements met from then on is taken for one of the first again.
-/

namespace SukkalMsg

open Binjson

/-- The visitor counts a value where it begins. -/
def Binjson.Callback.counted : Callback → Bool
  | .key | .arrayEnd | .objectEnd => false
  | _ => true

/-- A value without elements. -/
def Binjson.Callback.scalar : Callback → Bool
  | .key | .arrayEnd | .objectEnd | .arrayBegin _ | .objectBegin _ => false
  | _ => true

/-- How many values a visitor counts. -/
def countOf (cbs : List Callback) : ℕ := (cbs.filter Callback.counted).length

/-- From the `n`th value on there are none but containers. -/
def NoScalarFrom (n : ℕ) (cbs : List Callback) : Prop :=
  ∀ cb ∈ (cbs.filter Callback.counted).drop n, cb.scalar = false

/-- No value without elements is met when the count has come round. -/
def CountLasts (cbs : List Callback) : Prop := NoScalarFrom (2 ^ 31) cbs

instance (n : ℕ) (cbs : List Callback) : Decidable (NoScalarFrom n cbs) := by
  unfold NoScalarFrom
  infer_instance

instance (cbs : List Callback) : Decidable (CountLasts cbs) := by
  unfold CountLasts
  infer_instance

/-- The count after `n` values. -/
def seenAfter (n : ℕ) : ℤ := if n < 2 ^ 31 then n else n - 2 ^ 32

variable {cbs : List Callback} {cb : Callback} {n ok : ℕ}

theorem countOf_append (xs ys : List Callback) : countOf (xs ++ ys) = countOf xs + countOf ys := by
  simp only [countOf, List.filter_append, List.length_append]

theorem countOf_cons_of_pos (h : cb.counted = true) : countOf (cb :: cbs) = countOf cbs + 1 := by
  rw [countOf, List.filter_cons_of_pos h, List.length_cons, countOf]

theorem countOf_cons_of_neg (h : ¬ cb.counted = true) : countOf (cb :: cbs) = countOf cbs := by
  rw [countOf, List.filter_cons_of_neg h, countOf]

theorem countLasts_of_le (h : countOf cbs ≤ 2 ^ 31) : CountLasts cbs := by
  intro cb hcb
  rw [List.drop_eq_nil_of_le h] at hcb
  contradiction

theorem next_seenAfter (hn : n < 2 ^ 32) : Shape.next ⟨seenAfter n, ok⟩ = seenAfter (n + 1) := by
  simp only [Shape.next, seenAfter]
  split_ifs <;> push_cast <;> omega

theorem seenAfter_lt_two (hn : 2 ≤ n) (hlt : n < 2 ^ 32) : seenAfter n < 2 ↔ 2 ^ 31 ≤ n := by
  simp only [seenAfter]
  split_ifs <;> omega

theorem seenAfter_ne_zero (hn : 0 < n) (hlt : n < 2 ^ 32) : seenAfter n ≠ 0 := by
  simp only [seenAfter]
  split_ifs <;> omega

theorem seenAfter_ne_one (hn : 2 ≤ n) (hlt : n < 2 ^ 32) : seenAfter n ≠ 1 := by
  simp only [seenAfter]
  split_ifs <;> omega

/-- What a value met after the first two does: it is counted, and a scalar spoils the shape when
the count has come round. -/
theorem shapeVisit_late (hcb : cb.counted = true) (hn : 2 ≤ n) (hlt : n < 2 ^ 32) :
    shapeVisit ⟨seenAfter n, ok⟩ cb =
      ⟨seenAfter (n + 1), if cb.scalar = true ∧ 2 ^ 31 ≤ n then 0 else ok⟩ := by
  have hzero := seenAfter_ne_zero (by omega : 0 < n) hlt
  have hone := seenAfter_ne_one hn hlt
  have htwo := seenAfter_lt_two hn hlt
  have hnext : Shape.next ⟨seenAfter n, ok⟩ = _ := next_seenAfter hlt
  cases cb <;>
    simp [shapeVisit, Callback.counted, Callback.scalar, hzero, hone, htwo, hnext] at hcb ⊢

theorem shapeVisit_uncounted (hcb : cb.counted = false) (s : Shape) : shapeVisit s cb = s := by
  cases cb <;> simp [shapeVisit, Callback.counted] at hcb ⊢

theorem noScalarFrom_cons (hcb : cb.counted = true) :
    NoScalarFrom (2 ^ 31 - n) (cb :: cbs) ↔
      ¬ (cb.scalar = true ∧ 2 ^ 31 ≤ n) ∧ NoScalarFrom (2 ^ 31 - (n + 1)) cbs := by
  simp only [NoScalarFrom, List.filter_cons_of_pos hcb]
  by_cases hn : 2 ^ 31 ≤ n
  · have hzero : 2 ^ 31 - n = 0 := by omega
    have hzero' : 2 ^ 31 - (n + 1) = 0 := by omega
    rw [hzero, hzero', List.drop_zero, List.drop_zero]
    simp only [List.forall_mem_cons, hn, and_true, Bool.not_eq_true]
  · obtain ⟨m, hm⟩ : ∃ m, 2 ^ 31 - n = m + 1 := ⟨2 ^ 31 - (n + 1), by omega⟩
    have hm' : 2 ^ 31 - (n + 1) = m := by omega
    rw [hm, hm', List.drop_succ_cons]
    simp only [hn, and_false, not_false_eq_true, true_and]

/-- After the first two values the shape is settled, unless a scalar comes too late. -/
theorem shape_settled (hn : 2 ≤ n)
    (hlen : n + countOf cbs ≤ 2 ^ 32) :
    (cbs.foldl shapeVisit ⟨seenAfter n, ok⟩).ok =
      if NoScalarFrom (2 ^ 31 - n) cbs then ok else 0 := by
  induction cbs generalizing n ok with
  | nil => simp [NoScalarFrom]
  | cons cb cbs ih =>
    rw [List.foldl_cons]
    cases hcb : cb.counted with
    | false =>
      have hneg : ¬ cb.counted = true := by simp [hcb]
      rw [countOf_cons_of_neg hneg] at hlen
      rw [shapeVisit_uncounted hcb, ih hn hlen]
      simp only [NoScalarFrom, List.filter_cons_of_neg hneg]
    | true =>
      rw [countOf_cons_of_pos hcb] at hlen
      rw [shapeVisit_late hcb hn (by omega), ih (by omega) (by omega)]
      have hcons : NoScalarFrom (2 ^ 31 - n) (cb :: cbs) ↔ _ := noScalarFrom_cons hcb
      by_cases hlate : cb.scalar = true ∧ 2 ^ 31 ≤ n
      · rw [if_pos hlate, ite_self, if_neg fun h => (hcons.mp h).1 hlate]
      · rw [if_neg hlate]
        exact if_congr (hcons.trans (and_iff_right hlate)).symm rfl rfl

theorem shape_spoiled (hn : 0 < n)
    (hlen : n + countOf cbs ≤ 2 ^ 32) :
    (cbs.foldl shapeVisit ⟨seenAfter n, 0⟩).ok = 0 := by
  induction cbs generalizing n with
  | nil => rfl
  | cons cb cbs ih =>
    rw [List.foldl_cons]
    cases hcb : cb.counted with
    | false =>
      rw [countOf_cons_of_neg (by simp [hcb])] at hlen
      rw [shapeVisit_uncounted hcb, ih hn hlen]
    | true =>
      rw [countOf_cons_of_pos hcb] at hlen
      have hlt : n < 2 ^ 32 := by omega
      have hstep : shapeVisit ⟨seenAfter n, 0⟩ cb = ⟨seenAfter (n + 1), 0⟩ := by
        have hzero := seenAfter_ne_zero hn hlt
        have hnext : Shape.next ⟨seenAfter n, 0⟩ = _ := next_seenAfter hlt
        cases cb <;> simp [shapeVisit, Callback.counted, hzero, hnext] at hcb ⊢
      rw [hstep, ih (by omega) (by omega)]

theorem shape_pair {m : ℕ} (hlen : countOf (.arrayBegin 2 :: .objectBegin m :: cbs) ≤ 2 ^ 32) :
    ((Callback.arrayBegin 2 :: .objectBegin m :: cbs).foldl shapeVisit ⟨0, 0⟩).ok =
      if CountLasts (.arrayBegin 2 :: .objectBegin m :: cbs) then 2 else 0 := by
  rw [countOf_cons_of_pos rfl, countOf_cons_of_pos rfl] at hlen
  have hstart : (Callback.arrayBegin 2 :: .objectBegin m :: cbs).foldl shapeVisit ⟨0, 0⟩ =
      cbs.foldl shapeVisit ⟨seenAfter 2, 2⟩ := rfl
  have hlasts : CountLasts (.arrayBegin 2 :: .objectBegin m :: cbs) ↔
      NoScalarFrom (2 ^ 31 - 2) cbs := by
    refine ((noScalarFrom_cons (n := 0) rfl).trans (and_iff_right (by simp))).trans ?_
    exact (noScalarFrom_cons (n := 1) rfl).trans (and_iff_right (by simp))
  rw [hstart, shape_settled (Nat.le_refl 2) (by omega)]
  exact if_congr hlasts.symm rfl rfl

end SukkalMsg
