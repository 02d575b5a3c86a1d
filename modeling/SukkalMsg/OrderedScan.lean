import Mathlib.Data.List.Basic

/-!
# Inclusive range scans of an ordered map

An ordered map is searched by key and scanned between two keys, both included.
When the keys are words over an ordered alphabet and `b'` is the letter right
after `b`, the scan from `s b` to `s b'` sees exactly the words that extend
`s b`, and the one word `s b'`.
-/

namespace SukkalMsg.OrderedScan

open Std

universe u v

variable {α : Type u} {β : Type v} [Ord α] [TransOrd α] [LawfulEqOrd α]

/-- The entries of `t` whose key lies between `lo` and `hi`, in key order. -/
def scan (t : ExtTreeMap α β) (lo hi : α) : List (α × β) :=
  t.toList.filter fun p => (compare lo p.1).isLE && (compare p.1 hi).isLE

theorem mem_scan {t : ExtTreeMap α β} {lo hi k : α} {v : β} :
    (k, v) ∈ scan t lo hi ↔
      t[k]? = some v ∧ (compare lo k).isLE = true ∧ (compare k hi).isLE = true := by
  simp [scan, ExtTreeMap.mem_toList_iff_getElem?_eq_some]

theorem getElem?_insert {t : ExtTreeMap α β} {k a : α} {v : β} [DecidableEq α] :
    (t.insert k v)[a]? = if k = a then some v else t[a]? := by
  simp [ExtTreeMap.getElem?_insert]

theorem getElem?_erase {t : ExtTreeMap α β} {k a : α} [DecidableEq α] :
    (t.erase k)[a]? = if k = a then none else t[a]? := by
  simp [ExtTreeMap.getElem?_erase]

/-- Writing back what a key already holds changes nothing. -/
theorem insert_eq_self {t : ExtTreeMap α β} {k : α} {v : β} (h : t[k]? = some v) :
    t.insert k v = t := by
  apply ExtTreeMap.ext_getElem?
  intro a
  by_cases ha : compare k a = .eq
  · obtain rfl := LawfulEqOrd.eq_of_compare ha
    simp [h]
  · simp [ExtTreeMap.getElem?_insert, ha]

/-- A map lists every key once. -/
theorem keys_nodup (t : ExtTreeMap α β) : (t.toList.map Prod.fst).Nodup := by
  rw [List.nodup_iff_pairwise_ne, List.pairwise_map]
  refine t.distinct_keys_toList.imp fun h heq => h ?_
  rw [heq]
  exact ReflOrd.compare_self

theorem scan_keys_nodup (t : ExtTreeMap α β) (lo hi : α) :
    ((scan t lo hi).map Prod.fst).Nodup :=
  (keys_nodup t).sublist (List.filter_sublist.map Prod.fst)

private theorem then_isLE {o o' : Ordering} :
    (o.then o').isLE = true ↔ o = .lt ∨ (o = .eq ∧ o'.isLE = true) := by
  cases o <;> simp

private theorem eq_of_both_le {a x : α} (h : (compare a x).isLE = true)
    (h' : (compare x a).isLE = true) : a = x := by
  rw [OrientedOrd.eq_swap (a := x) (b := a)] at h'
  apply LawfulEqOrd.eq_of_compare
  cases hc : compare a x <;> simp_all

/-- The words between `s b` and `s b'` are the extensions of `s b`, and `s b'`. -/
theorem between_iff_extends {b b' : α} (hlt : compare b b' = .lt)
    (hnext : ∀ x, (compare b x).isLE = true → compare x b' = .lt → x = b)
    (s k : List α) :
    ((compare (s ++ [b]) k).isLE = true ∧ (compare k (s ++ [b'])).isLE = true) ↔
      s ++ [b] <+: k ∨ k = s ++ [b'] := by
  induction s generalizing k with
  | nil =>
    cases k with
    | nil => simp [List.compare_cons_nil]
    | cons x xs =>
      simp only [List.nil_append, List.compare_cons_cons, then_isLE, List.cons_prefix_cons,
        List.nil_prefix, and_true, List.cons.injEq]
      constructor
      · rintro ⟨hlo, hhi⟩
        have hbx : (compare b x).isLE = true := by
          rcases hlo with h | ⟨h, -⟩ <;> simp [h]
        rcases hhi with h | ⟨h, hxs⟩
        · exact .inl (hnext x hbx h).symm
        · refine .inr ⟨LawfulEqOrd.eq_of_compare h, ?_⟩
          cases xs with
          | nil => rfl
          | cons y ys => simp [List.compare_cons_nil] at hxs
      · rintro (rfl | ⟨rfl, rfl⟩)
        · exact ⟨.inr ⟨ReflOrd.compare_self, by cases xs <;> rfl⟩, .inl hlt⟩
        · exact ⟨.inl hlt, .inr ⟨ReflOrd.compare_self, rfl⟩⟩
  | cons a s ih =>
    cases k with
    | nil => simp [List.compare_cons_nil]
    | cons x xs =>
      simp only [List.cons_append, List.compare_cons_cons, then_isLE, List.cons_prefix_cons,
        List.cons.injEq]
      by_cases hax : a = x
      · subst hax
        simp [ReflOrd.compare_self, ih]
      · simp only [hax, false_and, false_or, Ne.symm hax, false_and, iff_false, not_and]
        intro hlo hhi
        apply hax
        apply eq_of_both_le
        · rcases hlo with h | ⟨h, -⟩ <;> simp [h]
        · rcases hhi with h | ⟨h, -⟩ <;> simp [h]

end SukkalMsg.OrderedScan
