import Mathlib.Data.List.Perm.Basic

/-!
# A sweep over keys, each turn at a cell of its own

A sweep takes a turn at every key of a list. A turn is local when it reads and
writes one cell of the state, the key's own, and keeps what the turns share. Then
the sweep does at every key what its turn would have done first, and the order of
the keys does not matter.
-/

namespace SukkalMsg.KeyedSweep

universe u v w

variable {σ : Type u} {κ : Type v} {ν : Type w}

/-- The turn at a key of the list changes the key's own cell, from what it held. -/
structure Local (cell : σ → κ → ν) (keep : σ → Prop) (key : κ → Prop) (step : σ → κ → σ)
    (turn : κ → ν → ν) : Prop where
  keeps : ∀ s k, keep s → key k → keep (step s k)
  own : ∀ s k, keep s → key k → cell (step s k) k = turn k (cell s k)
  other : ∀ s k k', keep s → key k → k' ≠ k → cell (step s k) k' = cell s k'

namespace Local

variable {cell : σ → κ → ν} {keep : σ → Prop} {key : κ → Prop} {step : σ → κ → σ}
  {turn : κ → ν → ν} {l l' : List κ} {s : σ} {k : κ}

theorem foldl_keeps (h : Local cell keep key step turn) (hs : keep s) (hl : ∀ k ∈ l, key k) :
    keep (l.foldl step s) := by
  induction l generalizing s with
  | nil => exact hs
  | cons k l ih =>
    obtain ⟨hk, hl⟩ := List.forall_mem_cons.mp hl
    exact ih (h.keeps s k hs hk) hl

theorem foldl_not_mem (h : Local cell keep key step turn) (hs : keep s) (hl : ∀ k ∈ l, key k)
    (hk : k ∉ l) : cell (l.foldl step s) k = cell s k := by
  induction l generalizing s with
  | nil => rfl
  | cons k' l ih =>
    obtain ⟨hk', hl⟩ := List.forall_mem_cons.mp hl
    obtain ⟨hne, hnot⟩ := not_or.mp fun hor => hk (List.mem_cons.mpr hor)
    exact (ih (h.keeps s k' hs hk') hl hnot).trans (h.other s k' k hs hk' hne)

theorem foldl_mem (h : Local cell keep key step turn) (hs : keep s) (hl : ∀ k ∈ l, key k)
    (hnd : l.Nodup) (hk : k ∈ l) : cell (l.foldl step s) k = turn k (cell s k) := by
  induction l generalizing s with
  | nil => contradiction
  | cons k' l ih =>
    obtain ⟨hk', hrest⟩ := List.forall_mem_cons.mp hl
    obtain ⟨hnot, hnd'⟩ := List.nodup_cons.mp hnd
    have hnext := h.keeps s k' hs hk'
    rw [List.foldl_cons]
    by_cases heq : k = k'
    · subst heq
      exact (h.foldl_not_mem hnext hrest hnot).trans (h.own s k hs hk')
    · have hmem : k ∈ l := (List.mem_cons.mp hk).resolve_left heq
      rw [ih hnext hrest hnd' hmem, h.other s k' k hs hk' heq]

/-- What is tallied at each turn is tallied from the start's cells. -/
theorem foldl_tally {τ : Type*} {α : Type*} (store : τ → σ) (tally : τ → α)
    (acc : α → κ → ν → α) (step' : τ → κ → τ) (h : Local cell keep key step turn)
    (hstep : ∀ t k, keep (store t) → key k → store (step' t k) = step (store t) k ∧
      tally (step' t k) = acc (tally t) k (cell (store t) k))
    (t : τ) (hs : keep (store t)) (hl : ∀ k ∈ l, key k) (hnd : l.Nodup) :
    store (l.foldl step' t) = l.foldl step (store t) ∧
      tally (l.foldl step' t) = l.foldl (fun a k => acc a k (cell (store t) k)) (tally t) := by
  induction l generalizing t with
  | nil => exact ⟨rfl, rfl⟩
  | cons k l ih =>
    obtain ⟨hk, hrest⟩ := List.forall_mem_cons.mp hl
    obtain ⟨hnot, hnd'⟩ := List.nodup_cons.mp hnd
    obtain ⟨hst, hta⟩ := hstep t k hs hk
    have hnext : keep (store (step' t k)) := hst ▸ h.keeps _ k hs hk
    have hsame : ∀ a, l.foldl (fun a k' => acc a k' (cell (store (step' t k)) k')) a =
        l.foldl (fun a k' => acc a k' (cell (store t) k')) a := by
      intro a
      apply List.foldl_ext
      intro a k' hk'
      have hne : k' ≠ k := by
        rintro rfl
        exact hnot hk'
      rw [hst, h.other _ k k' hs hk hne]
    obtain ⟨hst', hta'⟩ := ih (step' t k) hnext hrest hnd'
    simp only [List.foldl_cons]
    exact ⟨by rw [hst', hst], by rw [hta', hta, hsame]⟩

theorem foldl_perm (h : Local cell keep key step turn)
    (hext : ∀ a b, keep a → keep b → (∀ k, cell a k = cell b k) → a = b) (hs : keep s)
    (hl : ∀ k ∈ l, key k) (hnd : l.Nodup) (hp : l.Perm l') : l.foldl step s = l'.foldl step s := by
  have hl' : ∀ k ∈ l', key k := fun k hk => hl k (hp.mem_iff.mpr hk)
  have hnd' : l'.Nodup := hp.nodup_iff.mp hnd
  refine hext _ _ (h.foldl_keeps hs hl) (h.foldl_keeps hs hl') fun k => ?_
  by_cases hk : k ∈ l
  · rw [h.foldl_mem hs hl hnd hk, h.foldl_mem hs hl' hnd' (hp.mem_iff.mp hk)]
  · rw [h.foldl_not_mem hs hl hk, h.foldl_not_mem hs hl' fun hk' => hk (hp.mem_iff.mpr hk')]

end Local

end SukkalMsg.KeyedSweep
