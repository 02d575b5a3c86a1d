import Mathlib.Data.List.Nodup

/-!
# Scans that rotate

A scan begins at a cursor, visits the slots of a table from there on, wraps around
and ends before the cursor. The table may grow by a slot at a time, at its end,
while it is scanned and between scans. A scan that stops at a slot moves the cursor
right behind it. `Ahead r j i` says that a scan from `r` comes by `i` before `j`.
-/

namespace SukkalMsg.RoundRobin

/-- From the cursor `r` the slot `i` comes before the slot `j`, whatever the table's size. -/
def Ahead (r j i : ℕ) : Prop := if r ≤ j then r ≤ i ∧ i < j else r ≤ i ∨ i < j

instance (r j i : ℕ) : Decidable (Ahead r j i) :=
  inferInstanceAs (Decidable (if r ≤ j then r ≤ i ∧ i < j else r ≤ i ∨ i < j))

/-- The slot of the turn `n` of a scan from `r`. -/
def slot (size r n : ℕ) : ℕ := (r + n) % size

/-- At the turn `n` the slot `j` is still to come. -/
def Pending (size r n j : ℕ) : Prop := r + n ≤ j ∨ (j < r ∧ r + n ≤ size + j)

/-- By the turn `n` the scan has come by the slot `j`; it may come by it again at this very turn. -/
def Behind (size r n j : ℕ) : Prop := r ≤ j ∧ j < r + n ∨ j < r ∧ size + j ≤ r + n

variable {size size' r j i n : ℕ}

theorem pending_zero (hr : r < size) : Pending size r 0 j := by
  simp only [Pending]
  omega

theorem slot_lt (hr : r < size) : slot size r n < size :=
  Nat.mod_lt _ (Nat.lt_of_le_of_lt (Nat.zero_le r) hr)

theorem Pending.lt (h : Pending size r n j) (hj : j < size) : n < size := by
  simp only [Pending] at h
  omega

theorem slot_eq (hr : r < size) (hn : n < size) :
    slot size r n = if r + n < size then r + n else r + n - size := by
  simp only [slot]
  split
  · exact Nat.mod_eq_of_lt ‹_›
  · rw [Nat.mod_eq_sub_mod (by omega), Nat.mod_eq_of_lt (by omega)]

theorem Pending.slot (h : Pending size r n j) (hr : r < size) (hj : j < size) :
    RoundRobin.slot size r n = j ∨ Ahead r j (RoundRobin.slot size r n) := by
  rw [slot_eq hr (h.lt hj)]
  simp only [Pending] at h
  simp only [Ahead]
  split <;> split <;> omega

theorem pending_slot (hr : r < size) (hn : n < size) :
    Pending size r n (RoundRobin.slot size r n) := by
  rw [slot_eq hr hn]
  simp only [Pending]
  split <;> omega

/-- What is to come after the turn was to come before it, at another slot. -/
theorem Pending.back (h : Pending size r (n + 1) j) (hr : r < size) (hn : n < size) :
    Pending size r n j ∧ RoundRobin.slot size r n ≠ j := by
  rw [slot_eq hr hn]
  simp only [Pending] at h ⊢
  refine ⟨by omega, ?_⟩
  split <;> omega

theorem Pending.next (h : Pending size r n j) (hr : r < size) (hj : j < size)
    (hne : RoundRobin.slot size r n ≠ j) (hle : size ≤ size') (hgrow : size' ≤ size + 1) :
    Pending size' r (n + 1) j := by
  rw [slot_eq hr (h.lt hj)] at hne
  simp only [Pending] at h ⊢
  split at hne <;> omega

/-- A slot that does not come ahead of the turn's is still to come after it, also one that is
added then. -/
theorem Pending.of_not_ahead (hr : r < size) (hn : n < size)
    (hne : RoundRobin.slot size r n ≠ j) (h : ¬ Ahead r (RoundRobin.slot size r n) j)
    (hle : size ≤ size') : Pending size' r (n + 1) j := by
  rw [slot_eq hr hn] at hne h
  simp only [Pending]
  by_cases hwrap : r + n < size
  · rw [if_pos hwrap] at hne h
    rw [Ahead, if_pos (Nat.le_add_right r n)] at h
    omega
  · rw [if_neg hwrap] at hne h
    rw [Ahead, if_neg (by omega)] at h
    omega

theorem behind_slot (hr : r < size) (hn : n < size) (hgrow : size' ≤ size + 1) :
    Behind size' r (n + 1) (slot size r n) := by
  rw [slot_eq hr hn]
  simp only [Behind]
  split <;> omega

theorem Behind.next (h : Behind size r n j) (hgrow : size' ≤ size + 1) :
    Behind size' r (n + 1) j := by
  simp only [Behind] at h ⊢
  omega

/-- What the scan has come by comes ahead of the turn's slot, unless it is that slot. -/
theorem Behind.ahead (h : Behind size r n j) (hr : r < size) (hn : n < size)
    (hne : slot size r n ≠ j) : Ahead r (slot size r n) j := by
  rw [slot_eq hr hn] at hne ⊢
  simp only [Behind] at h
  by_cases hwrap : r + n < size
  · rw [if_pos hwrap] at hne ⊢
    rw [Ahead, if_pos (Nat.le_add_right r n)]
    omega
  · rw [if_neg hwrap] at hne ⊢
    rw [Ahead, if_neg (by omega)]
    omega

/-- The slot a scan stopped at is not ahead of the new cursor, and nothing comes
ahead of it that was not ahead before. -/
theorem Ahead.stop (h : Ahead r j i) (hi : i < size) (hj : j < size) :
    ¬ Ahead ((i + 1) % size) j i ∧ ∀ m, Ahead ((i + 1) % size) j m → Ahead r j m := by
  have hcursor : (i + 1) % size = i + 1 ∧ i + 1 < size ∨ (i + 1) % size = 0 ∧ i + 1 = size := by
    by_cases hlast : i + 1 < size
    · exact .inl ⟨Nat.mod_eq_of_lt hlast, hlast⟩
    · have heq : i + 1 = size := by omega
      exact .inr ⟨by rw [heq, Nat.mod_self], heq⟩
  generalize (i + 1) % size = cursor at hcursor
  simp only [Ahead] at h ⊢
  refine ⟨?_, fun m hm => ?_⟩
  · split <;> split at h <;> omega
  · split <;> split at h <;> split at hm <;> omega

/-- Scans that stopped at these slots, each before it came to `j`, and each from where
the one before it stopped. -/
inductive Picks (j : ℕ) : ℕ → List ℕ → Prop where
  | nil {r : ℕ} : Picks j r []
  | cons {r i size : ℕ} {is : List ℕ} (hi : i < size) (hj : j < size) (ahead : Ahead r j i)
      (rest : Picks j ((i + 1) % size) is) : Picks j r (i :: is)

namespace Picks

variable {is : List ℕ}

theorem ahead_of_mem (h : Picks j r is) : ∀ i ∈ is, Ahead r j i := by
  induction h with
  | nil => exact fun i hi => absurd hi List.not_mem_nil
  | cons hi hj ahead _ ih =>
    intro m hm
    rcases List.mem_cons.mp hm with rfl | hm
    · exact ahead
    · exact (ahead.stop hi hj).2 m (ih m hm)

theorem nodup (h : Picks j r is) : is.Nodup := by
  induction h with
  | nil => exact List.nodup_nil
  | cons hi hj ahead rest ih =>
    refine List.nodup_cons.mpr ⟨fun hm => ?_, ih⟩
    exact (ahead.stop hi hj).1 (rest.ahead_of_mem _ hm)

end Picks

end SukkalMsg.RoundRobin
