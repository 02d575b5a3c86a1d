import SukkalMsg.Policies

/-!
# What the limits of a policy propose

A policy's boundary is the highest of the boundaries its limits propose. The byte
limit knows the length of the file and how many messages it holds, but not what
each of them takes: it turns the excess into a count by the mean, rounded down.
-/

namespace SukkalMsg

open Std

def Vendor.Sized (V : Vendor) (header : ℕ) (size : Entry → ℕ) : Prop :=
  ∀ log, V.fileLen log = header + (log.entries.map size).sum

/-- A file with a header and a frame around each payload. -/
def Vendor.framed : Vendor where
  encode := fun _ => []
  callbacks := fun _ => none
  valueSize := fun _ => none
  batchCount := fun _ _ _ => 0
  fileLen := fun log => 8 + (log.entries.map fun e => e.payload.length + 8).sum

theorem Vendor.framed_sized : Vendor.framed.Sized 8 fun e => e.payload.length + 8 := fun _ => rfl

namespace Elog

variable {V : Vendor} {header : ℕ} {size : Entry → ℕ}

theorem length_eq (log : Elog) : log.last - log.base = log.entries.length := by
  simp only [last]
  omega

theorem fileLen_compact (hV : V.Sized header size) (log : Elog) (k : ℕ) :
    V.fileLen (log.compact (log.base + k)) + ((log.entries.take k).map size).sum =
      V.fileLen log := by
  have hsplit := congrArg (fun l => (l.map size).sum) (List.take_append_drop k log.entries)
  simp only [List.map_append, List.sum_append] at hsplit
  rw [hV, hV]
  simp only [compact, Nat.add_sub_cancel_left]
  omega

theorem sum_take_mono (size : Entry → ℕ) (l : List Entry) {j k : ℕ} (h : j ≤ k) :
    ((l.take j).map size).sum ≤ ((l.take k).map size).sum := by
  have hsplit := congrArg (fun l => (l.map size).sum) (List.take_append_drop j (l.take k))
  simp only [List.map_append, List.sum_append, List.take_take, Nat.min_eq_left h] at hsplit
  omega

end Elog

private theorem roundUp_le_iff {n d k : ℕ} (hd : 0 < d) : (n + d - 1) / d ≤ k ↔ n ≤ k * d := by
  rw [← Nat.lt_succ_iff, Nat.div_lt_iff_lt_mul hd, Nat.succ_mul]
  omega

namespace Store

/-- What the count limit proposes: to keep the newest `maxMessages`. -/
def countBoundary (log : Elog) (maxMessages : ℕ) : ℕ :=
  if maxMessages ≠ 0 ∧ log.last - log.base > maxMessages then log.last - maxMessages + 1 else 0

def byteDrop (V : Vendor) (log : Elog) (maxBytes : ℕ) : ℕ :=
  let live := log.last - log.base
  let avg := max 1 (V.fileLen log / live)
  min live ((V.fileLen log - maxBytes + avg - 1) / avg)

def byteBoundary (V : Vendor) (log : Elog) (maxBytes : ℕ) : ℕ :=
  if maxBytes ≠ 0 ∧ V.fileLen log > maxBytes then log.base + byteDrop V log maxBytes + 1 else 0

/-- What the age limit proposes, from the marks that read back. -/
def markBoundary (st : Store) (name : Bytes) (maxAgeS nowS : ℕ) : ℕ :=
  if maxAgeS ≠ 0 ∧ nowS > maxAgeS then match st.marksLoad name with
    | .error _ => 0
    | .ok m => ageBoundary (nowS - maxAgeS) m
  else 0

theorem policyBoundary_eq (V : Vendor) (st : Store) (name : Bytes) (log : Elog) (p : Policy)
    (nowS : ℕ) :
    st.policyBoundary V name log p nowS =
      if log.last - log.base = 0 then 0
      else max (countBoundary log p.maxMessages)
        (max (byteBoundary V log p.maxBytes) (st.markBoundary name p.maxAgeS nowS)) := rfl

/-- Nothing is dropped that the limit had room for: the messages a boundary keeps,
and the newest one it drops, are over the limit together. -/
structure NoOvershoot (V : Vendor) (st : Store) (name : Bytes) (log : Elog) (p : Policy)
    (nowS : ℕ) : Prop where
  within : V.fileLen log ≤ p.maxBytes → st.policyBoundary V name log p nowS = 0
  beyond : st.policyBoundary V name log p nowS ≠ 0 →
    log.base + 2 ≤ st.policyBoundary V name log p nowS ∧
      p.maxBytes < V.fileLen (log.compact (st.policyBoundary V name log p nowS - 2))

variable {V : Vendor} {header : ℕ} {size : Entry → ℕ}

theorem policyBoundary_bytes (V : Vendor) (st : Store) (name : Bytes) (log : Elog)
    (maxBytes : ℕ) (ignore : Bool) (nowS : ℕ) :
    st.policyBoundary V name log ⟨0, 0, maxBytes, ignore⟩ nowS =
      if log.entries.length = 0 then 0 else byteBoundary V log maxBytes := by
  rw [policyBoundary_eq, Elog.length_eq]
  simp [countBoundary, markBoundary]

theorem byteDrop_le_iff (V : Vendor) (log : Elog) (maxBytes k : ℕ) :
    byteDrop V log maxBytes ≤ k ↔ log.entries.length ≤ k ∨
      V.fileLen log - maxBytes ≤ k * max 1 (V.fileLen log / log.entries.length) := by
  rw [← roundUp_le_iff (show 0 < max 1 (V.fileLen log / log.entries.length) by omega)]
  simp only [byteDrop, Elog.length_eq]
  omega

/-- A byte limit never overshoots exactly when the oldest messages that make up the
excess are no larger than the mean lets on. -/
theorem no_overshoot_iff (hV : V.Sized header size) (st : Store) (name : Bytes) (log : Elog)
    (maxBytes : ℕ) (ignore : Bool) (nowS : ℕ) :
    NoOvershoot V st name log ⟨0, 0, maxBytes, ignore⟩ nowS ↔
      (maxBytes ≠ 0 → ∀ k < log.entries.length,
        V.fileLen log - maxBytes ≤ ((log.entries.take k).map size).sum →
          V.fileLen log - maxBytes ≤ k * max 1 (V.fileLen log / log.entries.length)) := by
  have hb := policyBoundary_bytes V st name log maxBytes ignore nowS
  by_cases hidle : log.entries.length = 0 ∨ maxBytes = 0 ∨ V.fileLen log ≤ maxBytes
  · have hzero : st.policyBoundary V name log ⟨0, 0, maxBytes, ignore⟩ nowS = 0 := by
      rw [hb]
      simp only [byteBoundary]
      split
      · rfl
      · rw [if_neg (by omega)]
    refine iff_of_true ⟨fun _ => hzero, fun h => absurd hzero h⟩ fun hne k hk _ => ?_
    have : V.fileLen log - maxBytes = 0 := by omega
    omega
  · simp only [not_or, Nat.not_le] at hidle
    obtain ⟨hlive, hmax, hover⟩ := hidle
    have hle := byteDrop_le_iff V log maxBytes
    rw [if_neg hlive, byteBoundary, if_pos ⟨hmax, hover⟩] at hb
    have hpos : ¬ byteDrop V log maxBytes ≤ 0 := by
      rw [hle]
      omega
    have hdropped : byteDrop V log maxBytes ≤ log.entries.length :=
      (hle _).mpr (.inl (Nat.le_refl _))
    have hcompact : log.base + byteDrop V log maxBytes + 1 - 2 =
        log.base + (byteDrop V log maxBytes - 1) := by omega
    have hlen := Elog.fileLen_compact hV log (byteDrop V log maxBytes - 1)
    constructor
    · intro h hne k hk hsum
      obtain ⟨-, hkept⟩ := h.beyond (by omega)
      rw [hb, hcompact] at hkept
      by_contra hfar
      have hmore : ¬ byteDrop V log maxBytes ≤ k := by
        rw [hle]
        omega
      -- so the `k` oldest go with the others, and what they take covers the excess
      have hmono := Elog.sum_take_mono size log.entries
        (show k ≤ byteDrop V log maxBytes - 1 by omega)
      simp only at hkept
      omega
    · intro h
      refine ⟨fun hin => absurd hover (Nat.not_lt.mpr hin), fun _ => ?_⟩
      rw [hb, hcompact]
      refine ⟨by omega, ?_⟩
      by_contra hkept
      simp only [Nat.not_lt] at hkept
      have hless := (hle _).mpr (.inr (h hmax (byteDrop V log maxBytes - 1) (by omega) (by omega)))
      omega

theorem no_overshoot_of_even (hV : V.Sized header size) {log : Elog} {n : ℕ}
    (heven : ∀ e ∈ log.entries, size e = n) (st : Store) (name : Bytes) (maxBytes : ℕ)
    (ignore : Bool) (nowS : ℕ) :
    NoOvershoot V st name log ⟨0, 0, maxBytes, ignore⟩ nowS := by
  have hsum : ∀ l : List Entry, (∀ e ∈ l, size e = n) → (l.map size).sum = l.length * n := by
    intro l hl
    induction l with
    | nil => simp
    | cons e l ih =>
      obtain ⟨he, hl⟩ := List.forall_mem_cons.mp hl
      rw [List.map_cons, List.sum_cons, he, ih hl, List.length_cons, Nat.succ_mul, Nat.add_comm]
  refine (no_overshoot_iff hV ..).mpr fun _ k hk hexcess => ?_
  rw [hsum _ fun e he => heven e (List.mem_of_mem_take he), List.length_take,
    Nat.min_eq_left (Nat.le_of_lt hk)] at hexcess
  have hmean : n ≤ V.fileLen log / log.entries.length := by
    rw [Nat.le_div_iff_mul_le (by omega), hV, hsum _ heven, Nat.mul_comm]
    omega
  calc V.fileLen log - maxBytes
      ≤ k * n := hexcess
    _ ≤ k * max 1 (V.fileLen log / log.entries.length) :=
        Nat.mul_le_mul_left k (Nat.le_trans hmean (Nat.le_max_right _ _))

def longOne : Elog :=
  ⟨0, ⟨BJM_ENTRY_PLAIN, List.replicate 100 7⟩ :: List.replicate 9 ⟨BJM_ENTRY_PLAIN, [7]⟩⟩

/-- The limit asks for the long one to go; five short ones go with it. -/
theorem longOne_overshoots :
    Vendor.framed.Sized 8 (fun e => e.payload.length + 8) ∧ Vendor.framed.fileLen longOne = 197 ∧
    Store.empty.policyBoundary .framed (ascii "jobs") longOne ⟨0, 0, 100, true⟩ 0 = 7 ∧
    Vendor.framed.fileLen (longOne.compact 1) = 89 ∧
    Vendor.framed.fileLen (longOne.compact 6) = 44 ∧
    ¬ NoOvershoot .framed Store.empty (ascii "jobs") longOne ⟨0, 0, 100, true⟩ 0 := by
  refine ⟨Vendor.framed_sized, by decide, by decide, by decide, by decide, fun h => ?_⟩
  exact absurd (h.beyond (by decide)).2 (by decide)

/-- Ten messages of one size, over the same limit. -/
theorem tenShort_no_overshoot_iff :
    NoOvershoot .framed Store.empty (ascii "jobs")
        ⟨0, List.replicate 10 ⟨BJM_ENTRY_PLAIN, List.replicate 12 7⟩⟩ ⟨0, 0, 100, true⟩ 0 ↔
      ((100 : ℕ) ≠ 0 → ∀ k < 10, 108 ≤ (((List.replicate 10
          (⟨BJM_ENTRY_PLAIN, List.replicate 12 7⟩ : Entry)).take k).map
            fun e => e.payload.length + 8).sum → 108 ≤ k * max 1 (208 / 10)) :=
  no_overshoot_iff Vendor.framed_sized Store.empty (ascii "jobs") _ 100 true 0

end Store

end SukkalMsg
