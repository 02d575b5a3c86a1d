import SukkalMsg.RepeatedJobs

/-!
# The wait before a failed job is offered again

The base delay is doubled once per attempt but one, at most thirty times, and capped. The
doubling is a shift of a 64-bit word: the code notices an overflow when the word falls
below the base, and counts the attempts in 32 bits. What is said here is when the word
the shift leaves still gives the delay that the unbounded numbers give.
-/

namespace SukkalMsg

open Std Names Binjson OrderedScan Store

/-- The delay over unbounded numbers; without a cap it saturates. -/
def exactBackoff (base cap attempts : ℕ) : ℕ :=
  let d := base * 2 ^ min (attempts - 1) 30
  if cap = 0 then min d UINT64_MAX else min d cap

/-- The word the shift leaves: the attempts are counted modulo `2^32`, the bits beyond
the sixty-fourth are lost. -/
def shiftedBase (base attempts : ℕ) : ℕ := base * 2 ^ min ((attempts - 1) % 2 ^ 32) 30 % 2 ^ 64

/-- No bit and no attempt is lost, or the cap makes up for it: the word fell below the
base, or it is no less than the cap. Without a cap only the largest word will do. -/
def BackoffFits (base cap attempts : ℕ) : Prop :=
  shiftedBase base attempts = base * 2 ^ min (attempts - 1) 30 ∨
    if cap = 0 then shiftedBase base attempts = UINT64_MAX
    else shiftedBase base attempts < base ∨ cap ≤ shiftedBase base attempts

theorem backoffFor_eq (q : Qrec) {a : ℕ} (ha : 1 ≤ a) :
    backoffFor q a = if q.backoffMs = 0 then 0
      else if shiftedBase q.backoffMs a < q.backoffMs then q.maxBackoffMs
      else if q.maxBackoffMs = 0 then shiftedBase q.backoffMs a
      else min (shiftedBase q.backoffMs a) q.maxBackoffMs := by
  have hshift : (if (a - 1) % 2 ^ 32 > 30 then 30 else (a - 1) % 2 ^ 32) =
      min ((a - 1) % 2 ^ 32) 30 := by
    split <;> omega
  have hpos : a > 0 := ha
  have hword : u64 (q.backoffMs * 2 ^ min ((a - 1) % 2 ^ 32) 30) = shiftedBase q.backoffMs a := rfl
  simp only [backoffFor, if_pos hpos, hshift, hword]
  by_cases hw : shiftedBase q.backoffMs a < q.backoffMs
  · have hcap : ¬ (q.maxBackoffMs ≠ 0 ∧ q.maxBackoffMs > q.maxBackoffMs) := fun h =>
      absurd h.2 (Nat.lt_irrefl _)
    simp only [if_pos hw, if_neg hcap]
  · simp only [if_neg hw]
    by_cases hc : q.maxBackoffMs = 0
    · simp only [hc, ne_eq, not_true_eq_false, false_and, if_false, if_true]
    · simp only [hc, ne_eq, not_false_eq_true, true_and, if_false]
      congr 1
      split <;> omega

theorem shiftedBase_cases (base a : ℕ) :
    shiftedBase base a = base * 2 ^ min ((a - 1) % 2 ^ 32) 30 ∨
      2 ^ 64 ≤ base * 2 ^ min ((a - 1) % 2 ^ 32) 30 := by
  by_cases h : base * 2 ^ min ((a - 1) % 2 ^ 32) 30 < 2 ^ 64
  · exact .inl (Nat.mod_eq_of_lt h)
  · exact .inr (Nat.le_of_not_lt h)

theorem shifted_le_exact (base a : ℕ) :
    base * 2 ^ min ((a - 1) % 2 ^ 32) 30 ≤ base * 2 ^ min (a - 1) 30 := by
  have hmod : (a - 1) % 2 ^ 32 ≤ a - 1 := Nat.mod_le _ _
  exact Nat.mul_le_mul_left _ (Nat.pow_le_pow_right (by decide) (by omega))

theorem base_le_exact (base a : ℕ) : base ≤ base * 2 ^ min (a - 1) 30 :=
  Nat.le_mul_of_pos_right _ (Nat.two_pow_pos _)

theorem backoffFor_exact_iff {q : Qrec} {a : ℕ} (hb : q.backoffMs < 2 ^ 64)
    (hc : q.maxBackoffMs < 2 ^ 64) (ha : 1 ≤ a) :
    backoffFor q a = exactBackoff q.backoffMs q.maxBackoffMs a ↔
      BackoffFits q.backoffMs q.maxBackoffMs a := by
  have hlt : shiftedBase q.backoffMs a < 2 ^ 64 := Nat.mod_lt _ (by decide)
  have hbase := base_le_exact q.backoffMs a
  have hle := shifted_le_exact q.backoffMs a
  have hzero : q.backoffMs = 0 → shiftedBase q.backoffMs a = 0 ∧
      q.backoffMs * 2 ^ min (a - 1) 30 = 0 := by
    intro h
    simp [shiftedBase, h]
  rw [backoffFor_eq q ha]
  simp only [exactBackoff, BackoffFits, UINT64_MAX]
  have hcases := shiftedBase_cases q.backoffMs a
  have hwrapped : q.backoffMs ≤ q.backoffMs * 2 ^ min ((a - 1) % 2 ^ 32) 30 :=
    Nat.le_mul_of_pos_right _ (Nat.two_pow_pos _)
  generalize q.backoffMs * 2 ^ min ((a - 1) % 2 ^ 32) 30 = p at *
  generalize q.backoffMs * 2 ^ min (a - 1) 30 = v at *
  generalize shiftedBase q.backoffMs a = w at *
  generalize q.backoffMs = b at *
  generalize q.maxBackoffMs = c at *
  by_cases hb0 : b = 0
  · obtain ⟨hw, hv⟩ := hzero hb0
    simp [hb0, hw, hv]
  · rw [if_neg hb0]
    by_cases hc0 : c = 0
    · simp only [hc0, if_true]
      split <;> omega
    · simp only [hc0, if_false]
      split <;> omega

theorem exactBackoff_mono (base cap : ℕ) {a a' : ℕ} (h : a ≤ a') :
    exactBackoff base cap a ≤ exactBackoff base cap a' := by
  have hpow : base * 2 ^ min (a - 1) 30 ≤ base * 2 ^ min (a' - 1) 30 :=
    Nat.mul_le_mul_left _ (Nat.pow_le_pow_right (by decide) (by omega))
  simp only [exactBackoff]
  split <;> omega

theorem le_exactBackoff {base cap : ℕ} (hb : base < 2 ^ 64) (a : ℕ) :
    (if cap = 0 then base else min base cap) ≤ exactBackoff base cap a := by
  have hbase := base_le_exact base a
  simp only [exactBackoff, UINT64_MAX]
  split <;> omega

theorem exactBackoff_eq_zero {base cap a : ℕ} (hb : base < 2 ^ 64)
    (h : exactBackoff base cap a = 0) : base = 0 := by
  have hle : (if cap = 0 then base else min base cap) ≤ exactBackoff base cap a :=
    le_exactBackoff hb a
  rw [h] at hle
  split at hle <;> omega

def Qrec.dueAt (q : Qrec) (at_ : ℕ) (e : Slot) (due : ℕ) : Qrec :=
  { q with fl := q.fl.set at_ { e with expires := due } }

/-- A failed job is told the exact delay, and its row, in words of 64 bits, is due that
much later. -/
def WaitsExactly (st : Store) (now : ℕ) (s g : Bytes) (index : ℕ) (q : Qrec) (at_ : ℕ)
    (e : Slot) : Prop :=
  let d := exactBackoff q.backoffMs q.maxBackoffMs e.attempts
  ∃ r, st.bjmFail now s g index UINT64_MAX = .ok r ∧ r.found = true ∧ r.retryInMs = d ∧
    (q.dueAt at_ e (now + d)).Words ∧
    r.store = { st with
      queues := st.queues.insert (pairKey s g) (queueRecord (q.dueAt at_ e (now + d))) }

theorem bjmFail_own {st : Store} {now : ℕ} {s g : Bytes} {index at_ : ℕ} {q : Qrec} {e : Slot}
    (hload : st.queueLoad s g = .ok (q, true)) (hfind : flFind q index = some at_)
    (he : q.fl.rows[at_]? = some e) :
    st.bjmFail now s g index UINT64_MAX = .ok ⟨true, backoffFor q e.attempts, { st with
      queues := st.queues.insert (pairKey s g)
        (queueRecord (q.dueAt at_ e (u64 (now + backoffFor q e.attempts)))) }⟩ := by
  have hget : q.fl.rows.getD at_ ⟨0, 0, 0⟩ = e := by simp [he]
  simp only [bjmFail, queueRelease, hload, hfind, hget, retryDelay, if_true,
    queueStore_of_key (queueKey_of_load hload), Except.map, Bool.not_true, Bool.false_eq_true,
    if_false]
  rfl

theorem waitsExactly_iff {st : Store} {now : ℕ} {s g : Bytes} {index at_ : ℕ} {q : Qrec} {e : Slot}
    (hq : q.Words) (hkey : (queueKey s g).isSome = true)
    (hrec : st.queues[pairKey s g]? = some (queueRecord q)) (hfind : flFind q index = some at_)
    (he : q.fl.rows[at_]? = some e) (ha : 1 ≤ e.attempts) :
    WaitsExactly st now s g index q at_ e ↔
      Readable (queueRecord q) ∧ BackoffFits q.backoffMs q.maxBackoffMs e.attempts ∧
        now + exactBackoff q.backoffMs q.maxBackoffMs e.attempts < 2 ^ 64 := by
  obtain ⟨key, hk⟩ := Option.isSome_iff_exists.mp hkey
  obtain rfl := boundedKey_eq hk
  have hexact := backoffFor_exact_iff (q := q) (hq _ (by simp [Qrec.ints]))
    (hq _ (by simp [Qrec.ints])) ha
  have hget : q.fl.rows.getD at_ ⟨0, 0, 0⟩ = e := by simp [he]
  by_cases hread : Readable (queueRecord q)
  · have hload : st.queueLoad s g = .ok (q, true) := by
      simp [queueLoad, hk, hrec, queueDecode_of_readable hq hread, Except.map]
    have hfail : st.bjmFail now s g index UINT64_MAX = _ := bjmFail_own hload hfind he
    simp only [hread, true_and, ← hexact]
    constructor
    · rintro ⟨r, hr, -, hd, hwords, -⟩
      obtain rfl := Except.ok.inj (hfail.symm.trans hr)
      obtain ⟨hlt, -⟩ := List.getElem?_eq_some_iff.mp he
      refine ⟨hd, hwords _ ?_⟩
      simp only [Qrec.ints, List.mem_append, mem_flat]
      exact .inl (.inr ⟨_, List.mem_set hlt _, .inr (.inl rfl)⟩)
    · rintro ⟨hd, hlt⟩
      rw [hd, u64_of_lt hlt] at hfail
      refine ⟨_, hfail, rfl, rfl, ?_, rfl⟩
      have hwords : (q.settled now at_ false UINT64_MAX).Words := settled_words hq hfind
      simpa only [Qrec.dueAt, Qrec.settled, Bool.false_eq_true, if_false, hget, retryDelay, if_true,
        hd, u64_of_lt hlt] using hwords
  · have hload : st.queueLoad s g = .error .intRange := by
      simp [queueLoad, hk, hrec, queueDecode_of_unreadable hread, Except.map]
    simp only [hread, false_and, iff_false]
    rintro ⟨r, hr, -⟩
    simp [bjmFail, queueRelease, hload] at hr

/-- The delay is exact just when the shift's word fits, and then grows with the attempts,
is no less than the base or the cap, and is zero for a base of zero only. A failed job is
told it and waits for as long, where moreover the group's record can be read back and the
due time is a 64-bit word. -/
theorem retry_delay_iff {q : Qrec} (hq : q.Words) :
    (∀ a, 1 ≤ a → (backoffFor q a = exactBackoff q.backoffMs q.maxBackoffMs a ↔
      BackoffFits q.backoffMs q.maxBackoffMs a)) ∧
    (∀ a, 1 ≤ a → BackoffFits q.backoffMs q.maxBackoffMs a →
      (if q.maxBackoffMs = 0 then q.backoffMs else min q.backoffMs q.maxBackoffMs) ≤
        backoffFor q a ∧
      (backoffFor q a = 0 → q.backoffMs = 0) ∧
      ∀ a', a ≤ a' → BackoffFits q.backoffMs q.maxBackoffMs a' →
        backoffFor q a ≤ backoffFor q a') ∧
    ∀ (st : Store) (now : ℕ) (s g : Bytes) (index at_ : ℕ) (e : Slot),
      (queueKey s g).isSome = true → st.queues[pairKey s g]? = some (queueRecord q) →
      flFind q index = some at_ → q.fl.rows[at_]? = some e → 1 ≤ e.attempts →
      (WaitsExactly st now s g index q at_ e ↔
        Readable (queueRecord q) ∧ BackoffFits q.backoffMs q.maxBackoffMs e.attempts ∧
          now + exactBackoff q.backoffMs q.maxBackoffMs e.attempts < 2 ^ 64) := by
  have hb : q.backoffMs < 2 ^ 64 := hq _ (by simp [Qrec.ints])
  have hc : q.maxBackoffMs < 2 ^ 64 := hq _ (by simp [Qrec.ints])
  refine ⟨fun a ha => backoffFor_exact_iff hb hc ha, fun a ha hfits => ?_,
    fun st now s g index at_ e hkey hrec hfind he ha => waitsExactly_iff hq hkey hrec hfind he ha⟩
  have hexact := (backoffFor_exact_iff hb hc ha).mpr hfits
  refine ⟨?_, fun hzero => ?_, fun a' haa' hfits' => ?_⟩
  · rw [hexact]
    exact le_exactBackoff hb a
  · exact exactBackoff_eq_zero hb (hexact.symm.trans hzero)
  · rw [hexact, (backoffFor_exact_iff hb hc (Nat.le_trans ha haa')).mpr hfits']
    exact exactBackoff_mono _ _ haa'

/-- A group whose base delay is some months, without a cap, and one job on its
thirty-first attempt. -/
def longBackoff : Qrec := { Qrec.fresh 2 with
  backoffMs := 2 ^ 34
  maxBackoffMs := 0
  fl := ⟨[⟨1, 5, 31⟩], by decide⟩ }

def longBackoffStore : Store := { Store.empty with
  queues := (∅ : Tree).insert (pairKey (ascii "jobs") (ascii "work")) (queueRecord longBackoff) }

/-- Its job is told to come back at once. -/
theorem longBackoff_retried_at_once :
    longBackoff.Words ∧ exactBackoff longBackoff.backoffMs longBackoff.maxBackoffMs 31 = UINT64_MAX ∧
      backoffFor longBackoff 31 = 0 ∧
      (longBackoffStore.bjmFail 10 (ascii "jobs") (ascii "work") 1 UINT64_MAX).map
        Released.retryInMs = .ok 0 := by
  refine ⟨by decide +kernel, by decide +kernel, by decide +kernel, ?_⟩
  decide +kernel

/-- A group with the default settings, one of whose jobs is on its third attempt. -/
def ordinaryBackoff : Qrec := { Qrec.fresh 2 with fl := ⟨[⟨1, 5, 3⟩], by decide⟩ }

def ordinaryBackoffStore : Store := { Store.empty with
  queues := (∅ : Tree).insert (pairKey (ascii "jobs") (ascii "work"))
    (queueRecord ordinaryBackoff) }

theorem ordinaryBackoff_waits :
    backoffFor ordinaryBackoff 3 = 4000 ∧
      WaitsExactly ordinaryBackoffStore 10 (ascii "jobs") (ascii "work") 1 ordinaryBackoff 0
        ⟨1, 5, 3⟩ := by
  obtain ⟨hdelay, -, hfail⟩ := retry_delay_iff (q := ordinaryBackoff) (by decide +kernel)
  have hfits : BackoffFits ordinaryBackoff.backoffMs ordinaryBackoff.maxBackoffMs 3 :=
    .inl (by decide +kernel)
  refine ⟨((hdelay 3 (by decide)).mpr hfits).trans (by decide +kernel), ?_⟩
  refine (hfail _ 10 _ _ 1 0 ⟨1, 5, 3⟩ (by decide +kernel) ?_ (by decide +kernel)
    (by decide +kernel) (by decide)).mpr ⟨by decide +kernel, hfits, by decide +kernel⟩
  simp [ordinaryBackoffStore]

end SukkalMsg
