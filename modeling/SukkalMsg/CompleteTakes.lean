import SukkalMsg.Retention
import SukkalMsg.TakeTurns

/-!
# What a short take leaves behind

A worker that gets fewer jobs than it asked for takes it that no more are to be had. The
places are given out before the messages are looked up, though, so a job whose message
was trimmed uses one up; and a table that is full of such jobs stops the take as well as
any other.
-/

namespace SukkalMsg

open Std Names Binjson OrderedScan Store

/-- The message is there. -/
def Lives (log : Elog) (i : ℕ) : Prop := (log.get i).isSome = true

instance (log : Elog) (i : ℕ) : Decidable (Lives log i) := by
  unfold Lives
  infer_instance

/-- A take that answered with less than it was asked for left nothing to take. -/
def LeavesNothing (log : Elog) (now : ℕ) (max : ℤ) (q : Qrec) (jobs : List Job) : Prop :=
  (jobs.length : ℤ) < min max BJM_INFLIGHT_MAX →
    (∀ e ∈ q.fl.rows, Lives log e.index → now < e.expires) ∧
    (log.last < q.next ∨
      q.fl.count = BJM_INFLIGHT_MAX ∧ ∀ e ∈ q.fl.rows, Lives log e.index ∧ now < e.expires)

/-- The jobs of an answer are different ones, those let again first, the new ones in a
row, and the table says of each what the answer says. -/
structure Answers (now : ℕ) (q q' : Qrec) (jobs : List Job) : Prop where
  distinct : (jobs.map Job.index).Nodup
  ordered : ∃ again fresh, jobs = again ++ fresh ∧
    (∀ j ∈ again, ∃ e ∈ q.fl.rows, e.index = j.index ∧ e.expires ≤ now) ∧
    ∃ i, q.next ≤ i ∧ fresh.map Job.index = List.range' i fresh.length
  entered : ∀ j ∈ jobs, (⟨j.index, j.expiresMs, j.attempts⟩ : Slot) ∈ q'.fl.rows

/-- A record the calls on a group leave: no job twice, and none that is yet to come. -/
structure Orderly (q : Qrec) : Prop where
  nodup : (q.fl.rows.map Slot.index).Nodup
  below : ∀ e ∈ q.fl.rows, e.index < q.next

/-- Every job the take comes to has its message. -/
def FindsAll (log : Elog) (now lease m : ℕ) (q : Qrec) : Prop :=
  (∀ e ∈ againRows now m q, Lives log e.index) ∧
    (freshCount now lease m log.last q = 0 ∨ log.base < q.next)

/-- None of them has. -/
def FindsNone (log : Elog) (now lease m : ℕ) (q : Qrec) : Prop :=
  (∀ e ∈ againRows now m q, ¬ Lives log e.index) ∧
    ∀ i, q.next ≤ i → i < q.next + freshCount now lease m log.last q → ¬ Lives log i

/-- There are as many jobs as are wanted. -/
def Plenty (log : Elog) (now lease m : ℕ) (q : Qrec) : Prop :=
  m ≤ q.fl.rows.countP (Slot.due now q.maxAttempts) + freshCount now lease m log.last q

/-- The places go to jobs whose messages are there and the table has room for those wanted,
or holds only jobs whose messages are there; or nothing is left for a later take anyway.
A lease that runs past the end of the clock is over at once. -/
def Suits (log : Elog) (now lease m : ℕ) (q : Qrec) : Prop :=
  ((FindsAll log now lease m q ∧
      (min (m - q.fl.rows.countP (Slot.due now q.maxAttempts)) (log.last + 1 - q.next) ≤
          roomFor now q ∨
        ∀ e ∈ q.fl.rows, now < e.expires → Lives log e.index)) ∨
    (log.last < q.next + freshCount now lease m log.last q ∧
      ∀ e ∈ leftRows now m q, e.expires ≤ now → ¬ Lives log e.index)) ∧
  (2 ^ 64 ≤ now + lease →
    FindsAll log now lease m q ∧ Plenty log now lease m q ∨ FindsNone log now lease m q)

section Taking

variable {now lease m : ℕ} {log : Elog} {q : Qrec} {s : TakeState}

theorem lives_iff {i : ℕ} : Lives log i ↔ log.base < i ∧ i ≤ log.last := Elog.get_isSome_iff

theorem freshCount_le (now lease m last : ℕ) (q : Qrec) :
    freshCount now lease m last q ≤ m - q.fl.rows.countP (Slot.due now q.maxAttempts) ∧
      freshCount now lease m last q ≤ last + 1 - q.next := by
  simp only [freshCount]
  split <;> omega

theorem fresh_lives (h : freshCount now lease m log.last q = 0 ∨ log.base < q.next) {i : ℕ}
    (hlo : q.next ≤ i) (hhi : i < q.next + freshCount now lease m log.last q) : Lives log i := by
  have := (freshCount_le now lease m log.last q).2
  rw [lives_iff]
  omega

theorem length_takenJobs (now lease : ℕ) (log : Elog) (chosen : List (ℕ × ℕ)) :
    (takenJobs now lease log chosen).length = chosen.countP fun c => decide (Lives log c.1) := by
  induction chosen with
  | nil => rfl
  | cons c chosen ih =>
    simp only [takenJobs, List.filterMap_cons, List.countP_cons] at ih ⊢
    cases hc : log.get c.1 with
    | none =>
      simp only [Option.map_none, ih, Lives, hc, Option.isSome_none, Bool.false_eq_true,
        decide_false, if_false, Nat.add_zero]
    | some e =>
      simp only [Option.map_some, List.length_cons, ih, Lives, hc, Option.isSome_some, decide_true,
        if_true]

theorem length_takenJobs_eq_iff (now lease : ℕ) (log : Elog) (chosen : List (ℕ × ℕ)) :
    (takenJobs now lease log chosen).length ≤ chosen.length ∧
      ((takenJobs now lease log chosen).length = chosen.length ↔ ∀ c ∈ chosen, Lives log c.1) := by
  rw [length_takenJobs]
  refine ⟨List.countP_le_length, ?_⟩
  rw [List.countP_eq_length]
  simp only [decide_eq_true_eq]

theorem TakenFrom.length_chosen (h : TakenFrom now lease m log.last q s) :
    s.chosen.length = min m (q.fl.rows.countP (Slot.due now q.maxAttempts)) +
      freshCount now lease m log.last q := by
  rw [h.chosen, List.length_append, List.length_map, List.length_map, List.length_range',
    (length_again now m q).1]

theorem TakenFrom.findsAll_iff (h : TakenFrom now lease m log.last q s) :
    (∀ c ∈ s.chosen, Lives log c.1) ↔ FindsAll log now lease m q := by
  rw [h.chosen]
  simp only [List.mem_append, List.mem_map]
  constructor
  · intro hall
    refine ⟨fun e he => hall _ (.inl ⟨e, he, rfl⟩), ?_⟩
    rcases Nat.eq_zero_or_pos (freshCount now lease m log.last q) with hzero | hpos
    · exact .inl hzero
    · have hfirst := hall (q.next, 1) (.inr ⟨q.next, List.mem_range'_1.mpr ⟨Nat.le_refl _, by omega⟩,
        rfl⟩)
      exact .inr (lives_iff.mp hfirst).1
  · rintro ⟨hagain, hfresh⟩ c (⟨e, he, rfl⟩ | ⟨i, hi, rfl⟩)
    · exact hagain e he
    · obtain ⟨hlo, hhi⟩ := List.mem_range'_1.mp hi
      exact fresh_lives hfresh hlo hhi

theorem TakenFrom.full_iff (h : TakenFrom now lease m log.last q s) :
    (takenJobs now lease log s.chosen).length ≤ m ∧
      ((takenJobs now lease log s.chosen).length = m ↔
        FindsAll log now lease m q ∧ Plenty log now lease m q) := by
  obtain ⟨hle, heq⟩ := length_takenJobs_eq_iff now lease log s.chosen
  have hlen := h.length_chosen
  have hfresh := (freshCount_le now lease m log.last q).1
  rw [h.findsAll_iff] at heq
  refine ⟨by omega, ?_⟩
  simp only [Plenty]
  constructor
  · intro hfull
    exact ⟨heq.mp (by omega), by omega⟩
  · rintro ⟨hall, hplenty⟩
    have := heq.mpr hall
    omega

theorem TakenFrom.mem_rows (h : TakenFrom now lease m log.last q s) (hpos : 0 < lease) {f : Slot} :
    f ∈ s.q.fl.rows ↔ (f ∈ metRows now m q ∧ now < f.expires) ∨
      (∃ e ∈ againRows now m q, e.renew now lease = f) ∨ f ∈ leftRows now m q ∨
      ∃ i, (q.next ≤ i ∧ i < q.next + freshCount now lease m log.last q) ∧
        Slot.first now lease i = f := by
  rw [h.rows.mem_iff]
  simp only [freshRows, if_pos hpos, List.mem_append, List.mem_map, List.mem_filter,
    List.mem_range'_1, or_assoc, Slot.lapsed, Bool.not_eq_true', decide_eq_false_iff_not,
    Nat.not_le]

theorem mem_rows_iff (now m : ℕ) {e : Slot} :
    e ∈ q.fl.rows ↔ e ∈ metRows now m q ∨ e ∈ leftRows now m q := by
  rw [← (met_perm now m q).mem_iff, List.mem_append]

theorem mem_again {e : Slot} : e ∈ againRows now m q ↔
    e ∈ metRows now m q ∧ e.due now q.maxAttempts = true := List.mem_filter

theorem lapsed_of_again {e : Slot} (he : e ∈ againRows now m q) : e.expires ≤ now := by
  have hdue := (mem_again.mp he).2
  simp only [Slot.due, Slot.lapsed, Bool.and_eq_true, decide_eq_true_eq] at hdue
  exact hdue.1

theorem lease_end (hpos : 0 < lease) (hnow : now < 2 ^ 64) (hlease : lease < 2 ^ 64) :
    (now + lease < 2 ^ 64 → now < u64 (now + lease)) ∧
      (2 ^ 64 ≤ now + lease → u64 (now + lease) ≤ now) := by
  constructor
  · intro hfits
    rw [u64_of_lt hfits]
    omega
  · intro hwraps
    simp only [u64]
    omega

/-- No lease that was given is over, or it was given for nothing. -/
theorem TakenFrom.unexpired (h : TakenFrom now lease m log.last q s) (hpos : 0 < lease)
    (hnow : now < 2 ^ 64) (hlease : lease < 2 ^ 64)
    (hend : 2 ^ 64 ≤ now + lease → FindsNone log now lease m q)
    (hleft : ∀ e ∈ leftRows now m q, e.expires ≤ now → ¬ Lives log e.index) :
    ∀ f ∈ s.q.fl.rows, Lives log f.index → now < f.expires := by
  obtain ⟨hfits, -⟩ := lease_end hpos hnow hlease
  intro f hf hlives
  rcases (h.mem_rows hpos).mp hf with ⟨-, hrun⟩ | ⟨e, he, rfl⟩ | hf | ⟨i, hi, rfl⟩
  · exact hrun
  · rcases Nat.lt_or_ge (now + lease) (2 ^ 64) with hlt | hge
    · exact hfits hlt
    · exact absurd hlives ((hend hge).1 e he)
  · apply Nat.lt_of_not_le
    intro hle
    exact hleft f hf hle hlives
  · rcases Nat.lt_or_ge (now + lease) (2 ^ 64) with hlt | hge
    · exact hfits hlt
    · exact absurd hlives ((hend hge).2 i hi.1 hi.2)

theorem TakenFrom.count_rows (h : TakenFrom now lease m log.last q s) (hpos : 0 < lease)
    (hshort : q.fl.rows.countP (Slot.due now q.maxAttempts) < m) :
    s.q.fl.count = BJM_INFLIGHT_MAX - roomFor now q + freshCount now lease m log.last q := by
  have hleft := (length_again now m q).2 hshort
  have hmet := met_perm now m q
  rw [hleft, List.append_nil] at hmet
  have hsum := countP_rows now q.maxAttempts q.fl.rows
  have hfits := q.fl.fits
  have hlen := h.rows.length_eq
  simp only [List.length_append, List.length_map, hleft, List.length_nil, freshRows, if_pos hpos,
    List.length_range', (length_again now m q).1, ← List.countP_eq_length_filter,
    hmet.countP_eq] at hlen
  simp only [BoundedTable.count, roomFor]
  omega

theorem TakenFrom.leavesNothing (h : TakenFrom now lease m log.last q s) (hpos : 0 < lease)
    (hnow : now < 2 ^ 64) (hlease : lease < 2 ^ 64) {max : ℤ}
    (hm : (m : ℤ) = min max BJM_INFLIGHT_MAX) (hsuits : Suits log now lease m q) :
    LeavesNothing log now max s.q (takenJobs now lease log s.chosen) := by
  obtain ⟨hsuits, hend⟩ := hsuits
  intro hfew
  rw [← hm] at hfew
  have hfew : (takenJobs now lease log s.chosen).length < m := by omega
  obtain ⟨-, hfull⟩ := h.full_iff
  have hnone : 2 ^ 64 ≤ now + lease → FindsNone log now lease m q := by
    intro hge
    refine (hend hge).resolve_left fun hboth => ?_
    have := hfull.mpr hboth
    omega
  rcases hsuits with ⟨hall, hroom⟩ | ⟨hlast, hleft⟩
  · -- all that was chosen was found, so it was the messages or the table that ran out
    have hfresh := freshCount_le now lease m log.last q
    have hshort : ¬ Plenty log now lease m q := fun hplenty => by
      have := hfull.mpr ⟨hall, hplenty⟩
      omega
    simp only [Plenty] at hshort
    have hdue : q.fl.rows.countP (Slot.due now q.maxAttempts) < m := by omega
    have hleft := (length_again now m q).2 hdue
    have hrun := h.unexpired hpos hnow hlease hnone (by
      intro e he
      rw [hleft] at he
      exact absurd he List.not_mem_nil)
    refine ⟨hrun, ?_⟩
    rw [h.next]
    by_cases hlast : log.last < q.next + freshCount now lease m log.last q
    · exact .inl hlast
    · have hcount := h.count_rows hpos hdue
      have hk : freshCount now lease m log.last q = roomFor now q := by
        simp only [freshCount, if_neg (Nat.pos_iff_ne_zero.mp hpos)] at hshort hlast ⊢
        omega
      have hlive : ∀ e ∈ q.fl.rows, now < e.expires → Lives log e.index := by
        refine hroom.resolve_left fun hfits => ?_
        omega
      have hfits : roomFor now q ≤ BJM_INFLIGHT_MAX := Nat.sub_le _ _
      refine .inr ⟨by omega, fun f hf => ?_⟩
      have hlives : Lives log f.index := by
        rcases (h.mem_rows hpos).mp hf with ⟨hf, hrun⟩ | ⟨e, he, rfl⟩ | hf | ⟨i, hi, rfl⟩
        · exact hlive f ((mem_rows_iff now m).mpr (.inl hf)) hrun
        · exact hall.1 e he
        · rw [hleft] at hf
          exact absurd hf List.not_mem_nil
        · exact fresh_lives hall.2 hi.1 hi.2
      exact ⟨hlives, hrun f hf hlives⟩
  · refine ⟨h.unexpired hpos hnow hlease hnone hleft, .inl ?_⟩
    rw [h.next]
    exact hlast

theorem TakenFrom.suits (h : TakenFrom now lease m log.last q s) (hpos : 0 < lease)
    (hnow : now < 2 ^ 64) (hlease : lease < 2 ^ 64) {max : ℤ}
    (hm : (m : ℤ) = min max BJM_INFLIGHT_MAX)
    (hnothing : LeavesNothing log now max s.q (takenJobs now lease log s.chosen)) :
    Suits log now lease m q := by
  obtain ⟨hle, hfull⟩ := h.full_iff
  rcases Nat.lt_or_ge (takenJobs now lease log s.chosen).length m with hfew | hmany
  · rw [LeavesNothing, ← hm] at hnothing
    obtain ⟨hrun, hend⟩ := hnothing (by omega)
    have hwraps := (lease_end hpos hnow hlease).2
    refine ⟨?_, fun hge => .inr ⟨fun e he hlives => ?_, fun i hlo hhi hlives => ?_⟩⟩
    · rw [h.next] at hend
      rcases hend with hlast | ⟨-, hlive⟩
      · refine .inr ⟨hlast, fun e he hlapsed hlives => ?_⟩
        have := hrun e ((h.mem_rows hpos).mpr (.inr (.inr (.inl he)))) hlives
        omega
      · refine .inl ⟨⟨fun e he => ?_, ?_⟩, .inr fun e he hunlapsed => ?_⟩
        · exact (hlive _ ((h.mem_rows hpos).mpr (.inr (.inl ⟨e, he, rfl⟩)))).1
        · rcases Nat.eq_zero_or_pos (freshCount now lease m log.last q) with hzero | hsome
          · exact .inl hzero
          · have hfirst := hlive _ ((h.mem_rows hpos).mpr (.inr (.inr (.inr
              ⟨q.next, ⟨Nat.le_refl _, by omega⟩, rfl⟩))))
            exact .inr (lives_iff.mp hfirst.1).1
        · rcases (mem_rows_iff now m).mp he with he | he
          · exact (hlive e ((h.mem_rows hpos).mpr (.inl ⟨he, hunlapsed⟩))).1
          · exact (hlive e ((h.mem_rows hpos).mpr (.inr (.inr (.inl he))))).1
    · have := hrun _ ((h.mem_rows hpos).mpr (.inr (.inl ⟨e, he, rfl⟩))) hlives
      have := hwraps hge
      simp only [Slot.renew] at *
      omega
    · have := hrun _ ((h.mem_rows hpos).mpr (.inr (.inr (.inr ⟨i, ⟨hlo, hhi⟩, rfl⟩)))) hlives
      have := hwraps hge
      simp only [Slot.first] at *
      omega
  · have hboth := hfull.mp (Nat.le_antisymm hle hmany)
    refine ⟨.inl ⟨hboth.1, .inl ?_⟩, fun _ => .inl hboth⟩
    have hplenty := hboth.2
    simp only [Plenty, freshCount, if_neg (Nat.pos_iff_ne_zero.mp hpos)] at hplenty
    omega

theorem takenJobs_index (now lease : ℕ) (log : Elog) (chosen : List (ℕ × ℕ)) :
    (takenJobs now lease log chosen).map Job.index =
      (chosen.map Prod.fst).filter fun i => decide (Lives log i) := by
  induction chosen with
  | nil => rfl
  | cons c chosen ih =>
    simp only [takenJobs, List.filterMap_cons, List.map_cons, List.filter_cons] at ih ⊢
    cases hc : log.get c.1 with
    | none =>
      simp only [Option.map_none, ih, Lives, hc, Option.isSome_none, Bool.false_eq_true,
        decide_false, if_false]
    | some e =>
      simp only [Option.map_some, List.map_cons, ih, Lives, hc, Option.isSome_some, decide_true,
        if_true]

theorem mem_takenJobs {chosen : List (ℕ × ℕ)} {j : Job} (hpos : 0 < lease)
    (hj : j ∈ takenJobs now lease log chosen) :
    (j.index, j.attempts) ∈ chosen ∧ j.expiresMs = u64 (now + lease) := by
  obtain ⟨c, hc, heq⟩ := List.mem_filterMap.mp hj
  obtain ⟨e, -, rfl⟩ := Option.map_eq_some_iff.mp heq
  exact ⟨hc, if_neg (Nat.pos_iff_ne_zero.mp hpos)⟩

theorem range'_above (a k b : ℕ) : ∃ i, a ≤ i ∧
    (List.range' a k).filter (fun n => decide (b < n)) =
      List.range' i ((List.range' a k).filter fun n => decide (b < n)).length := by
  induction k generalizing a with
  | zero => exact ⟨a, Nat.le_refl a, rfl⟩
  | succ k ih =>
    by_cases hb : b < a
    · have hall : (List.range' a (k + 1)).filter (fun n => decide (b < n)) =
          List.range' a (k + 1) := by
        refine List.filter_eq_self.mpr fun n hn => decide_eq_true ?_
        have := (List.mem_range'_1.mp hn).1
        omega
      exact ⟨a, Nat.le_refl a, by rw [hall, List.length_range']⟩
    · obtain ⟨i, hi, heq⟩ := ih (a + 1)
      refine ⟨i, by omega, ?_⟩
      rw [List.range'_succ, List.filter_cons_of_neg (by simpa using hb)]
      exact heq

theorem TakenFrom.answers (h : TakenFrom now lease m log.last q s) (hpos : 0 < lease)
    (ho : Orderly q) : Answers now q s.q (takenJobs now lease log s.chosen) := by
  have hsub : (againRows now m q).Sublist (metRows now m q) := List.filter_sublist
  have hmem : ∀ e ∈ againRows now m q, e ∈ q.fl.rows := fun e he =>
    (mem_rows_iff now m).mpr (.inl (hsub.mem he))
  constructor
  · rw [takenJobs_index, h.chosen]
    simp only [List.map_append, List.map_map]
    refine List.Nodup.sublist List.filter_sublist (List.nodup_append.mpr ⟨?_, ?_, ?_⟩)
    · have hmet : ((metRows now m q ++ leftRows now m q).map Slot.index).Nodup :=
        ((met_perm now m q).map Slot.index).nodup_iff.mpr ho.nodup
      rw [List.map_append] at hmet
      exact (List.nodup_append.mp hmet).1.sublist (hsub.map Slot.index)
    · rw [show (Prod.fst ∘ fun i : ℕ => (i, 1)) = id from rfl, List.map_id]
      exact List.nodup_range'
    · rintro i hi j hj rfl
      obtain ⟨e, he, rfl⟩ := List.mem_map.mp hi
      obtain ⟨j, hj, heq⟩ := List.mem_map.mp hj
      have hbelow := ho.below e (hmem e he)
      have hlo := (List.mem_range'_1.mp hj).1
      simp only [Function.comp_apply] at heq
      omega
  · refine ⟨_, _, by rw [h.chosen, takenJobs, List.filterMap_append], ?_, ?_⟩
    · intro j hj
      obtain ⟨c, hc, heq⟩ := List.mem_filterMap.mp hj
      obtain ⟨e, he, rfl⟩ := List.mem_map.mp hc
      obtain ⟨entry, -, rfl⟩ := Option.map_eq_some_iff.mp heq
      exact ⟨e, hmem e he, rfl, lapsed_of_again he⟩
    · have hfilter : ((List.range' q.next (freshCount now lease m log.last q)).map (·, 1)).map
          Prod.fst = List.range' q.next (freshCount now lease m log.last q) := by
        rw [List.map_map]
        exact List.map_id _
      have hbound : ∀ i ∈ List.range' q.next (freshCount now lease m log.last q),
          decide (Lives log i) = decide (log.base < i) := by
        intro i hi
        obtain ⟨hlo, hhi⟩ := List.mem_range'_1.mp hi
        have := (freshCount_le now lease m log.last q).2
        refine decide_eq_decide.mpr (lives_iff.trans (and_iff_left ?_))
        omega
      have hindex := takenJobs_index now lease log
        ((List.range' q.next (freshCount now lease m log.last q)).map (·, 1))
      rw [hfilter, List.filter_congr hbound] at hindex
      obtain ⟨i, hi, heq⟩ := range'_above q.next (freshCount now lease m log.last q) log.base
      refine ⟨i, hi, hindex.trans (heq.trans ?_)⟩
      rw [← hindex, List.length_map]
      rfl
  · intro j hj
    obtain ⟨hc, hexpires⟩ := mem_takenJobs hpos hj
    rw [hexpires]
    refine (h.mem_rows hpos).mpr ?_
    rw [h.chosen] at hc
    rcases List.mem_append.mp hc with hc | hc
    · obtain ⟨e, he, heq⟩ := List.mem_map.mp hc
      obtain ⟨hindex, hattempts⟩ := Prod.mk.inj heq
      exact .inr (.inl ⟨e, he, by rw [← hindex, ← hattempts]; rfl⟩)
    · obtain ⟨i, hi, heq⟩ := List.mem_map.mp hc
      obtain ⟨hindex, hattempts⟩ := Prod.mk.inj heq
      exact .inr (.inr (.inr ⟨i, List.mem_range'_1.mp hi, by rw [← hindex, ← hattempts]; rfl⟩))

end Taking

theorem Store.leaseMs_lt_of_load {st : Store} {s g : Bytes} {q : Qrec} {existed : Bool}
    (h : st.queueLoad s g = .ok (q, existed)) : q.leaseMs < 2 ^ 64 := by
  rw [queueLoad_eq_logOf] at h
  split at h
  · contradiction
  · split at h
    · rename_i r _
      cases hd : queueDecode r with
      | error e => simp [hd, Except.map] at h
      | ok q' =>
        simp only [hd, Except.map, Except.ok.injEq, Prod.mk.injEq] at h
        rw [← h.1]
        exact words_of_queueDecode hd q'.leaseMs (by simp [Qrec.ints])
    · simp only [Except.ok.injEq, Prod.mk.injEq] at h
      rw [← h.1]
      change BJM_LEASE_DEFAULT_MS < 2 ^ 64
      decide

/-- A take that answers with less than it was asked for leaves nothing to take, exactly
when its places suit: they went to messages that are there, or it did not matter. -/
theorem take_complete_iff {V : Vendor} {st : Store} {now lease : ℕ} {s g : Bytes} {max : ℤ}
    {t : Taken} {q : Qrec} {existed : Bool} (h : st.bjmTake V now s g max lease = .ok t)
    (hload : st.queueLoad s g = .ok (q, existed)) (ho : Orderly q) (hnow : now < 2 ^ 64)
    (hlease : lease < 2 ^ 64) (hpos : 0 < effectiveLease lease q) :
    ∃ q', t.store.queues[pairKey s g]? = some (queueRecord q') ∧
      (LeavesNothing (t.store.logOf s) now max q' t.jobs ∧ Answers now q q' t.jobs ↔
        max < 1 ∨ Suits (st.logOf s) now (effectiveLease lease q) (clampMax max) q) := by
  obtain ⟨log, q₁, existed₁, plan, hget, hload₁, hplan, hjobs, -, hst⟩ := bjmTake_eq h
  obtain ⟨rfl, -⟩ := Prod.mk.inj (Except.ok.inj (hload.symm.trans hload₁))
  obtain ⟨hfits, hlogs, rfl⟩ := subjectGet_logOf hget
  have hget' := subjectGet_of_log
    { st with queues := st.queues.insert (pairKey s g) (queueRecord plan.q) } hfits hlogs false
  obtain ⟨hqueues, hlog⟩ := deadLetters_queues V now g hget' plan.deadNow.rows
  rw [← hst] at hqueues hlog
  refine ⟨plan.q, ?_, ?_⟩
  · rw [hqueues]
    exact ExtTreeMap.getElem?_insert_self
  have hlog' : t.store.logOf s = st.logOf s := hlog
  have hword : effectiveLease lease q < 2 ^ 64 := by
    simp only [effectiveLease]
    split
    · exact leaseMs_lt_of_load hload
    · exact hlease
  have htaken : TakenFrom now (effectiveLease lease q) (clampMax max) (st.logOf s).last q plan := by
    rw [hplan]
    exact plannedTake_from now max lease (st.logOf s) q
  rw [hlog', hjobs, and_iff_left (htaken.answers hpos ho)]
  by_cases hlt : max < 1
  · refine ⟨fun _ => .inl hlt, fun _ hfew => ?_⟩
    have : min max (BJM_INFLIGHT_MAX : ℤ) ≤ max := Int.min_le_left _ _
    omega
  · have hm : (clampMax max : ℤ) = min max BJM_INFLIGHT_MAX := by
      have hcap : (BJM_INFLIGHT_MAX : ℤ) = 256 := rfl
      simp only [clampMax, if_neg hlt]
      split <;> omega
    constructor
    · intro hnothing
      exact .inr (htaken.suits hpos hnow hword hm hnothing)
    · rintro (hlt | hsuits)
      · omega
      · exact htaken.leavesNothing hpos hnow hword hm hsuits

/-- Two jobs, a group that waits for the first, and a forced trim that took it. -/
def trimmedPast : Except BjErr Store := do
  let (_, st) ← Store.empty.bjmPublish 0 (ascii "jobs") ⟨BJM_ENTRY_PLAIN, [7]⟩
  let (_, st) ← st.bjmPublish 0 (ascii "jobs") ⟨BJM_ENTRY_PLAIN, [8]⟩
  let st ← st.bjmQueueConfig (ascii "jobs") (ascii "workers") 10 0 0 0
  let (_, _, st) ← st.bjmTrim (ascii "jobs") 2 true
  pure st

def trimmedPastStore : Store := trimmedPast.toOption.getD .empty

/-- The group before the take, and after it. -/
def waitingGroup : Qrec := { Qrec.fresh 1 with
  leaseMs := 10
  maxAttempts := 0
  backoffMs := 0
  maxBackoffMs := 0 }

def emptyHanded : Qrec := { waitingGroup with
  next := 2
  fl := ⟨[⟨1, 30, 1⟩], by decide⟩ }

def trimmedTake : Except BjErr Taken :=
  trimmedPastStore.bjmTake .silent 20 (ascii "jobs") (ascii "workers") 1 UINT64_MAX

def trimmedTaken : Taken := trimmedTake.toOption.getD ⟨[], [], .empty⟩

/-- The take for one job answers with none, and the second job is still waiting. -/
theorem trimmed_job_takes_place :
    trimmedPast = .ok trimmedPastStore ∧ trimmedTake = .ok trimmedTaken ∧
    trimmedPastStore.queueLoad (ascii "jobs") (ascii "workers") = .ok (waitingGroup, true) ∧
    trimmedTaken.jobs = [] ∧ Lives (trimmedTaken.store.logOf (ascii "jobs")) 2 ∧
    trimmedTaken.store.queues[pairKey (ascii "jobs") (ascii "workers")]? =
      some (queueRecord emptyHanded) ∧
    ¬ (LeavesNothing (trimmedTaken.store.logOf (ascii "jobs")) 20 1 emptyHanded trimmedTaken.jobs ∧
      Answers 20 waitingGroup emptyHanded trimmedTaken.jobs) := by
  refine ⟨rfl, rfl, rfl, rfl, rfl, rfl, fun h => ?_⟩
  obtain ⟨-, hend⟩ := h.1 (by decide)
  rcases hend with hlast | ⟨hfull, -⟩
  · exact absurd hlast (by decide)
  · exact absurd hfull (by decide)

theorem trimmed_job_complete_iff :
    ∃ q', trimmedTaken.store.queues[pairKey (ascii "jobs") (ascii "workers")]? =
        some (queueRecord q') ∧
      (LeavesNothing (trimmedTaken.store.logOf (ascii "jobs")) 20 1 q' trimmedTaken.jobs ∧
          Answers 20 waitingGroup q' trimmedTaken.jobs ↔
        (1 : ℤ) < 1 ∨ Suits (trimmedPastStore.logOf (ascii "jobs")) 20 10 1 waitingGroup) := by
  have htake : trimmedPastStore.bjmTake .silent 20 (ascii "jobs") (ascii "workers") 1 UINT64_MAX =
      .ok trimmedTaken := rfl
  have hload : trimmedPastStore.queueLoad (ascii "jobs") (ascii "workers") =
      .ok (waitingGroup, true) := rfl
  exact take_complete_iff htake hload ⟨List.nodup_nil, by simp [waitingGroup, Qrec.fresh]⟩
    (by decide) (by decide) (by decide)

end SukkalMsg
