import SukkalMsg.QueueGroups

/-!
# Which jobs a take comes to

The sweep of a take goes through the table from its first row. A row given up on is
replaced by the last one, which comes next; the sweep ends when it has the jobs it was
asked for. So the rows it comes to, and those it leaves, are known from the table alone,
and so is how many new jobs are handed out after them.
-/

namespace SukkalMsg

open Std Names Binjson OrderedScan

open BoundedTable

def Slot.lapsed (now : ℕ) (e : Slot) : Bool := e.expires ≤ now

/-- The job can be let again. -/
def Slot.due (now maxAttempts : ℕ) (e : Slot) : Bool := e.lapsed now && !e.exhausted maxAttempts

def Slot.spent (now maxAttempts : ℕ) (e : Slot) : Bool := e.lapsed now && e.exhausted maxAttempts

/-- The rows a take that wants so many jobs comes to, and those it leaves. -/
def comeTo (now maxAttempts : ℕ) : ℕ → ℕ → List Slot → List Slot × List Slot
  | 0, _, rows => ([], rows)
  | _ + 1, 0, rows => ([], rows)
  | _ + 1, _ + 1, [] => ([], [])
  | fuel + 1, want + 1, e :: rows =>
    if e.spent now maxAttempts then
      (e :: (comeTo now maxAttempts fuel (want + 1) (lastFirst rows)).1,
        (comeTo now maxAttempts fuel (want + 1) (lastFirst rows)).2)
    else if e.due now maxAttempts then
      (e :: (comeTo now maxAttempts fuel want rows).1, (comeTo now maxAttempts fuel want rows).2)
    else
      (e :: (comeTo now maxAttempts fuel (want + 1) rows).1,
        (comeTo now maxAttempts fuel (want + 1) rows).2)

section ComeTo

variable (now maxAttempts : ℕ)

theorem comeTo_perm (fuel want : ℕ) (rows : List Slot) :
    ((comeTo now maxAttempts fuel want rows).1 ++
      (comeTo now maxAttempts fuel want rows).2).Perm rows := by
  induction fuel, want, rows using comeTo.induct now maxAttempts with
  | case1 | case2 | case3 => simp only [comeTo, List.nil_append, List.Perm.refl]
  | case4 fuel want e rows hspent ih =>
    simp only [comeTo, if_pos hspent, List.cons_append]
    exact (ih.trans (lastFirst_perm rows)).cons e
  | case5 fuel want e rows hspent hdue ih =>
    simp only [comeTo, if_neg hspent, if_pos hdue, List.cons_append]
    exact ih.cons e
  | case6 fuel want e rows hspent hdue ih =>
    simp only [comeTo, if_neg hspent, if_neg hdue, List.cons_append]
    exact ih.cons e

theorem comeTo_count (fuel want : ℕ) (rows : List Slot) (hfuel : rows.length ≤ fuel) :
    (comeTo now maxAttempts fuel want rows).1.countP (Slot.due now maxAttempts) ≤ want ∧
      ((comeTo now maxAttempts fuel want rows).2 = [] ∨
        (comeTo now maxAttempts fuel want rows).1.countP (Slot.due now maxAttempts) = want) := by
  induction fuel, want, rows using comeTo.induct now maxAttempts with
  | case1 want rows =>
    have hnil : rows = [] := List.length_eq_zero_iff.mp (Nat.le_zero.mp hfuel)
    simp only [comeTo, hnil, List.countP_nil, Nat.zero_le, true_or, and_self]
  | case2 fuel rows => simp only [comeTo, List.countP_nil, Nat.le_refl, or_true, and_self]
  | case3 fuel want => simp only [comeTo, List.countP_nil, Nat.zero_le, true_or, and_self]
  | case4 fuel want e rows hspent ih =>
    have hdue : ¬ e.due now maxAttempts = true := by
      simp only [Slot.spent, Bool.and_eq_true] at hspent
      simp [Slot.due, hspent]
    have hlen := (lastFirst_perm rows).length_eq
    simp only [List.length_cons] at hfuel
    simp only [comeTo, if_pos hspent, List.countP_cons_of_neg hdue]
    exact ih (by omega)
  | case5 fuel want e rows hspent hdue ih =>
    simp only [List.length_cons] at hfuel
    obtain ⟨hle, hleft⟩ := ih (by omega)
    simp only [comeTo, if_neg hspent, if_pos hdue, List.countP_cons_of_pos hdue]
    exact ⟨by omega, hleft.imp id fun h => by omega⟩
  | case6 fuel want e rows hspent hdue ih =>
    simp only [List.length_cons] at hfuel
    simp only [comeTo, if_neg hspent, if_neg hdue, List.countP_cons_of_neg hdue]
    exact ih (by omega)

end ComeTo

/-- What the sweep has done when it has come to some rows and leaves others. -/
structure Came (now lease : ℕ) (s s' : TakeState) (pre met left : List Slot) : Prop where
  rows : ∃ suf, s'.q.fl.rows = pre ++ suf ∧
    suf.Perm (met.filter (fun e => !e.lapsed now) ++
      (met.filter (Slot.due now s.q.maxAttempts)).map (Slot.renew now lease) ++ left)
  chosen : s'.chosen = s.chosen ++
    (met.filter (Slot.due now s.q.maxAttempts)).map fun e => (e.index, e.attempts + 1)
  next : s'.q.next = s.q.next

namespace Came

variable {now lease : ℕ} {s s' : TakeState} {pre met left suf : List Slot} {e : Slot}

theorem stop (hrows : s.q.fl.rows = pre ++ left) : Came now lease s s pre [] left where
  rows := ⟨left, hrows, .refl left⟩
  chosen := by simp
  next := rfl

theorem keep (h : Came now lease s s' (pre ++ [e]) met left) (he : e.lapsed now = false) :
    Came now lease s s' pre (e :: met) left := by
  have hdue : e.due now s.q.maxAttempts = false := by simp [Slot.due, he]
  obtain ⟨suf, hrows, hperm⟩ := h.rows
  refine ⟨⟨e :: suf, by simpa using hrows, ?_⟩, ?_, h.next⟩
  · simp only [List.filter_cons, he, hdue, Bool.not_false, if_true, Bool.false_eq_true, if_false,
      List.cons_append]
    exact hperm.cons e
  · simpa only [List.filter_cons, hdue, Bool.false_eq_true, if_false] using h.chosen

theorem bury (h : Came now lease (s.bury pre.length e) s' pre met left)
    (he : e.spent now s.q.maxAttempts = true) : Came now lease s s' pre (e :: met) left := by
  simp only [Slot.spent, Bool.and_eq_true] at he
  have hdue : e.due now s.q.maxAttempts = false := by simp [Slot.due, he]
  refine ⟨?_, ?_, h.next⟩
  · simp only [List.filter_cons, he.1, hdue, Bool.not_true, Bool.false_eq_true, if_false]
    exact h.rows
  · simp only [List.filter_cons, hdue, Bool.false_eq_true, if_false]
    exact h.chosen

theorem relet (h : Came now lease (s.relet now lease pre.length e) s'
      (pre ++ [e.renew now lease]) met left)
    (he : e.due now s.q.maxAttempts = true) : Came now lease s s' pre (e :: met) left := by
  have hlapsed : e.lapsed now = true := by
    simp only [Slot.due, Bool.and_eq_true] at he
    exact he.1
  obtain ⟨suf, hrows, hperm⟩ := h.rows
  refine ⟨⟨e.renew now lease :: suf, by simpa using hrows, ?_⟩, ?_, h.next⟩
  · simp only [List.filter_cons, hlapsed, he, Bool.not_true, Bool.false_eq_true, if_false, if_true,
      List.map_cons, List.append_assoc, List.cons_append]
    refine (hperm.cons _).trans ?_
    simp only [List.append_assoc]
    exact List.perm_middle.symm
  · rw [h.chosen]
    simp only [TakeState.relet, List.filter_cons, he, if_true, List.map_cons, List.append_assoc,
      List.singleton_append]

end Came

theorem takeExpired_came (now lease max fuel : ℕ) (s : TakeState) (pre suf : List Slot)
    (hrows : s.q.fl.rows = pre ++ suf) :
    Came now lease s (takeExpired now lease max fuel pre.length s) pre
      (comeTo now s.q.maxAttempts fuel (max - s.chosen.length) suf).1
      (comeTo now s.q.maxAttempts fuel (max - s.chosen.length) suf).2 := by
  induction fuel generalizing s pre suf with
  | zero =>
    simp only [takeExpired, comeTo]
    exact .stop hrows
  | succ fuel ih =>
    cases suf with
    | nil =>
      have hnone : s.q.fl.rows[pre.length]? = none := by simp [hrows]
      simp only [takeExpired, hnone]
      cases max - s.chosen.length with
      | zero => exact .stop hrows
      | succ want => exact .stop hrows
    | cons e suf =>
      have hget : s.q.fl.rows[pre.length]? = some e := by simp [hrows]
      simp only [takeExpired, hget]
      by_cases hfull : s.chosen.length ≥ max
      · rw [if_pos hfull, Nat.sub_eq_zero_of_le hfull]
        exact .stop hrows
      obtain ⟨want, hwant⟩ : ∃ want, max - s.chosen.length = want + 1 :=
        ⟨max - s.chosen.length - 1, by omega⟩
      rw [if_neg hfull, hwant]
      simp only [comeTo]
      by_cases hrun : e.expires > now
      · -- the lease still runs
        have hlapsed : e.lapsed now = false := by simp [Slot.lapsed, hrun]
        have hrest := ih s (pre ++ [e]) suf (by simpa using hrows)
        rw [List.length_append, List.length_singleton, hwant] at hrest
        simpa only [if_pos hrun, Slot.spent, Slot.due, hlapsed, Bool.false_and, Bool.false_eq_true,
          if_false] using hrest.keep hlapsed
      have hlapsed : e.lapsed now = true := by simpa [Slot.lapsed] using hrun
      rw [if_neg hrun]
      cases hout : e.exhausted s.q.maxAttempts with
      | true =>
        -- the last row now stands where the buried one stood
        have hspent : e.spent now s.q.maxAttempts = true := by simp [Slot.spent, hlapsed, hout]
        have hrest := ih (s.bury pre.length e) pre (lastFirst suf) (by
          simp only [TakeState.bury, swapRemove, hrows]
          exact removeRow_lastFirst pre suf e)
        simp only [TakeState.bury, hwant] at hrest
        simp only [if_true, hspent]
        exact Came.bury hrest hspent
      | false =>
        have hdue : e.due now s.q.maxAttempts = true := by simp [Slot.due, hlapsed, hout]
        have hspent : e.spent now s.q.maxAttempts = false := by simp [Slot.spent, hout]
        have hrest := ih (s.relet now lease pre.length e) (pre ++ [e.renew now lease]) suf (by
          simp only [TakeState.relet, set_rows hrows]
          simp)
        have hleft : max - (s.relet now lease pre.length e).chosen.length = want := by
          simp only [TakeState.relet, List.length_append, List.length_singleton]
          omega
        rw [List.length_append, hleft] at hrest
        simp only [Bool.false_eq_true, if_false, hspent, hdue, if_true]
        exact Came.relet hrest hdue

theorem takeFresh_stops (now lease max last fuel : ℕ) (s : TakeState)
    (hfuel : max ≤ fuel + s.chosen.length) (hmax : s.chosen.length ≤ max) :
    (takeFresh now lease max last fuel s).chosen.length ≤ max ∧
      (max ≤ (takeFresh now lease max last fuel s).chosen.length ∨
        last < (takeFresh now lease max last fuel s).q.next ∨
        0 < lease ∧ BJM_INFLIGHT_MAX ≤ (takeFresh now lease max last fuel s).q.fl.count) := by
  induction fuel generalizing s with
  | zero =>
    simp only [takeFresh]
    exact ⟨hmax, .inl (by omega)⟩
  | succ fuel ih =>
    simp only [takeFresh]
    split
    · rename_i hmore
      split
      · rename_i hfull
        exact ⟨hmax, .inr (.inr hfull)⟩
      · have hlen : (s.handOut now lease).chosen.length = s.chosen.length + 1 := by
          simp [TakeState.handOut]
        exact ih (s.handOut now lease) (by omega) (by omega)
    · rename_i hno
      exact ⟨hmax, by omega⟩

/-- The places the table has once the jobs given up on are out of it. -/
def roomFor (now : ℕ) (q : Qrec) : ℕ :=
  BJM_INFLIGHT_MAX - (q.fl.rows.length - q.fl.rows.countP (Slot.spent now q.maxAttempts))

/-- How many jobs nobody has seen a take hands out. -/
def freshCount (now lease m last : ℕ) (q : Qrec) : ℕ :=
  min (m - q.fl.rows.countP (Slot.due now q.maxAttempts))
    (if lease = 0 then last + 1 - q.next else min (last + 1 - q.next) (roomFor now q))

/-- The rows a take comes to, and those it leaves. -/
def metRows (now m : ℕ) (q : Qrec) : List Slot := (comeTo now q.maxAttempts q.fl.count m q.fl.rows).1
def leftRows (now m : ℕ) (q : Qrec) : List Slot :=
  (comeTo now q.maxAttempts q.fl.count m q.fl.rows).2

/-- The jobs it lets again. -/
def againRows (now m : ℕ) (q : Qrec) : List Slot :=
  (metRows now m q).filter (Slot.due now q.maxAttempts)

/-- What a take makes of a group's record, all of it known from the record before. -/
structure TakenFrom (now lease m last : ℕ) (q : Qrec) (s : TakeState) : Prop where
  rows : s.q.fl.rows.Perm ((metRows now m q).filter (fun e => !e.lapsed now) ++
    (againRows now m q).map (Slot.renew now lease) ++ leftRows now m q ++
    freshRows now lease q.next (freshCount now lease m last q))
  chosen : s.chosen = (againRows now m q).map (fun e => (e.index, e.attempts + 1)) ++
    (List.range' q.next (freshCount now lease m last q)).map (·, 1)
  next : s.q.next = q.next + freshCount now lease m last q

section Met

variable {now m : ℕ} {q : Qrec}

theorem met_perm (now m : ℕ) (q : Qrec) : (metRows now m q ++ leftRows now m q).Perm q.fl.rows :=
  comeTo_perm _ _ _ _ _

theorem length_again (now m : ℕ) (q : Qrec) :
    (againRows now m q).length = min m (q.fl.rows.countP (Slot.due now q.maxAttempts)) ∧
      (q.fl.rows.countP (Slot.due now q.maxAttempts) < m → leftRows now m q = []) := by
  obtain ⟨hle, hleft⟩ := comeTo_count now q.maxAttempts q.fl.count m q.fl.rows (Nat.le_refl _)
  have hcount := (met_perm now m q).countP_eq (Slot.due now q.maxAttempts)
  rw [List.countP_append] at hcount
  simp only [againRows, ← List.countP_eq_length_filter]
  change (metRows now m q).countP _ ≤ m at hle
  change leftRows now m q = [] ∨ (metRows now m q).countP _ = m at hleft
  rcases hleft with hleft | hleft
  · rw [hleft, List.countP_nil] at hcount
    exact ⟨by omega, fun _ => hleft⟩
  · exact ⟨by omega, fun hlt => by omega⟩

theorem countP_rows (now maxAttempts : ℕ) (l : List Slot) :
    l.countP (fun e => !e.lapsed now) + l.countP (Slot.due now maxAttempts) +
      l.countP (Slot.spent now maxAttempts) = l.length := by
  induction l with
  | nil => rfl
  | cons e l ih =>
    simp only [List.countP_cons, List.length_cons, ← ih, Slot.due, Slot.spent]
    by_cases hlapsed : e.lapsed now = true
    · by_cases hout : e.exhausted maxAttempts = true
      · simp [hlapsed, hout]
        omega
      · simp [hlapsed, hout]
        omega
    · simp [hlapsed]
      omega

theorem takePlan_from (now lease m last : ℕ) (q : Qrec) :
    TakenFrom now lease m last q (takePlan now lease m last q) := by
  have hcame := takeExpired_came now lease m q.fl.count ⟨q, [], .empty⟩ [] q.fl.rows rfl
  simp only [List.length_nil, Nat.sub_zero] at hcame
  change Came now lease _ _ [] (metRows now m q) (leftRows now m q) at hcame
  obtain ⟨⟨suf, hrows, hperm⟩, hchosen, hnext⟩ := hcame
  change suf.Perm (_ ++ (againRows now m q).map _ ++ _) at hperm
  change _ = [] ++ (againRows now m q).map _ at hchosen
  change _ = q.next at hnext
  simp only [List.nil_append] at hrows hchosen
  set s := takeExpired now lease m q.fl.count 0 ⟨q, [], .empty⟩ with hs
  obtain ⟨hagain, hleft⟩ := length_again now m q
  have hlen : s.chosen.length = (againRows now m q).length := by rw [hchosen, List.length_map]
  obtain ⟨hmax, hstop⟩ := takeFresh_stops now lease m last m s (Nat.le_add_right _ _) (by
    rw [hlen, hagain]
    exact Nat.min_le_left _ _)
  obtain ⟨k, hrows', hnext', hle, hchosen', -⟩ := takeFresh_eq now lease m last m s
  have hk : k = freshCount now lease m last q := by
    have htotal := countP_rows now q.maxAttempts q.fl.rows
    have hroom : q.fl.rows.countP (Slot.due now q.maxAttempts) < m →
        s.q.fl.rows.length =
          q.fl.rows.length - q.fl.rows.countP (Slot.spent now q.maxAttempts) := by
      intro hlt
      have hmet := met_perm now m q
      rw [hleft hlt, List.append_nil] at hmet
      rw [hrows, hperm.length_eq, hleft hlt, List.append_nil, List.length_append, List.length_map,
        hagain, ← List.countP_eq_length_filter, hmet.countP_eq]
      omega
    have hfits := (takeFresh now lease m last m s).q.fl.fits
    have hlen' := congrArg List.length hrows'
    have hlenc := congrArg List.length hchosen'
    simp only [List.length_append, List.length_map, List.length_range'] at hlen' hlenc
    simp only [BoundedTable.count] at hstop
    rw [hlen, hagain] at hlenc
    rw [hlenc, hnext', hnext] at hstop
    rw [hlenc] at hmax
    rw [hnext] at hle
    simp only [freshCount, roomFor]
    rcases Nat.eq_zero_or_pos lease with hzero | hpos
    · rw [if_pos hzero]
      omega
    · rw [if_neg (Nat.pos_iff_ne_zero.mp hpos)]
      have hfresh : (freshRows now lease s.q.next k).length = k := by
        simp only [freshRows, if_pos hpos, List.length_map, List.length_range']
      rw [hfresh] at hlen'
      by_cases hlt : q.fl.rows.countP (Slot.due now q.maxAttempts) < m
      · have := hroom hlt
        omega
      · omega
  rw [hk] at hrows' hnext' hchosen'
  rw [hnext] at hrows' hnext' hchosen'
  refine ⟨?_, ?_, hnext'⟩
  · rw [takePlan, hrows', hrows]
    exact hperm.append_right _
  · rw [takePlan, hchosen', hchosen]

theorem plannedTake_from (now : ℕ) (max : ℤ) (lease : ℕ) (log : Elog) (q : Qrec) :
    TakenFrom now (Store.effectiveLease lease q) (clampMax max) log.last q
      (plannedTake now max lease log q) := by
  obtain ⟨hrows, hchosen, hnext⟩ := takePlan_from now (Store.effectiveLease lease q) (clampMax max)
    log.last { q with leaseMs := Store.effectiveLease lease q }
  exact ⟨hrows, hchosen, hnext⟩

end Met

end SukkalMsg
