import Mathlib.Algebra.BigOperators.Group.List.Basic
import SukkalMsg.RepeatedCalls
import SukkalMsg.Legibility

/-!
# Jobs taken and settled twice

A job that is done is no longer in the table, so settling it again finds nothing. A failed
one stays there, and failing it again moves its due time along with the clock. A take that
follows a take writes another record unless no lease has run out in between and nothing was
left to hand out.
-/

namespace SukkalMsg

open Std Names Binjson OrderedScan

theorem wrapped_of_stored {q q' : Qrec} {r : Record} (hd : queueDecode r = .ok q)
    (h : queueRecord q' = r) : q'.wrapped = q := by
  subst h
  by_cases hr : Readable (queueRecord q')
  · rw [← queueRecord_wrapped] at hr hd
    rw [queueDecode_of_readable q'.wrapped_words hr] at hd
    exact Except.ok.inj hd
  · rw [queueDecode_of_unreadable hr] at hd
    contradiction

/-- The record a settlement of row `at_` stores. -/
def Qrec.settled (q : Qrec) (now at_ : ℕ) (drop : Bool) (delay : ℕ) : Qrec :=
  if drop then { q with fl := q.fl.swapRemove at_ }
  else
    let e := q.fl.rows.getD at_ ⟨0, 0, 0⟩
    { q with fl := q.fl.set at_ { e with expires := u64 (now + retryDelay q delay e) } }

/-- No lease has run out, and there is nothing to hand out or no room to note it. -/
structure Qrec.Idle (q : Qrec) (now lease last : ℕ) : Prop where
  running : ∀ e ∈ q.fl.rows, now < e.expires
  drained : last < q.next ∨ 0 < lease ∧ BJM_INFLIGHT_MAX ≤ q.fl.count

theorem takeExpired_idle {now lease max fuel i : ℕ} {s : TakeState}
    (h : ∀ e ∈ s.q.fl.rows, now < e.expires) : takeExpired now lease max fuel i s = s := by
  induction fuel generalizing i with
  | zero => rfl
  | succ fuel ih =>
    simp only [takeExpired]
    split
    · rfl
    · rename_i e hget
      split
      · rfl
      · rw [if_pos (h e (List.mem_of_getElem? hget))]
        exact ih

theorem takePlan_idle {now lease max last : ℕ} {q : Qrec} (h : q.Idle now lease last) :
    takePlan now lease max last q = ⟨q, [], .empty⟩ := by
  rw [takePlan, takeExpired_idle h.running]
  cases max with
  | zero => rfl
  | succ max =>
    simp only [takeFresh]
    rcases h.drained with hnext | ⟨hlease, hfull⟩
    · rw [if_neg (by omega)]
    · split
      · rw [if_pos ⟨hlease, hfull⟩]
      · rfl

theorem takeExpired_grows (now lease max fuel i : ℕ) (s : TakeState) :
    s.q.deadTotal ≤ (takeExpired now lease max fuel i s).q.deadTotal ∧
      s.chosen.length ≤ (takeExpired now lease max fuel i s).chosen.length ∧
      (takeExpired now lease max fuel i s).q.next = s.q.next := by
  induction fuel generalizing i s with
  | zero => exact ⟨Nat.le_refl _, Nat.le_refl _, rfl⟩
  | succ fuel ih =>
    simp only [takeExpired]
    split
    · exact ⟨Nat.le_refl _, Nat.le_refl _, rfl⟩
    rename_i e _
    split
    · exact ⟨Nat.le_refl _, Nat.le_refl _, rfl⟩
    split
    · exact ih (i + 1) s
    split
    · obtain ⟨htotal, hchosen, hnext⟩ := ih i (s.bury i e)
      exact ⟨Nat.le_trans (Nat.le_succ _) htotal, hchosen, hnext⟩
    · obtain ⟨htotal, hchosen, hnext⟩ := ih (i + 1) (s.relet now lease i e)
      refine ⟨htotal, Nat.le_trans ?_ hchosen, hnext⟩
      simp [TakeState.relet]

/-- A sweep that has buried and let nothing has found every lease running. -/
theorem takeExpired_quiet {now lease max fuel i : ℕ} {s : TakeState} (hmax : 0 < max)
    (hfuel : s.q.fl.rows.length ≤ i + fuel) (hnone : s.chosen = [])
    (htotal : (takeExpired now lease max fuel i s).q.deadTotal = s.q.deadTotal)
    (hchosen : (takeExpired now lease max fuel i s).chosen = []) :
    ∀ e ∈ s.q.fl.rows.drop i, now < e.expires := by
  induction fuel generalizing i with
  | zero =>
    intro e he
    rw [List.drop_eq_nil_of_le (show s.q.fl.rows.length ≤ i from hfuel)] at he
    contradiction
  | succ fuel ih =>
    cases hget : s.q.fl.rows[i]? with
    | none =>
      intro e he
      rw [List.drop_eq_nil_of_le (List.getElem?_eq_none_iff.mp hget)] at he
      contradiction
    | some e =>
      obtain ⟨hi, rfl⟩ := List.getElem?_eq_some_iff.mp hget
      have hopen : ¬ s.chosen.length ≥ max := by
        rw [hnone, List.length_nil]
        omega
      simp only [takeExpired, hget, hopen, if_false] at htotal hchosen
      rw [List.drop_eq_getElem_cons hi]
      split at htotal
      · rename_i hrun
        rw [if_pos hrun] at hchosen
        intro f hf
        rcases List.mem_cons.mp hf with rfl | hf
        · exact hrun
        · exact ih (by omega) htotal hchosen f hf
      · rename_i hdue
        rw [if_neg hdue] at hchosen
        split at htotal
        · have hgrow := (takeExpired_grows now lease max fuel i (s.bury i s.q.fl.rows[i])).1
          rw [htotal] at hgrow
          simp only [TakeState.bury] at hgrow
          omega
        · rename_i hleft
          rw [if_neg hleft] at hchosen
          have hgrow :=
            (takeExpired_grows now lease max fuel (i + 1) (s.relet now lease i s.q.fl.rows[i])).2.1
          rw [hchosen] at hgrow
          simp [TakeState.relet] at hgrow

theorem takeFresh_next_le (now lease max last fuel : ℕ) (s : TakeState) :
    (takeFresh now lease max last fuel s).q.next ≤ s.q.next + fuel := by
  induction fuel generalizing s with
  | zero => exact Nat.le_refl _
  | succ fuel ih =>
    simp only [takeFresh]
    split
    · split
      · omega
      · have hstep := ih (s.handOut now lease)
        have hnext : (s.handOut now lease).q.next = s.q.next + 1 := rfl
        omega
    · omega

theorem old_eq_nil {now lease : ℕ} {rows rows' kept old : List Slot} (hfits : old.length < 2 ^ 64)
    (hbefore : rows.Perm (kept ++ old))
    (hafter : rows'.Perm (kept ++ old.map (Slot.renew now lease)))
    (h : rows'.map Slot.wrapped = rows) : old = [] := by
  have hsum := congrArg (fun l : List Slot => (l.map Slot.attempts).sum % 2 ^ 64) h
  have hwrap : ((rows'.map Slot.wrapped).map Slot.attempts).sum % 2 ^ 64 =
      (rows'.map Slot.attempts).sum % 2 ^ 64 := by
    rw [List.sum_nat_mod (rows'.map Slot.attempts), List.map_map, List.map_map]
    rfl
  have hone : ((old.map (Slot.renew now lease)).map Slot.attempts).sum =
      (old.map Slot.attempts).sum + old.length := by
    simp [Function.comp_def, Slot.renew, List.sum_map_add]
  rw [hwrap, ((hbefore.map _).sum_eq), ((hafter.map _).sum_eq), List.map_append, List.map_append,
    List.sum_append, List.sum_append, hone] at hsum
  apply List.eq_nil_of_length_eq_zero
  omega

/-- A take that leaves the record as it loads has found the group idle. -/
theorem idle_of_unchanged {now lease max last : ℕ} {q : Qrec} (hmax : 0 < max)
    (hcap : max ≤ BJM_INFLIGHT_MAX) (hq : q.Words)
    (h : (takePlan now lease max last q).q.wrapped = q) : q.Idle now lease last := by
  obtain ⟨kept, old, buried, k, hout⟩ := takePlan_outcome now lease max last q
  have hnext : u64 (takePlan now lease max last q).q.next = q.next := congrArg Qrec.next h
  have htotal : u64 (takePlan now lease max last q).q.deadTotal = q.deadTotal :=
    congrArg Qrec.deadTotal h
  have hrows : (takePlan now lease max last q).q.fl.rows.map Slot.wrapped = q.fl.rows :=
    congrArg (fun q : Qrec => q.fl.rows) h
  have hfits := q.fl.fits
  have hlen := hout.before.length_eq
  simp only [List.length_append] at hlen
  simp only [BJM_INFLIGHT_MAX] at hfits hcap
  have hburied : buried = [] := by
    rw [hout.deadTotal] at htotal
    have hword : q.deadTotal < 2 ^ 64 := hq _ (by simp [Qrec.ints])
    simp only [u64] at htotal
    apply List.eq_nil_of_length_eq_zero
    omega
  have hk : k = 0 := by
    have hle := takeFresh_next_le now lease max last max
      (takeExpired now lease max q.fl.count 0 ⟨q, [], .empty⟩)
    rw [(takeExpired_grows now lease max q.fl.count 0 ⟨q, [], .empty⟩).2.2] at hle
    have hsame : (takePlan now lease max last q).q.next ≤ q.next + max := hle
    rw [hout.next] at hnext hsame
    have hword : q.next < 2 ^ 64 := hq _ (by simp [Qrec.ints])
    simp only [u64] at hnext
    omega
  subst hburied hk
  have hafter := hout.after
  simp only [freshRows, List.range'_zero, List.map_nil, ite_self, List.append_nil] at hafter
  have hbefore := hout.before
  rw [List.append_nil] at hbefore
  have hold := old_eq_nil (by omega) hbefore hafter hrows
  subst hold
  have hchosen : (takePlan now lease max last q).chosen = [] := by
    rw [hout.chosen]
    rfl
  have hdead : (takePlan now lease max last q).q.deadTotal = q.deadTotal := hout.deadTotal
  -- with nothing chosen the sweep has seen every row
  obtain ⟨k, -, -, -, hch, -, htot, -⟩ := takeFresh_eq now lease max last max
    (takeExpired now lease max q.fl.count 0 ⟨q, [], .empty⟩)
  have hrunning : ∀ e ∈ q.fl.rows, now < e.expires := by
    have hnone := (List.append_eq_nil_iff.mp (hch.symm.trans hchosen)).1
    exact takeExpired_quiet hmax (by simp [BoundedTable.count]) rfl (htot.symm.trans hdead) hnone
  refine ⟨hrunning, ?_⟩
  by_contra! hmore
  have hstay : (takePlan now lease max last q).q.next = q.next := hout.next
  rw [takePlan, takeExpired_idle hrunning] at hstay
  cases max with
  | zero => omega
  | succ max =>
    have hopen : ¬ (lease > 0 ∧ q.fl.count ≥ BJM_INFLIGHT_MAX) := by
      rintro ⟨hl, hfull⟩
      have := hmore.2 hl
      omega
    simp only [takeFresh, List.length_nil, Nat.succ_pos, hmore.1, and_self, if_true, hopen,
      if_false] at hstay
    obtain ⟨k, -, hgrow, -⟩ := takeFresh_eq now lease (max + 1) last max
      (TakeState.handOut now lease ⟨q, [], .empty⟩)
    rw [hgrow] at hstay
    simp only [TakeState.handOut] at hstay
    omega

namespace Store

/-- The group's table has a row for the job. -/
def InFlight (st : Store) (s g : Bytes) (index : ℕ) : Prop :=
  ∃ q, st.queueLoad s g = .ok (q, true) ∧ (flFind q index).isSome = true

variable {st st' : Store} {s g : Bytes}

theorem record_of_existed {q : Qrec} (h : st.queueLoad s g = .ok (q, true)) :
    ∃ r, st.queues[pairKey s g]? = some r ∧ queueDecode r = .ok q := by
  obtain ⟨key, hkey⟩ := Option.isSome_iff_exists.mp (queueKey_of_load h)
  obtain rfl := boundedKey_eq hkey
  simp only [queueLoad, hkey] at h
  cases hr : st.queues[pairKey s g]? with
  | none =>
    rw [hr] at h
    dsimp only at h
    split at h <;> simp at h
  | some r =>
    rw [hr] at h
    dsimp only at h
    cases hd : queueDecode r with
    | error e => simp [hd, Except.map] at h
    | ok q' =>
      rw [hd] at h
      obtain ⟨rfl, -⟩ := Prod.mk.inj (Except.ok.inj h)
      exact ⟨r, rfl, hd⟩

theorem queueRelease_cases {now index delay : ℕ} {drop : Bool} {r : Released}
    (h : st.queueRelease now s g index drop delay = .ok r) :
    (r.store = st ∧ ¬ st.InFlight s g index) ∨
      ∃ q at_, st.queueLoad s g = .ok (q, true) ∧ flFind q index = some at_ ∧
        r.store = { st with
          queues := st.queues.insert (pairKey s g)
            (queueRecord (q.settled now at_ drop delay)) } := by
  simp only [queueRelease] at h
  cases hload : st.queueLoad s g with
  | error e => simp [hload] at h
  | ok p =>
    obtain ⟨q, existed⟩ := p
    simp only [hload] at h
    cases existed with
    | false =>
      simp only [Bool.not_false, if_true] at h
      obtain rfl := Except.ok.inj h
      refine .inl ⟨rfl, ?_⟩
      rintro ⟨q', hload', -⟩
      simp [hload] at hload'
    | true =>
      simp only [Bool.not_true, Bool.false_eq_true, if_false] at h
      cases hfind : flFind q index with
      | none =>
        simp only [hfind] at h
        obtain rfl := Except.ok.inj h
        refine .inl ⟨rfl, ?_⟩
        rintro ⟨q', hload', hrow⟩
        obtain ⟨rfl, -⟩ := Prod.mk.inj (Except.ok.inj (hload.symm.trans hload'))
        simp [hfind] at hrow
      | some at_ =>
        simp only [hfind, queueStore_of_key (queueKey_of_load hload), Except.map] at h
        refine .inr ⟨q, at_, rfl, hfind, ?_⟩
        cases drop <;> exact (Except.ok.inj h) ▸ rfl

theorem load_of_release_error {now index delay : ℕ} {drop : Bool} {e : BjErr}
    (h : st.queueRelease now s g index drop delay = .error e) :
    st.queueLoad s g = .error e := by
  simp only [queueRelease] at h
  cases hload : st.queueLoad s g with
  | error e' =>
    rw [hload] at h
    rw [Except.error.inj h]
  | ok p =>
    simp only [hload, queueStore_of_key (queueKey_of_load hload), Except.map] at h
    split at h
    · contradiction
    split at h
    · contradiction
    · split at h <;> contradiction

theorem wrapped_of_sameFiles {q q' : Qrec} (hload : st.queueLoad s g = .ok (q, true))
    (hst : st' = { st with queues := st.queues.insert (pairKey s g) (queueRecord q') })
    (h : SameFiles st st') : q'.wrapped = q := by
  obtain ⟨r, hr, hdec⟩ := record_of_existed hload
  have hrow := congrArg (fun t : Tree => t[pairKey s g]?) h.queues
  simp only [hst, ExtTreeMap.getElem?_insert_self, hr] at hrow
  exact wrapped_of_stored hdec (Option.some.inj hrow)

theorem sameFiles_of_stored {q q' : Qrec} (hrow : st.queues[pairKey s g]? = some (queueRecord q))
    (hst : st' = { st with queues := st.queues.insert (pairKey s g) (queueRecord q') })
    (h : q'.wrapped = q.wrapped) : SameFiles st st' := by
  rw [hst, insert_eq_self]
  · exact .refl
  · rw [hrow, ← queueRecord_wrapped q, ← h, queueRecord_wrapped]

theorem bjmDone_same_iff {now index : ℕ} {r : Released} (h : st.bjmDone now s g index = .ok r) :
    SameFiles st r.store ↔ ¬ st.InFlight s g index := by
  rcases queueRelease_cases h with ⟨heq, hno⟩ | ⟨q, at_, hload, hfind, hst⟩
  · rw [heq]
    exact ⟨fun _ => hno, fun _ => .refl⟩
  · refine ⟨fun hsame => ?_, fun hno => absurd ⟨q, hload, by simp [hfind]⟩ hno⟩
    have hlen := congrArg (fun q : Qrec => q.fl.rows.length) (wrapped_of_sameFiles hload hst hsame)
    obtain ⟨pre, e, suf, hrows, rfl, -⟩ := flFind_eq_some hfind
    simp only [Qrec.settled, if_true, Qrec.wrapped, BoundedTable.swapRemove, List.length_map,
      BoundedTable.length_removeRow, hrows, List.length_append, List.length_cons] at hlen
    omega

theorem flFind_settled {q : Qrec} {now index at_ delay : ℕ} (hfind : flFind q index = some at_) :
    flFind (q.settled now at_ false delay) index = some at_ := by
  obtain ⟨pre, e, suf, hrows, rfl, hindex⟩ := flFind_eq_some hfind
  have hmap : ∀ rows : List Slot, rows.findIdx? (·.index == index) =
      (rows.map Slot.index).findIdx? (· == index) := by
    intro rows
    rw [List.findIdx?_map]
    rfl
  rw [flFind, hmap] at hfind ⊢
  rw [← hfind]
  simp [Qrec.settled, BoundedTable.set, hrows]

theorem settled_rows {q : Qrec} {now delay : ℕ} {pre suf : List Slot} {e : Slot}
    (hrows : q.fl.rows = pre ++ e :: suf) :
    (q.settled now pre.length false delay).fl.rows =
      pre ++ { e with expires := u64 (now + retryDelay q delay e) } :: suf := by
  have he : q.fl.rows.getD pre.length ⟨0, 0, 0⟩ = e := by simp [hrows]
  simp only [Qrec.settled, Bool.false_eq_true, if_false, he, BoundedTable.set_rows hrows]

theorem settled_words {q : Qrec} {now index at_ delay : ℕ} (h : q.Words)
    (hfind : flFind q index = some at_) : (q.settled now at_ false delay).Words := by
  obtain ⟨pre, e, suf, hrows, rfl, -⟩ := flFind_eq_some hfind
  have hflat : ∀ n ∈ flat q.fl.rows, n < 2 ^ 64 := fun n hn => h n (by simp [Qrec.ints, hn])
  intro n hn
  simp only [Qrec.ints, settled_rows hrows, List.mem_append] at hn
  rcases hn with (hn | hn) | hn
  · exact h n (by simp only [Qrec.ints, List.mem_append]; exact .inl (.inl hn))
  · obtain ⟨f, hf, hfn⟩ := mem_flat.mp hn
    simp only [List.mem_append, List.mem_cons] at hf
    have hold : ∀ f ∈ q.fl.rows, n = f.index ∨ n = f.expires ∨ n = f.attempts → n < 2 ^ 64 :=
      fun f hf hfn => hflat n (mem_flat.mpr ⟨f, hf, hfn⟩)
    rcases hf with hf | rfl | hf
    · exact hold f (by simp [hrows, hf]) hfn
    · rcases hfn with rfl | rfl | rfl
      · exact hold e (by simp [hrows]) (.inl rfl)
      · exact u64_lt _
      · exact hold e (by simp [hrows]) (.inr (.inr rfl))
    · exact hold f (by simp [hrows, hf]) hfn
  · exact h n (by simp only [Qrec.ints, List.mem_append]; exact .inr hn)

theorem settled_settled {q : Qrec} {now now' index at_ delay : ℕ}
    (hfind : flFind q index = some at_) :
    (q.settled now at_ false delay).settled now' at_ false delay =
      q.settled now' at_ false delay := by
  obtain ⟨pre, e, suf, hrows, rfl, -⟩ := flFind_eq_some hfind
  have hfl : ((q.settled now pre.length false delay).settled now' pre.length false delay).fl =
      (q.settled now' pre.length false delay).fl := by
    apply BoundedTable.ext
    rw [settled_rows (settled_rows hrows), settled_rows hrows]
    rfl
  simp only [Qrec.settled, Bool.false_eq_true, if_false, Qrec.mk.injEq, true_and, and_true] at hfl ⊢
  exact hfl

/-- A job that fails once more is due once more at another time, unless it fails within the
millisecond. -/
theorem bjmFail_again_iff {now now' index delay : ℕ} {r r' : Released}
    (h : st.bjmFail now s g index delay = .ok r)
    (h' : r.store.bjmFail now' s g index delay = .ok r') :
    SameFiles r.store r'.store ↔ (r.store.InFlight s g index → u64 now' = u64 now) := by
  rcases queueRelease_cases h' with ⟨heq, hno⟩ | ⟨q₁, at₁, hload₁, hfind₁, hst₁⟩
  · rw [heq]
    exact ⟨fun _ hin => absurd hin hno, fun _ => .refl⟩
  have hin : r.store.InFlight s g index := ⟨q₁, hload₁, by simp [hfind₁]⟩
  simp only [hin, forall_const]
  rcases queueRelease_cases h with ⟨heq, hno⟩ | ⟨q, at_, hload, hfind, hst⟩
  · exact absurd (heq ▸ hin) hno
  · have hrow : r.store.queues[pairKey s g]? =
        some (queueRecord (q.settled now at_ false delay)) := by
      rw [hst]
      exact ExtTreeMap.getElem?_insert_self
    obtain ⟨rec, hrec, hdec⟩ := record_of_existed hload
    have hq := words_of_queueDecode hdec
    -- what the second call loads is what the first has stored
    have hq₁ : q.settled now at_ false delay = q₁ := by
      obtain ⟨rec₁, hrec₁, hdec₁⟩ := record_of_existed hload₁
      rw [← (settled_words hq hfind).wrapped_eq]
      exact wrapped_of_stored hdec₁ (Option.some.inj (hrow.symm.trans hrec₁))
    subst hq₁
    obtain rfl := Option.some.inj (hfind₁.symm.trans (flFind_settled hfind))
    rw [settled_settled hfind] at hst₁
    obtain ⟨pre, e, suf, hrows, rfl, -⟩ := flFind_eq_some hfind
    constructor
    · intro hsame
      have heq := wrapped_of_sameFiles hload₁ hst₁ hsame
      rw [(settled_words hq hfind).wrapped_eq] at heq
      have hlists := congrArg (fun q : Qrec => q.fl.rows) heq
      simp only [settled_rows hrows, List.append_cancel_left_eq, List.cons.injEq, Slot.mk.injEq,
        true_and, and_true] at hlists
      simp only [u64] at hlists ⊢
      omega
    · intro hnow
      refine sameFiles_of_stored hrow hst₁ (congrArg Qrec.wrapped ?_)
      have hdue : ∀ d, u64 (now' + d) = u64 (now + d) := by
        intro d
        simp only [u64] at hnow ⊢
        omega
      simp only [Qrec.settled, hdue]

/-- A take would find the group idle. -/
def Idling (st : Store) (now : ℕ) (s g : Bytes) (lease : ℕ) : Prop :=
  ∀ log q existed, st.subjectGet s false = .ok log → st.queueLoad s g = .ok (q, existed) →
    q.Idle now (effectiveLease lease q) log.last

theorem leaseMs_lt {q : Qrec} {existed : Bool} (h : st.queueLoad s g = .ok (q, existed)) :
    q.leaseMs < 2 ^ 64 := by
  cases existed with
  | true =>
    obtain ⟨r, -, hdec⟩ := record_of_existed h
    exact words_of_queueDecode hdec _ (by simp [Qrec.ints])
  | false =>
    rw [queueLoad_eq_logOf] at h
    split at h
    · contradiction
    split at h
    · rename_i r _
      cases hd : queueDecode r <;> simp [hd, Except.map] at h
    · obtain ⟨rfl, -⟩ := Prod.mk.inj (Except.ok.inj h)
      simp [Qrec.fresh, BJM_LEASE_DEFAULT_MS]

theorem clampMax_bounds (max : ℤ) : 0 < clampMax max ∧ clampMax max ≤ BJM_INFLIGHT_MAX := by
  have hcap : ((256 : ℕ) : ℤ) = 256 := rfl
  simp only [clampMax, BJM_INFLIGHT_MAX, hcap]
  by_cases hlow : max < 1
  · simp [hlow]
  · by_cases hhigh : max > 256
    · simp [hlow, hhigh]
    · simp only [hlow, hhigh, if_false]
      omega

/-- What a take leaves for the next one to load, when it can be loaded at all. -/
theorem load_of_take {V : Vendor} {now lease : ℕ} {max : ℤ} {t : Taken} {q₁ : Qrec} {e : Bool}
    (hlease : lease < 2 ^ 64) (h : st.bjmTake V now s g max lease = .ok t)
    (hload : t.store.queueLoad s g = .ok (q₁, e)) :
    t.store.queues[pairKey s g]? = some (queueRecord q₁) ∧ e = true ∧ q₁.Words ∧
      { q₁ with leaseMs := effectiveLease lease q₁ } = q₁ := by
  obtain ⟨log, q, existed, hget, hload₀, st₁, hst₁, hst⟩ := bjmTake_stored h
  have hqueues : t.store.queues = st₁.queues := by
    rcases hst with rfl | ⟨dead, hto⟩
    · rfl
    · exact hto.queues_eq
  generalize hplan : takePlan now (effectiveLease lease q) (clampMax max) log.last
    { q with leaseMs := effectiveLease lease q } = plan at hst₁
  have hrow : t.store.queues[pairKey s g]? = some (queueRecord plan.q) := by
    rw [hqueues, hst₁]
    exact ExtTreeMap.getElem?_insert_self
  have hkeeps : plan.q.leaseMs = effectiveLease lease q := by
    rw [← hplan]
    exact (takePlan_keeps (P := fun _ => True) _ _ _ _ (fun _ _ => trivial)
      fun _ _ => trivial).lease
  rcases queueLoad_stored (queueKey_of_load hload₀) hrow with ⟨-, he⟩ | ⟨-, he⟩
  · rw [he] at hload
    contradiction
  · rw [hload] at he
    obtain ⟨rfl, rfl⟩ := Prod.mk.inj (Except.ok.inj he)
    refine ⟨by rw [hrow, queueRecord_wrapped], rfl, plan.q.wrapped_words, ?_⟩
    have hlt : effectiveLease lease q < 2 ^ 64 := by
      rw [effectiveLease]
      split
      · exact leaseMs_lt hload₀
      · exact hlease
    have hl : plan.q.wrapped.leaseMs = effectiveLease lease q := by
      simp only [Qrec.wrapped, hkeeps, u64_of_lt hlt]
    have hsame : effectiveLease lease plan.q.wrapped = plan.q.wrapped.leaseMs := by
      rw [effectiveLease]
      split
      · rfl
      · rename_i hown
        rw [hl, effectiveLease, if_neg hown]
    rw [hsame]

/-- A take changes nothing exactly when it finds the group idle, once its record has been
stored. -/
theorem bjmTake_same_iff {V : Vendor} {now lease : ℕ} {max : ℤ} {t : Taken} {q : Qrec} {log : Elog}
    (hrow : st.queues[pairKey s g]? = some (queueRecord q)) (hq : q.Words)
    (hl : { q with leaseMs := effectiveLease lease q } = q)
    (hget : st.subjectGet s false = .ok log) (hload : st.queueLoad s g = .ok (q, true))
    (h : st.bjmTake V now s g max lease = .ok t) :
    SameFiles st t.store ↔ q.Idle now (effectiveLease lease q) log.last := by
  obtain ⟨log', q', existed, plan, hget', hload', hplan, -, -, hst⟩ := bjmTake_eq h
  obtain rfl := Except.ok.inj (hget.symm.trans hget')
  obtain ⟨rfl, rfl⟩ := Prod.mk.inj (Except.ok.inj (hload.symm.trans hload'))
  rw [hl] at hplan
  obtain ⟨hmax, hcap⟩ := clampMax_bounds max
  constructor
  · intro hsame
    obtain ⟨r, hr, hdec⟩ := record_of_existed hload
    have hqueues : t.store.queues = st.queues.insert (pairKey s g) (queueRecord plan.q) := by
      rw [hst]
      have hget' : ({ st with
          queues := st.queues.insert (pairKey s g) (queueRecord plan.q) } : Store).subjectGet s
            false = .ok log := hget
      rcases deadLetters_eq V now g hget' plan.deadNow.rows with ⟨-, heq⟩ | ⟨dead, -, hto, -⟩
      · rw [heq]
      · exact hto.queues_eq
    have hrec := congrArg (fun t : Tree => t[pairKey s g]?) (hqueues.symm.trans hsame.queues)
    simp only [ExtTreeMap.getElem?_insert_self, hr] at hrec
    refine idle_of_unchanged hmax hcap hq ?_
    rw [← hplan]
    exact wrapped_of_stored hdec (Option.some.inj hrec)
  · intro hidle
    rw [takePlan_idle hidle] at hplan
    subst hplan
    rw [hst, insert_eq_self hrow]
    have hnone : st.deadLetters V now s g [] = st := by
      simp only [deadLetters, List.foldl_nil]
      split <;> rfl
    simp only [BoundedTable.empty_rows, hnone]
    exact .refl

end Store

end SukkalMsg
