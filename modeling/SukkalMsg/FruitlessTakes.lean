import SukkalMsg.LeaseZero
import SukkalMsg.Offers
import SukkalMsg.RepeatedJobs

/-!
# Takes that give nothing

A take that gives no job drops those that are out of attempts, and lets again those whose
message is trimmed. What it leaves in the table tells when to ask again, for a time of 0
would tell of nothing; with an empty table the group is cleared, and waits for the next
message of the log.
-/

namespace SukkalMsg

open Std Names Binjson OrderedScan BoundedTable

/-- No lease of the group ends at 0, nor would one that began now, and a group without leases hands
out no message that is trimmed. -/
structure Qrec.Timely (q : Qrec) (clock base : ℕ) : Prop where
  rows : ∀ e ∈ q.fl.rows, e.expires ≠ 0
  lease : u64 (clock + q.leaseMs) ≠ 0
  held : q.leaseMs = 0 → base < q.next
  next : q.next < 2 ^ 64

instance (q : Qrec) (clock base : ℕ) : Decidable (q.Timely clock base) :=
  decidable_of_iff ((∀ e ∈ q.fl.rows, e.expires ≠ 0) ∧ u64 (clock + q.leaseMs) ≠ 0 ∧
      (q.leaseMs = 0 → base < q.next) ∧ q.next < 2 ^ 64)
    ⟨fun h => ⟨h.1, h.2.1, h.2.2.1, h.2.2.2⟩, fun h => ⟨h.rows, h.lease, h.held, h.next⟩⟩

/-- A job of the group is leased, or would be by a take of now; one whose message is trimmed too. -/
def Qrec.Waits (q : Qrec) (now base : ℕ) : Prop :=
  (∃ e ∈ q.fl.rows, e.spent now q.maxAttempts = false) ∨ q.next ≤ base

instance (q : Qrec) (now base : ℕ) : Decidable (q.Waits now base) :=
  inferInstanceAs (Decidable ((∃ e ∈ q.fl.rows, _) ∨ _ ≤ _))

/-- What a take that gives nothing makes of a group's record. -/
structure Qrec.Combed (now : ℕ) (log : Elog) (q q' : Qrec) : Prop where
  lease : q'.leaseMs = q.leaseMs
  rows : ∀ e ∈ q'.fl.rows, u64 e.expires ≠ 0
  next : q.leaseMs = 0 → q'.next = q.next
  cleared : q'.fl.rows = [] → log.last < q.next ∧ q'.next = q.next
  empty : q'.fl.rows = [] ↔ ¬ q.Waits now log.base

section Plans

variable {now m : ℕ} {q : Qrec} {log : Elog}

theorem freshCount_of_fruitless (hb : log.base < q.next)
    (hjobs : takenJobs now q.leaseMs log (takePlan now q.leaseMs m log.last q).chosen = []) :
    freshCount now q.leaseMs m log.last q = 0 := by
  by_contra hk
  -- the next message would be handed out, and it is there
  have hle : q.next ≤ log.last := by
    simp only [freshCount] at hk
    split at hk <;> omega
  obtain ⟨e, he⟩ := Option.isSome_iff_exists.mp (Elog.get_isSome_iff.mpr ⟨hb, hle⟩)
  have hmem : (q.next, 1) ∈ (takePlan now q.leaseMs m log.last q).chosen := by
    rw [(takePlan_from now q.leaseMs m log.last q).chosen, List.mem_append]
    refine .inr (List.mem_map.mpr ⟨q.next, List.mem_range'_1.mpr ⟨Nat.le_refl _, ?_⟩, rfl⟩)
    omega
  rw [takenJobs, List.filterMap_eq_nil_iff] at hjobs
  have hnone := hjobs _ hmem
  simp [he] at hnone

theorem spent_of_not_due {e : Slot} (hl : e.lapsed now = true) {n : ℕ} (hd : e.due now n = false) :
    e.spent now n = true := by
  simp only [Slot.due, hl, Bool.true_and, Bool.not_eq_false'] at hd
  simp only [Slot.spent, hl, hd, Bool.and_self]

theorem cleared_of_fruitless (hm : 0 < m) {last : ℕ}
    (hnil : (takePlan now q.leaseMs m last q).q.fl.rows = [])
    (hzero : q.leaseMs = 0 → freshCount now q.leaseMs m last q = 0) :
    freshCount now q.leaseMs m last q = 0 ∧ last < q.next ∧
      ∀ e ∈ q.fl.rows, e.spent now q.maxAttempts = true := by
  have hrows := (takePlan_from now q.leaseMs m last q).rows
  rw [hnil] at hrows
  have hparts := List.append_eq_nil_iff.mp hrows.nil_eq.symm
  obtain ⟨hfront, hfresh⟩ := hparts
  obtain ⟨hfront, hleft⟩ := List.append_eq_nil_iff.mp hfront
  obtain ⟨hrunning, hagain⟩ := List.append_eq_nil_iff.mp hfront
  have hk : freshCount now q.leaseMs m last q = 0 := by
    rcases Nat.eq_zero_or_pos q.leaseMs with hl | hl
    · exact hzero hl
    · have hlen := congrArg List.length hfresh
      simpa [freshRows, hl] using hlen
  have hmet := met_perm now m q
  rw [hleft, List.append_nil] at hmet
  have hlapsed : ∀ e ∈ q.fl.rows, e.lapsed now = true := fun e he => by
    simpa using List.filter_eq_nil_iff.mp hrunning e (hmet.mem_iff.mpr he)
  have hdue : q.fl.rows.countP (Slot.due now q.maxAttempts) = 0 := by
    have hcount := (length_again now m q).1
    rw [List.map_eq_nil_iff.mp hagain, List.length_nil] at hcount
    omega
  have hspent : ∀ e ∈ q.fl.rows, e.spent now q.maxAttempts = true := fun e he =>
    spent_of_not_due (hlapsed e he) (by simpa using List.countP_eq_zero.mp hdue e he)
  have hall : q.fl.rows.countP (Slot.spent now q.maxAttempts) = q.fl.rows.length :=
    List.countP_eq_length.mpr hspent
  refine ⟨hk, ?_, hspent⟩
  simp only [freshCount, roomFor, hdue, hall, BJM_INFLIGHT_MAX] at hk
  split at hk <;> omega

/-- Where every row is to be buried and nothing fresh can be leased, the table is left empty. -/
theorem rows_of_spent (hm : 0 < m) (hb : log.base < q.next)
    (hspent : ∀ e ∈ q.fl.rows, e.spent now q.maxAttempts = true)
    (hjobs : takenJobs now q.leaseMs log (takePlan now q.leaseMs m log.last q).chosen = []) :
    (takePlan now q.leaseMs m log.last q).q.fl.rows = [] := by
  have hfrom := takePlan_from now q.leaseMs m log.last q
  have hdue : q.fl.rows.countP (Slot.due now q.maxAttempts) = 0 :=
    List.countP_eq_zero.mpr fun e he => by
      have hs := hspent e he
      simp only [Slot.spent, Bool.and_eq_true] at hs
      simp [Slot.due, hs.2]
  obtain ⟨hagain, hleft⟩ := length_again now m q
  have hrunning : (metRows now m q).filter (fun e => !e.lapsed now) = [] :=
    List.filter_eq_nil_iff.mpr fun e he => by
      have hs := hspent e ((met_perm now m q).mem_iff.mp (List.mem_append_left _ he))
      simp only [Slot.spent, Bool.and_eq_true] at hs
      simp [hs.1]
  have hnone : againRows now m q = [] := List.length_eq_zero_iff.mp (by omega)
  have hrows := hfrom.rows
  rw [hrunning, hnone, hleft (by omega), freshCount_of_fruitless hb hjobs] at hrows
  refine List.Perm.eq_nil (hrows.trans ?_)
  simp [freshRows]

theorem takePlan_combed (hm : 0 < m) (hw : ∀ e ∈ q.fl.rows, e.expires < 2 ^ 64)
    (ht : q.Timely now log.base)
    (hjobs : takenJobs now q.leaseMs log (takePlan now q.leaseMs m log.last q).chosen = []) :
    q.Combed now log (takePlan now q.leaseMs m log.last q).q := by
  have hfrom := takePlan_from now q.leaseMs m log.last q
  have hzero : q.leaseMs = 0 → freshCount now q.leaseMs m log.last q = 0 := fun hl =>
    freshCount_of_fruitless (ht.held hl) hjobs
  refine ⟨?_, fun e he => ?_, fun hl => by rw [hfrom.next, hzero hl, Nat.add_zero],
    fun hnil => ?_, fun hnil => ?_, fun hnot => ?_⟩
  · exact (takePlan_keeps (P := fun _ => True) _ _ _ _ (fun _ _ => trivial)
      fun _ _ => trivial).lease
  · have hold : ∀ f ∈ q.fl.rows, u64 f.expires ≠ 0 := fun f hf => by
      rw [u64_of_lt (hw f hf)]
      exact ht.rows f hf
    have hmet : ∀ f, f ∈ metRows now m q ∨ f ∈ leftRows now m q → f ∈ q.fl.rows := fun f hf =>
      (met_perm now m q).mem_iff.mp (List.mem_append.mpr hf)
    rcases List.mem_append.mp (hfrom.rows.mem_iff.mp he) with he | hfresh
    · rcases List.mem_append.mp he with he | hleft
      · rcases List.mem_append.mp he with hrunning | hagain
        · exact hold e (hmet e (.inl (List.mem_of_mem_filter hrunning)))
        · obtain ⟨f, -, rfl⟩ := List.mem_map.mp hagain
          rw [Slot.renew, u64_u64]
          exact ht.lease
      · exact hold e (hmet e (.inr hleft))
    · simp only [freshRows] at hfresh
      split at hfresh
      · obtain ⟨i, -, rfl⟩ := List.mem_map.mp hfresh
        rw [Slot.first, u64_u64]
        exact ht.lease
      · exact absurd hfresh List.not_mem_nil
  · obtain ⟨hk, hlast, -⟩ := cleared_of_fruitless hm hnil hzero
    exact ⟨hlast, by rw [hfrom.next, hk, Nat.add_zero]⟩
  · obtain ⟨-, hlast, hspent⟩ := cleared_of_fruitless hm hnil hzero
    rintro (⟨e, he, hnot⟩ | hnext)
    · rw [hspent e he] at hnot
      contradiction
    · have hbase : log.base ≤ log.last := Nat.le_add_right _ _
      omega
  · simp only [Qrec.Waits, not_or, not_exists, not_and, Bool.not_eq_false] at hnot
    exact rows_of_spent hm (by omega) hnot.1 hjobs

end Plans

namespace Store

variable {V : Vendor} {st st' : Store} {now : ℕ} {s g x : Bytes} {max : ℤ} {t : Taken}

def Timely (st : Store) (clock : ℕ) (s g : Bytes) : Prop :=
  ∀ q existed, st.queueLoad s g = .ok (q, existed) → q.Timely clock (st.logOf s).base

instance (st : Store) (clock : ℕ) (s g : Bytes) : Decidable (st.Timely clock s g) :=
  match h : st.queueLoad s g with
  | .error e => .isTrue fun q existed hload => by rw [h] at hload; contradiction
  | .ok (q, existed) => decidable_of_iff (q.Timely clock (st.logOf s).base)
    ⟨fun ht q' existed' hload => by
      rw [h] at hload
      obtain ⟨rfl, -⟩ := Prod.mk.inj (Except.ok.inj hload)
      exact ht, fun ht => ht q existed h⟩

def Waits (st : Store) (clock : ℕ) (s g : Bytes) : Prop :=
  ∃ q existed, st.queueLoad s g = .ok (q, existed) ∧ q.Waits clock (st.logOf s).base

instance (st : Store) (clock : ℕ) (s g : Bytes) : Decidable (st.Waits clock s g) :=
  match h : st.queueLoad s g with
  | .error e => .isFalse fun ⟨q, existed, hload, _⟩ => by rw [h] at hload; contradiction
  | .ok (q, existed) => decidable_of_iff (q.Waits clock (st.logOf s).base)
    ⟨fun hw => ⟨q, existed, h, hw⟩, fun ⟨q', existed', hload, hw⟩ => by
      rw [h] at hload
      obtain ⟨rfl, -⟩ := Prod.mk.inj (Except.ok.inj hload)
      exact hw⟩

/-- The group has handed out every message of the log, and waits for none. -/
def Cleared (st : Store) (s g : Bytes) : Prop :=
  ∃ r, st.queues[pairKey s g]? = some r ∧
    ∀ q, queueDecode r = .ok q → q.fl.rows = [] ∧ (st.logOf s).last < q.next

/-- A take would bury a job whose message is there. -/
def buries (st : Store) (clock : ℕ) (s g : Bytes) : Bool :=
  match st.queueLoad s g with
  | .error _ => false
  | .ok (q, _) => q.fl.rows.any fun e =>
    e.spent clock q.maxAttempts && ((st.logOf s).get e.index).isSome

theorem queueLoad_of_same (hr : st'.queues[pairKey s g]? = st.queues[pairKey s g]?)
    (hb : (st'.logOf s).base = (st.logOf s).base) : st'.queueLoad s g = st.queueLoad s g := by
  rw [queueLoad_eq_logOf, queueLoad_eq_logOf]
  cases hkey : queueKey s g with
  | none => rfl
  | some key =>
    obtain rfl := boundedKey_eq hkey
    simp only [hr, hb]

theorem queueLoad_of_decode (hk : (queueKey s g).isSome = true) {r : Record} {q : Qrec}
    (hrow : st.queues[pairKey s g]? = some r) (hd : queueDecode r = .ok q) :
    st.queueLoad s g = .ok (q, true) := by
  obtain ⟨key, hkey⟩ := Option.isSome_iff_exists.mp hk
  obtain rfl := boundedKey_eq hkey
  simp [queueLoad, hkey, hrow, hd, Except.map]

theorem Timely.of_same (h : st.Timely now s g)
    (hr : st'.queues[pairKey s g]? = st.queues[pairKey s g]?)
    (hb : (st'.logOf s).base = (st.logOf s).base) : st'.Timely now s g := by
  intro q existed hload
  rw [queueLoad_of_same hr hb] at hload
  exact hb ▸ h q existed hload

theorem Cleared.of_same (h : st.Cleared s g)
    (hr : st'.queues[pairKey s g]? = st.queues[pairKey s g]?)
    (hl : (st'.logOf s).last = (st.logOf s).last) : st'.Cleared s g := by
  obtain ⟨r, hrow, hq⟩ := h
  exact ⟨r, hr.trans hrow, hl ▸ hq⟩

theorem waits_of_same (hr : st'.queues[pairKey s g]? = st.queues[pairKey s g]?)
    (hb : (st'.logOf s).base = (st.logOf s).base) : st'.Waits now s g ↔ st.Waits now s g := by
  simp only [Waits, queueLoad_of_same hr hb, hb]

theorem Cleared.load (h : st.Cleared s g) {q : Qrec} {existed : Bool}
    (hload : st.queueLoad s g = .ok (q, existed)) :
    q.fl.rows = [] ∧ (st.logOf s).last < q.next := by
  obtain ⟨r, hrow, hq⟩ := h
  obtain ⟨key, hkey⟩ := Option.isSome_iff_exists.mp (queueKey_of_load hload)
  obtain rfl := boundedKey_eq hkey
  simp only [queueLoad, hkey, hrow] at hload
  cases hd : queueDecode r with
  | error e => simp [hd, Except.map] at hload
  | ok q' =>
    simp only [hd, Except.map, Except.ok.injEq, Prod.mk.injEq] at hload
    obtain ⟨rfl, -⟩ := hload
    exact hq q' hd

theorem Cleared.not_waits (h : st.Cleared s g) : ¬ st.Waits now s g := by
  rintro ⟨q, existed, hload, ⟨e, he, -⟩ | hnext⟩ <;> obtain ⟨hrows, hlast⟩ := h.load hload
  · rw [hrows] at he
    exact absurd he List.not_mem_nil
  · have hbase : (st.logOf s).base ≤ (st.logOf s).last := Nat.le_add_right _ _
    omega

theorem Cleared.buries (h : st.Cleared s g) : st.buries now s g = false := by
  simp only [Store.buries]
  cases hload : st.queueLoad s g with
  | error e => rfl
  | ok p => simp only [(h.load hload).1, List.any_nil]

/-- A take from a cleared group gives nothing. -/
theorem Cleared.take (h : st.Cleared s g) (ht : st.bjmTake V now s g max UINT64_MAX = .ok t) :
    t.jobs = [] := by
  obtain ⟨log, q, existed, plan, hget, hload, rfl, hj, -, -⟩ := bjmTake_eq ht
  obtain ⟨-, -, rfl⟩ := subjectGet_logOf hget
  obtain ⟨hrows, hlast⟩ := h.load hload
  have hidle : ({ q with leaseMs := effectiveLease UINT64_MAX q } : Qrec).Idle now
      (effectiveLease UINT64_MAX q) (st.logOf s).last :=
    ⟨fun e he => by simp [hrows] at he, .inl hlast⟩
  rw [hj, takePlan_idle hidle]
  rfl

theorem expires_lt {q : Qrec} {existed : Bool} (h : st.queueLoad s g = .ok (q, existed)) :
    ∀ e ∈ q.fl.rows, e.expires < 2 ^ 64 := by
  rcases queueLoad_cases h with ⟨r, -, -, hwords⟩ | ⟨-, next, rfl, -⟩
  · intro e he
    refine hwords _ ?_
    simp only [Qrec.ints, List.mem_append]
    exact .inl (.inr (mem_flat.mpr ⟨e, he, .inr (.inl rfl)⟩))
  · simp [Qrec.fresh]

theorem take_stores (h : st.bjmTake V now s g max UINT64_MAX = .ok t) :
    ∃ q existed, st.queueLoad s g = .ok (q, existed) ∧
      t.jobs = takenJobs now q.leaseMs (st.logOf s)
        (takePlan now q.leaseMs (clampMax max) (st.logOf s).last q).chosen ∧
      t.store.queues[pairKey s g]? =
        some (queueRecord (takePlan now q.leaseMs (clampMax max) (st.logOf s).last q).q) ∧
      t.store.logOf s = st.logOf s := by
  obtain ⟨log, q, existed, plan, hget, hload, rfl, hj, -, hst⟩ := bjmTake_eq h
  obtain ⟨-, -, rfl⟩ := subjectGet_logOf hget
  have heff : effectiveLease UINT64_MAX q = q.leaseMs := by simp [effectiveLease]
  rw [heff] at hj hst
  refine ⟨q, existed, hload, hj, ?_⟩
  generalize takePlan now q.leaseMs (clampMax max) (st.logOf s).last q = plan at hst
  set st₁ : Store := { st with queues := st.queues.insert (pairKey s g) (queueRecord plan.q) }
    with hst₁
  have hrow : st₁.queues[pairKey s g]? = some (queueRecord plan.q) :=
    ExtTreeMap.getElem?_insert_self
  have hget₁ : st₁.subjectGet s false = .ok (st.logOf s) := hget
  rw [hst]
  rcases deadLetters_eq V now g hget₁ plan.deadNow.rows with ⟨-, heq⟩ | ⟨dead, hd, hto, -⟩
  · rw [heq]
    exact ⟨hrow, rfl⟩
  · rw [hto.queues_eq, hto.logOf_eq (deadSubjectOf_ne hd).symm]
    exact ⟨hrow, rfl⟩

/-- A take that gives nothing leaves a time to come back at, or clears the group. -/
theorem take_fruitless (h : st.bjmTake V now s g max UINT64_MAX = .ok t) (hjobs : t.jobs = [])
    (ht : st.Timely now s g) {due : Option ℕ} (hdue : t.store.bjmQueueNextDue s g = .ok due) :
    t.store.Timely now s g ∧ due ≠ some 0 ∧
      (due = none → t.store.Cleared s g) ∧ (due = none ↔ ¬ st.Waits now s g) := by
  obtain ⟨q, existed, hload, hj, hrow, hlog⟩ := take_stores h
  have htimely := ht q existed hload
  have hcombed := takePlan_combed (clampMax_bounds max).1 (expires_lt hload) htimely
    (hj.symm.trans hjobs)
  generalize (takePlan now q.leaseMs (clampMax max) (st.logOf s).last q).q = q' at hrow hcombed
  rcases queueLoad_stored (queueKey_of_load hload) hrow with ⟨-, he⟩ | ⟨-, he⟩
  · simp [bjmQueueNextDue, he, Except.map] at hdue
  have hmin : due = (q'.wrapped.fl.rows.map Slot.expires).min? := by
    simpa [bjmQueueNextDue, he, Except.map] using hdue.symm
  have hrows : ∀ e ∈ q'.wrapped.fl.rows, e.expires ≠ 0 := fun e hm => by
    obtain ⟨f, hf, rfl⟩ := List.mem_map.mp hm
    exact hcombed.rows f hf
  have hnil : due = none ↔ q'.fl.rows = [] := by
    rw [hmin, List.min?_eq_none_iff, List.map_eq_nil_iff, Qrec.wrapped, List.map_eq_nil_iff]
  refine ⟨fun q'' existed' hload' => ?_, ?_, fun hnone => ?_, ?_⟩
  · rw [he] at hload'
    obtain ⟨rfl, -⟩ := Prod.mk.inj (Except.ok.inj hload')
    have hlease : q'.wrapped.leaseMs = q.leaseMs := by
      simp only [Qrec.wrapped, hcombed.lease, u64_of_lt (leaseMs_lt hload)]
    rw [hlog]
    refine ⟨hrows, by rw [hlease]; exact htimely.lease, fun hl => ?_, u64_lt _⟩
    rw [hlease] at hl
    simp only [Qrec.wrapped, hcombed.next hl, u64_of_lt htimely.next]
    exact htimely.held hl
  · rw [hmin]
    intro hzero
    obtain ⟨e, hm, hexp⟩ := List.mem_map.mp (List.min?_mem hzero)
    exact hrows e hm hexp
  · obtain ⟨hlast, hnext⟩ := hcombed.cleared (hnil.mp hnone)
    refine ⟨_, hrow, fun q'' hd => ?_⟩
    have hsame := queueLoad_of_decode (queueKey_of_load hload) hrow hd
    obtain ⟨rfl, -⟩ := Prod.mk.inj (Except.ok.inj (he.symm.trans hsame))
    rw [hlog]
    simp only [Qrec.wrapped, hnext, u64_of_lt htimely.next]
    exact ⟨List.map_eq_nil_iff.mpr (hnil.mp hnone), hlast⟩
  · rw [hnil, hcombed.empty, not_iff_not]
    refine ⟨fun hw => ⟨q, existed, hload, hw⟩, fun ⟨q₀, existed₀, hload₀, hw⟩ => ?_⟩
    rw [hload] at hload₀
    obtain ⟨rfl, -⟩ := Prod.mk.inj (Except.ok.inj hload₀)
    exact hw

/-- What a take publishes, and tells the engine of, are letters about jobs it buries. -/
theorem buries_of_dead (h : st.bjmTake V now s g max UINT64_MAX = .ok t)
    (hany : (t.dead.any fun d => ((st.logOf s).get d.1).isSome) = true) :
    st.buries now s g = true := by
  obtain ⟨log, q, existed, plan, hget, hload, rfl, -, hdead, -⟩ := bjmTake_eq h
  obtain ⟨kept, old, buried, k, hout⟩ := takePlan_outcome now (effectiveLease UINT64_MAX q)
    (clampMax max) log.last { q with leaseMs := effectiveLease UINT64_MAX q }
  rw [hdead, hout.deadNow, List.any_map, List.any_eq_true] at hany
  obtain ⟨e, he, hsome⟩ := hany
  simp only [Store.buries, hload, List.any_eq_true, Bool.and_eq_true]
  refine ⟨e, hout.before.mem_iff.mpr (by simp [he]), ?_, hsome⟩
  obtain ⟨hdue, hspent⟩ := hout.buried_due e he
  simp [Slot.spent, Slot.lapsed, hdue, hspent]

end Store

theorem Pusher.mem_notifyDead {p : Pusher} {st : Store} {s y : Bytes} {ds : List (ℕ × ℕ)}
    (h : y ∈ (p.notifyDead st s ds).names) :
    y ∈ p.names ∨ deadSubjectOf s = some y ∧
      (ds.any fun d => ((st.logOf s).get d.1).isSome) = true := by
  simp only [notifyDead] at h
  split at h
  · exact .inl h
  · rename_i channel hd
    split at h
    · rename_i hany
      simp only [notify, p.namesAdd_of_valid (deadSubjectOf_valid hd)] at h
      split at h
      · exact .inl h
      · rcases List.mem_append.mp h with h | h
        · exact .inl h
        · obtain rfl := List.mem_singleton.mp h
          exact .inr ⟨hd, hany⟩
    · exact .inl h

end SukkalMsg
