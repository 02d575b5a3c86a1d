import SukkalMsg.IdempotentPublish
import SukkalMsg.QueueGroups
import SukkalMsg.ReceiptBounds

/-!
# Records that stay legible

A number goes into a record as a signed 64-bit integer and is refused when the record
is read, unless a double holds it exactly. What a request asks to be written is not
checked for that. Where every number a request has the store write is carried, each
receipt, group, policy and registration reads back as it was written.
-/

namespace SukkalMsg

open Std Names Binjson OrderedScan Store ActionRuns

namespace Qrec

/-- What a group's record holds is carried, and its counters follow its log. -/
structure Counted (q : Qrec) (last : ℕ) : Prop where
  next_le : q.next ≤ last + 1
  next_safe : q.next ≤ MAX_SAFE_INT
  lease : Carried q.leaseMs
  maxAttempts : Carried q.maxAttempts
  backoff : Carried q.backoffMs
  maxBackoff : Carried q.maxBackoffMs
  rows : ∀ e ∈ q.fl.rows, e.index < q.next ∧ Carried e.expires ∧ e.attempts ≤ MAX_SAFE_INT
  dead : ∀ d ∈ q.dead.rows, d < q.next
  total : q.deadTotal + q.fl.rows.length < q.next

/-- A take lets a job under a new lease: one that has lapsed, or one nobody has had. -/
def Lets (q : Qrec) (now lease last : ℕ) : Prop :=
  (∃ e ∈ q.fl.rows, e.expires ≤ now ∧ e.exhausted q.maxAttempts = false) ∨
    0 < lease ∧ q.next ≤ last ∧
      (q.fl.rows.length < BJM_INFLIGHT_MAX ∨ ∃ e ∈ q.fl.rows, e.expires ≤ now)

/-- What a take writes into the group's record is carried. -/
structure TakeCarried (q : Qrec) (now lease last : ℕ) : Prop where
  granted : Carried lease
  expires : q.Lets now lease last → Carried (u64 (now + lease))
  attempts : ∀ e ∈ q.fl.rows, e.expires ≤ now → e.exhausted q.maxAttempts = false →
    e.attempts < MAX_SAFE_INT

namespace Counted

variable {q : Qrec} {last last' : ℕ}

theorem fresh {n : ℕ} (hpos : 0 < n) (hn : n ≤ last + 1) (hl : last < MAX_SAFE_INT) :
    (Qrec.fresh n).Counted last where
  next_le := hn
  next_safe := by
    simp only [Qrec.fresh]
    omega
  lease := (by decide : Carried BJM_LEASE_DEFAULT_MS)
  maxAttempts := (by decide : Carried BJM_MAX_ATTEMPTS_DEFAULT)
  backoff := (by decide : Carried BJM_BACKOFF_DEFAULT_MS)
  maxBackoff := (by decide : Carried BJM_MAX_BACKOFF_DEFAULT_MS)
  rows := by simp [Qrec.fresh]
  dead := by simp [Qrec.fresh]
  total := by simpa [Qrec.fresh] using hpos

theorem mono (h : q.Counted last) (hle : last ≤ last') : q.Counted last' :=
  { h with next_le := Nat.le_trans h.next_le (Nat.succ_le_succ hle) }

theorem carried (h : q.Counted last) : ∀ n ∈ q.ints, Carried n := by
  have hnext := h.next_safe
  intro n hn
  simp only [Qrec.ints, List.mem_append, List.mem_cons, List.not_mem_nil, or_false] at hn
  rcases hn with ((rfl | rfl | rfl | rfl | rfl | rfl) | hn) | hn
  · exact .of_le hnext
  · exact h.lease
  · exact h.maxAttempts
  · refine .of_le ?_
    have := h.total
    omega
  · exact h.backoff
  · exact h.maxBackoff
  · obtain ⟨e, he, hcase⟩ := mem_flat.mp hn
    obtain ⟨hindex, hexpires, hattempts⟩ := h.rows e he
    rcases hcase with rfl | rfl | rfl
    · exact .of_le (by omega)
    · exact hexpires
    · exact .of_le hattempts
  · refine .of_le ?_
    have := h.dead n hn
    omega

theorem table (h : q.Counted last) {fl : BoundedTable Slot BJM_INFLIGHT_MAX}
    (hlen : fl.rows.length ≤ q.fl.rows.length)
    (hrows : ∀ f ∈ fl.rows, f ∈ q.fl.rows ∨
      ∃ e ∈ q.fl.rows, f.index = e.index ∧ f.attempts = e.attempts ∧ Carried f.expires) :
    ({ q with fl := fl } : Qrec).Counted last :=
  { h with
    rows := by
      intro f hf
      rcases hrows f hf with hold | ⟨e, he, hi, ha, hx⟩
      · exact h.rows f hold
      · obtain ⟨hindex, -, hattempts⟩ := h.rows e he
        exact ⟨hi ▸ hindex, hx, ha ▸ hattempts⟩
    total := by
      have := h.total
      dsimp only
      omega }

end Counted

end Qrec

theorem BoundedTable.mem_of_mem_swapRemove {α : Type*} {cap : ℕ} {t : BoundedTable α cap} {i : ℕ}
    {a : α} (h : a ∈ (t.swapRemove i).rows) : a ∈ t.rows := by
  simp only [swapRemove, removeRow] at h
  split at h
  · contradiction
  · rename_i last hlast
    rcases List.mem_or_eq_of_mem_set (List.dropLast_subset _ h) with hmem | rfl
    · exact hmem
    · exact List.mem_of_getLast? hlast

/-- What the two loops of a take leave of the settings, and whom they list as dead. -/
structure TakeState.Keeps (P : ℕ → Prop) (s s' : TakeState) : Prop where
  lease : s'.q.leaseMs = s.q.leaseMs
  backoff : s'.q.backoffMs = s.q.backoffMs
  maxBackoff : s'.q.maxBackoffMs = s.q.maxBackoffMs
  dead : ∀ d ∈ s'.q.dead.rows, P d

namespace TakeState.Keeps

variable {P : ℕ → Prop} {s s₁ s' : TakeState}

theorem refl (h : ∀ d ∈ s.q.dead.rows, P d) : Keeps P s s := ⟨rfl, rfl, rfl, h⟩

theorem trans (h : Keeps P s s₁) (h' : Keeps P s₁ s') : Keeps P s s' :=
  ⟨h'.lease.trans h.lease, h'.backoff.trans h.backoff, h'.maxBackoff.trans h.maxBackoff, h'.dead⟩

theorem expired (now lease max fuel i : ℕ) (hrows : ∀ e ∈ s.q.fl.rows, P e.index)
    (hdead : ∀ d ∈ s.q.dead.rows, P d) : Keeps P s (takeExpired now lease max fuel i s) := by
  induction fuel generalizing i s with
  | zero => exact .refl hdead
  | succ fuel ih =>
    simp only [takeExpired]
    split
    · exact .refl hdead
    · rename_i e hget
      have he : P e.index := hrows e (List.mem_of_getElem? hget)
      split
      · exact .refl hdead
      split
      · exact ih (i + 1) hrows hdead
      split
      · have hd : ∀ d ∈ (s.bury i e).q.dead.rows, P d := by
          intro d hd
          rcases List.mem_append.mp (List.mem_of_mem_drop hd) with hd | hd
          · exact hdead d hd
          · exact List.mem_singleton.mp hd ▸ he
        have hr : ∀ f ∈ (s.bury i e).q.fl.rows, P f.index := fun f hf =>
          hrows f (BoundedTable.mem_of_mem_swapRemove hf)
        have hstep : Keeps P s (s.bury i e) := ⟨rfl, rfl, rfl, hd⟩
        exact hstep.trans (ih i hr hd)
      · have hr : ∀ f ∈ (s.relet now lease i e).q.fl.rows, P f.index := by
          intro f hf
          rcases List.mem_or_eq_of_mem_set hf with hf | rfl
          · exact hrows f hf
          · exact he
        have hstep : Keeps P s (s.relet now lease i e) := ⟨rfl, rfl, rfl, hdead⟩
        exact hstep.trans (ih (i + 1) hr hdead)

theorem fresh (now lease max last fuel : ℕ) (hdead : ∀ d ∈ s.q.dead.rows, P d) :
    Keeps P s (takeFresh now lease max last fuel s) := by
  induction fuel generalizing s with
  | zero => exact .refl hdead
  | succ fuel ih =>
    simp only [takeFresh]
    split
    · split
      · exact .refl hdead
      · have hstep : Keeps P s (s.handOut now lease) := ⟨rfl, rfl, rfl, hdead⟩
        exact hstep.trans (ih hdead)
    · exact .refl hdead

end TakeState.Keeps

theorem takePlan_keeps {P : ℕ → Prop} (now lease max last : ℕ) {q : Qrec}
    (hrows : ∀ e ∈ q.fl.rows, P e.index) (hdead : ∀ d ∈ q.dead.rows, P d) :
    TakeState.Keeps P ⟨q, [], .empty⟩ (takePlan now lease max last q) :=
  have hexpired := TakeState.Keeps.expired now lease max q.fl.count 0 (s := ⟨q, [], .empty⟩)
    hrows hdead
  hexpired.trans (.fresh now lease max last max hexpired.dead)

theorem length_freshRows (now lease next k : ℕ) :
    (freshRows now lease next k).length = if 0 < lease then k else 0 := by
  simp only [freshRows]
  split
  · simp
  · rfl

/-- A take that leaves a row it has written lets a job. -/
theorem TakeOutcome.lets {now lease last k : ℕ} {q : Qrec} {s : TakeState}
    {kept old buried : List Slot} (h : TakeOutcome now lease last q s kept old buried k) {f : Slot}
    (hf : f ∈ old.map (Slot.renew now lease) ++ freshRows now lease q.next k) :
    q.Lets now lease last := by
  have hbefore := h.before
  rcases List.mem_append.mp hf with hf | hf
  · obtain ⟨e, he, -⟩ := List.mem_map.mp hf
    exact .inl ⟨e, hbefore.mem_iff.mpr (by simp [he]), h.old_due e he⟩
  · have hlen := length_freshRows now lease q.next k
    have hpos := List.length_pos_of_mem hf
    rw [hlen] at hpos
    split at hpos
    · rename_i hlease
      refine .inr ⟨hlease, ?_, ?_⟩
      · have := h.fresh_le hpos
        omega
      · -- a full table where nothing has lapsed has no room for the new row
        by_contra! hfull
        obtain ⟨hroom, hdue⟩ := hfull
        have hnone : ∀ l : List Slot, (∀ e ∈ l, e ∈ q.fl.rows ∧ e.expires ≤ now) → l = [] := by
          intro l hl
          apply List.eq_nil_iff_forall_not_mem.mpr
          intro e he
          have := hdue e (hl e he).1
          have := (hl e he).2
          omega
        have hold := hnone old fun e he =>
          ⟨hbefore.mem_iff.mpr (by simp [he]), (h.old_due e he).1⟩
        have hburied := hnone buried fun e he =>
          ⟨hbefore.mem_iff.mpr (by simp [he]), (h.buried_due e he).1⟩
        have hb := hbefore.length_eq
        have ha := h.after.length_eq
        have hfits := s.q.fl.fits
        simp only [hold, hburied, List.length_append, List.length_map, List.length_nil, hlen,
          hlease, if_true] at hb ha
        omega
    · omega

/-- A take that writes what is carried leaves the group's counters right. -/
theorem Qrec.Counted.take {q : Qrec} {now lease last : ℕ} (max : ℕ) (h : q.Counted last)
    (hlast : last < MAX_SAFE_INT) (hc : q.TakeCarried now lease last) :
    (takePlan now lease max last { q with leaseMs := lease }).q.Counted last := by
  obtain ⟨kept, old, buried, k, ho⟩ :=
    takePlan_outcome now lease max last { q with leaseMs := lease }
  have hkeeps := takePlan_keeps (P := (· < q.next)) now lease max last
    (q := { q with leaseMs := lease }) (fun e he => (h.rows e he).1) h.dead
  generalize takePlan now lease max last { q with leaseMs := lease } = s at ho hkeeps
  have hbefore : q.fl.rows.Perm (kept ++ (old ++ buried)) := ho.before
  have hnext : s.q.next = q.next + k := ho.next
  have htotal : s.q.deadTotal = q.deadTotal + buried.length := ho.deadTotal
  have hlets : ∀ f ∈ old.map (Slot.renew now lease) ++ freshRows now lease q.next k,
      Carried (u64 (now + lease)) := fun f hf => hc.expires (ho.lets hf)
  have hnextle : s.q.next ≤ last + 1 := by
    rcases Nat.eq_zero_or_pos k with rfl | hk
    · have := h.next_le
      omega
    · have hle : q.next + k ≤ last + 1 := ho.fresh_le hk
      omega
  refine ⟨hnextle, by omega, ?_, ?_, ?_, ?_, ?_, ?_, ?_⟩
  · rw [hkeeps.lease]
    exact hc.granted
  · rw [ho.maxAttempts]
    exact h.maxAttempts
  · rw [hkeeps.backoff]
    exact h.backoff
  · rw [hkeeps.maxBackoff]
    exact h.maxBackoff
  · intro f hf
    have hafter := ho.after.mem_iff.mp hf
    rw [List.append_assoc] at hafter
    rcases List.mem_append.mp hafter with hkept | hnew
    · obtain ⟨hindex, hrest⟩ := h.rows f (hbefore.mem_iff.mpr (by simp [hkept]))
      exact ⟨by omega, hrest⟩
    · have hexpires := hlets f hnew
      rcases List.mem_append.mp hnew with hold | hfresh
      · obtain ⟨e, he, rfl⟩ := List.mem_map.mp hold
        have hrow : e ∈ q.fl.rows := hbefore.mem_iff.mpr (by simp [he])
        have hindex := (h.rows e hrow).1
        obtain ⟨hdue, hleft⟩ := ho.old_due e he
        exact ⟨Nat.lt_of_lt_of_le hindex (by omega), hexpires, hc.attempts e hrow hdue hleft⟩
      · simp only [freshRows] at hfresh
        split at hfresh
        · obtain ⟨i, hi, rfl⟩ := List.mem_map.mp hfresh
          have hi' := (List.mem_range'_1.mp hi).2
          exact ⟨Nat.lt_of_lt_of_le hi' (by omega), hexpires, (by decide : 1 ≤ MAX_SAFE_INT)⟩
        · contradiction
  · intro d hd
    have := hkeeps.dead d hd
    omega
  · have hb := hbefore.length_eq
    have ha := ho.after.length_eq
    have ht := h.total
    simp only [List.length_append, List.length_map, length_freshRows] at hb ha
    split at ha <;> omega

namespace Store

/-- Every record of the store reads back as it was written. -/
structure Legible (st : Store) : Prop where
  receipts : ∀ (k : Bytes) (r : Record), st.cursors[k]? = some r →
    ∃ n, r = indexRecord n ∧ decodeIndex r = .ok n
  groups : ∀ (k : Bytes) (r : Record), st.queues[k]? = some r →
    ∃ q, r = queueRecord q ∧ queueDecode r = .ok q
  policies : ∀ (s : Bytes) (r : Record), st.policy[pairKey (ascii "p") s]? = some r →
    ∃ p, r = policyRecord p ∧ policyDecode r = .ok p
  registrations : ∀ (c : Bytes) (r : Record), st.push[c]? = some r →
    ∃ cfg, r = pushRecord cfg ∧ pushDecode r = .ok cfg

/-- Every record of the store was written with numbers the codec carries, and the groups
follow their logs. -/
structure Recorded (st : Store) : Prop where
  receipts : ∀ (k : Bytes) (r : Record), st.cursors[k]? = some r → ∃ n, Carried n ∧ r = indexRecord n
  groups : ∀ (k : Bytes) (r : Record), st.queues[k]? = some r → ∃ s g q, slash ∉ s ∧
    k = pairKey s g ∧ q.Counted (st.logOf s).last ∧ r = queueRecord q
  policies : ∀ (s : Bytes) (r : Record), st.policy[pairKey (ascii "p") s]? = some r →
    ∃ p, (∀ n ∈ p.ints, Carried n) ∧ r = policyRecord p
  registrations : ∀ (c : Bytes) (r : Record), st.push[c]? = some r →
    ∃ cfg, cfg.Fits ∧ Carried cfg.batchBytes ∧ Carried cfg.maxJobs ∧ r = pushRecord cfg

variable {V : Vendor} {st st' : Store}

theorem Recorded.empty : Store.empty.Recorded := by
  constructor <;> intro _ _ h <;> simp [Store.empty] at h

theorem Recorded.legible (h : st.Recorded) : st.Legible where
  receipts := by
    intro k r hr
    obtain ⟨n, hn, rfl⟩ := h.receipts k r hr
    exact ⟨n, rfl, decodeIndex_of_carried hn⟩
  groups := by
    intro k r hr
    obtain ⟨s, g, q, -, -, hq, rfl⟩ := h.groups k r hr
    exact ⟨q, rfl, queueDecode_of_carried hq.carried⟩
  policies := by
    intro s r hr
    obtain ⟨p, hp, rfl⟩ := h.policies s r hr
    exact ⟨p, rfl, policyDecode_of_carried hp⟩
  registrations := by
    intro c r hr
    obtain ⟨cfg, hf, hb, hm, rfl⟩ := h.registrations c r hr
    exact ⟨cfg, rfl, pushDecode_of_carried hf hb hm⟩

theorem Recorded.load (h : st.Recorded) {s g : Bytes} {q : Qrec} {existed : Bool} (hs : slash ∉ s)
    (hlast : (st.logOf s).last < MAX_SAFE_INT) (hload : st.queueLoad s g = .ok (q, existed)) :
    q.Counted (st.logOf s).last := by
  rw [queueLoad_eq_logOf] at hload
  cases hkey : queueKey s g with
  | none => simp [hkey] at hload
  | some key =>
    obtain rfl := boundedKey_eq hkey
    simp only [hkey] at hload
    cases hr : st.queues[pairKey s g]? with
    | none =>
      simp only [hr, Except.ok.injEq, Prod.mk.injEq] at hload
      obtain ⟨rfl, -⟩ := hload
      have hle : (st.logOf s).base ≤ (st.logOf s).last := Nat.le_add_right _ _
      split
      · exact .fresh (Nat.succ_pos _) (by omega) hlast
      · exact .fresh Nat.one_pos (by omega) hlast
    | some r =>
      obtain ⟨s', g', q', hs', hk, hq', rfl⟩ := h.groups _ r hr
      obtain ⟨rfl, rfl⟩ := pairKey_injective hs hs' hk
      simp only [hr, queueDecode_of_carried hq'.carried, Except.map, Except.ok.injEq,
        Prod.mk.injEq] at hload
      exact hload.1 ▸ hq'

end Store

/-- What the call writes into a record is carried. -/
def StoreCall.Carries (st : Store) : StoreCall → Prop
  | .cursorSet s c n => st.Raises s c n → Carried n
  | .take now s g _ lease => slash ∉ s ∧ (st.logOf s).last < MAX_SAFE_INT ∧
      ∀ log q existed, st.subjectGet s false = .ok log → st.queueLoad s g = .ok (q, existed) →
        q.TakeCarried now (effectiveLease lease q) (st.logOf s).last
  | .release now s g index drop delay => slash ∉ s ∧ (st.logOf s).last < MAX_SAFE_INT ∧
      ∀ q, st.queueLoad s g = .ok (q, true) → ∀ e ∈ q.fl.rows, e.index = index → drop = false →
        Carried (u64 (now + retryDelay q delay e))
  | .queueConfig s _ leaseMs maxAttempts backoffMs maxBackoffMs => slash ∉ s ∧
      (st.logOf s).last < MAX_SAFE_INT ∧ Carried leaseMs ∧ Carried maxAttempts ∧
      Carried backoffMs ∧ Carried maxBackoffMs
  | .policySet _ p => ∀ n ∈ p.ints, Carried n
  | .pushSet _ cfg => cfg.Fits ∧ Carried cfg.batchBytes ∧ Carried cfg.maxJobs
  | _ => True

theorem StoreCall.Leaves.counted {st : Store} {call : StoreCall} {s g : Bytes} {q' : Qrec}
    (h : call.Leaves st s g q') (hst : st.Recorded) (hc : call.Carries st) :
    slash ∉ s ∧ q'.Counted (st.logOf s).last := by
  cases call with
  | take now s' g' max lease =>
    obtain ⟨rfl, rfl, log, q, existed, hget, hload, rfl⟩ := h
    obtain ⟨hs, hlast, htake⟩ := hc
    obtain ⟨-, -, rfl⟩ := subjectGet_logOf hget
    exact ⟨hs, (hst.load hs hlast hload).take _ hlast (htake _ q existed hget hload)⟩
  | release now s' g' i drop delay =>
    obtain ⟨rfl, rfl, q, pre, e, suf, hload, hrows, hi, rfl⟩ := h
    obtain ⟨hs, hlast, hrelease⟩ := hc
    have hq := hst.load hs hlast hload
    refine ⟨hs, hq.table ?_ ?_⟩
    · cases drop with
      | true => exact Nat.le_trans (Nat.le_of_eq (BoundedTable.length_removeRow _ _)) (Nat.sub_le _ _)
      | false => simp [BoundedTable.set]
    · cases drop with
      | true => exact fun f hf => .inl (BoundedTable.mem_of_mem_swapRemove hf)
      | false =>
        intro f hf
        have he : e ∈ q.fl.rows := by simp [hrows]
        rcases List.mem_or_eq_of_mem_set hf with hf | rfl
        · exact .inl hf
        · exact .inr ⟨e, he, rfl, rfl, hrelease q hload e he hi rfl⟩
  | queueConfig s' g' l a b m =>
    obtain ⟨rfl, rfl, q, existed, hload, rfl⟩ := h
    obtain ⟨hs, hlast, hl, ha, hb, hm⟩ := hc
    have hq := hst.load hs hlast hload
    exact ⟨hs, { hq with lease := hl, maxAttempts := ha, backoff := hb, maxBackoff := hm }⟩
  | _ => exact h.elim

theorem Store.Recorded.makes {V : Vendor} {st st' : Store} {call : StoreCall} (hst : st.Recorded)
    (hm : call.Makes V st st') (hc : call.Carries st) : st'.Recorded where
  receipts := by
    intro k r hr
    rcases hm.cursors_written hr with hold | ⟨s, c, n, rfl, hraise, -, rfl⟩
    · exact hst.receipts k r hold
    · exact ⟨n, hc hraise, rfl⟩
  groups := by
    intro k r hr
    rcases hm.queues_written hr with hold | ⟨s, g, q, hleaves, rfl, rfl⟩
    · obtain ⟨s, g, q, hs, hk, hq, rfl⟩ := hst.groups k r hold
      exact ⟨s, g, q, hs, hk, hq.mono (hm.onward.last s), rfl⟩
    · obtain ⟨hs, hq⟩ := hleaves.counted hst hc
      exact ⟨s, g, q, hs, rfl, hq.mono (hm.onward.last s), rfl⟩
  policies := by
    intro s r hr
    rcases hm.policy_written hr with hold | ⟨p, rfl, rfl⟩
    · exact hst.policies s r hold
    · exact ⟨p, hc, rfl⟩
  registrations := by
    intro c r hr
    rcases hm.push_written hr with hold | ⟨cfg, rfl, rfl⟩
    · exact hst.registrations c r hold
    · obtain ⟨hf, hb, hj⟩ := hc
      exact ⟨cfg, hf, hb, hj, rfl⟩

theorem keyBuf_of_bytes {cap : ℕ} {s : Bytes} (hlen : s.length ≤ cap) (hz : ∀ c ∈ s, c ≠ 0) :
    keyBuf (cap + 1) s = s := by
  rw [keyBuf, Nat.add_sub_cancel, List.take_of_length_le hlen]
  exact List.takeWhile_eq_self_iff.mpr fun c hc => by simpa using hz c hc

theorem keyBuf_of_queryGet {req : Request} {key buf : Bytes} {size : ℕ}
    (h : req.queryGet key size = .value buf) : keyBuf size buf = buf := by
  simp only [Request.queryGet] at h
  split at h
  · contradiction
  · rename_i v hv
    split at h
    · contradiction
    · obtain rfl := QueryValue.value.inj h
      have hfit : v.take (size - 1) = v := List.take_of_length_le (by omega)
      have hbuf := keyBuf_cString_take size v
      rwa [hfit] at hbuf

theorem ne_zero_of_nameChar {c : UInt8} (h : (nameChar c || c == dot) = true) : c ≠ 0 := by
  rintro rfl
  contradiction

theorem mem_tokens {p : Bytes} {c : UInt8} (h : c ∈ p) : c = dot ∨ ∃ t ∈ tokens p, c ∈ t := by
  induction p with
  | nil => contradiction
  | cons d ds ih =>
    simp only [tokens]
    split
    · rename_i hd
      rcases List.mem_cons.mp h with rfl | h
      · exact .inl hd
      · exact (ih h).imp id fun ⟨t, ht, hc⟩ => ⟨t, List.mem_cons_of_mem _ ht, hc⟩
    · split
      · rename_i hnil
        rcases List.mem_cons.mp h with rfl | h
        · exact .inr ⟨_, List.mem_cons_self, List.mem_cons_self⟩
        · exact (ih h).imp id fun ⟨t, ht, hc⟩ => absurd (hnil ▸ ht) List.not_mem_nil
      · rename_i t ts hcons
        rcases List.mem_cons.mp h with rfl | h
        · exact .inr ⟨_, List.mem_cons_self, List.mem_cons_self⟩
        · rcases ih h with hdot | ⟨u, hu, hc⟩
          · exact .inl hdot
          · rcases List.mem_cons.mp (hcons ▸ hu) with rfl | hu
            · exact .inr ⟨_, List.mem_cons_self, List.mem_cons_of_mem _ hc⟩
            · exact .inr ⟨u, List.mem_cons_of_mem _ hu, hc⟩

theorem ne_zero_of_tokensValid {ts : List Bytes} (h : tokensValid ts = true) :
    ∀ t ∈ ts, ∀ c ∈ t, c ≠ 0 := by
  induction ts with
  | nil => simp
  | cons t ts ih =>
    simp only [tokensValid] at h
    intro u hu c hc
    split at h
    · contradiction
    split at h
    · rename_i htail
      rcases List.mem_cons.mp hu with rfl | hu
      · rw [htail] at hc
        have hne : ∀ c ∈ anyTail, c ≠ 0 := by decide +kernel
        exact hne c hc
      · exact absurd (List.isEmpty_iff.mp h ▸ hu) List.not_mem_nil
    · simp only [Bool.and_eq_true, Bool.or_eq_true, decide_eq_true_eq] at h
      rcases List.mem_cons.mp hu with rfl | hu
      · rcases h.1 with rfl | hall
        · have hne : ∀ c ∈ anyToken, c ≠ 0 := by decide +kernel
          exact hne c hc
        · exact ne_zero_of_nameChar (by simp [List.all_eq_true.mp hall c hc])
      · exact ih h.2 u hu c hc

theorem patternOf_fits {req : Request} {pre pattern : Bytes} (h : patternOf req pre = .ok pattern) :
    pattern.length ≤ BJM_SUBJECT_MAX ∧ ∀ c ∈ pattern, c ≠ 0 := by
  simp only [patternOf] at h
  generalize req.path.drop pre.length = p at h
  cases hp : bjmPatternIs p with
  | true =>
    simp only [hp, if_true] at h
    split at h
    · rename_i hvalid
      obtain rfl := Except.ok.inj h
      simp only [bjmPatternValid, Bool.and_eq_true, decide_eq_true_eq] at hvalid
      refine ⟨hvalid.1.2, fun c hc => ?_⟩
      rcases mem_tokens hc with rfl | ⟨t, ht, hct⟩
      · decide
      · exact ne_zero_of_tokensValid hvalid.2 t ht c hct
    · contradiction
  | false =>
    simp only [hp, Bool.false_eq_true, if_false] at h
    split at h
    · rename_i hvalid
      obtain rfl := Except.ok.inj h
      exact ⟨nameValid_length hvalid, fun c hc =>
        ne_zero_of_nameChar (mem_of_nameBody (nameValid_body hvalid) c hc)⟩
    · contradiction

theorem callbackOf_fits {req : Request} {buf : Bytes} (h : callbackOf req = .ok buf) :
    keyBuf (BJM_CALLBACK_MAX + 1) buf = buf := by
  simp only [callbackOf] at h
  split at h
  · rename_i v hv
    split at h
    · exact Except.ok.inj h ▸ keyBuf_of_queryGet hv
    · contradiction
  · contradiction

theorem tokenOf_fits {req : Request} {buf : Bytes} (h : tokenOf req = .ok buf) :
    keyBuf (BJM_TOKEN_MAX + 1) buf = buf := by
  simp only [tokenOf] at h
  split at h
  · rename_i v hv
    split at h
    · exact Except.ok.inj h ▸ keyBuf_of_queryGet hv
    · contradiction
  · obtain rfl := Except.ok.inj h
    simp only [Request.queryBuf]
    split
    · rfl
    · exact keyBuf_cString_take _ _

theorem queryName_fits {req : Request} {key : Bytes} {size : ℕ} {valid : Bytes → Bool} {msg : String}
    {found : Option Bytes} (h : req.queryName key size valid msg = .ok found) :
    keyBuf size (found.getD []) = found.getD [] := by
  simp only [Request.queryName] at h
  split at h
  · obtain rfl := Except.ok.inj h
    simp [keyBuf]
  · contradiction
  · rename_i buf hbuf
    split at h
    · obtain rfl := Except.ok.inj h
      exact keyBuf_of_queryGet hbuf
    · contradiction

theorem registration_fits {req : Request} {r : Registration} (h : registration req = .ok r) :
    r.cfg.Fits ∧ r.cfg.maxJobs ≤ BJM_PUSH_JOBS_MAX ∧
      r.cfg.batchBytes = req.queryU64 (ascii "batch") 0 := by
  simp only [registration] at h
  split at h
  · contradiction
  rename_i pattern hp
  split at h
  · contradiction
  · contradiction
  split at h
  · contradiction
  rename_i callback hcallback
  split at h
  · contradiction
  rename_i token htoken
  split at h
  · contradiction
  rename_i group hgroup
  obtain rfl := Except.ok.inj h
  obtain ⟨hlen, hz⟩ := patternOf_fits hp
  have hcut : cut (BJM_SUBJECT_MAX + 1) pattern = pattern := List.take_of_length_le hlen
  refine ⟨⟨?_, callbackOf_fits hcallback, tokenOf_fits htoken, queryName_fits hgroup⟩,
    Nat.min_le_right _ _, rfl⟩
  rw [hcut]
  exact keyBuf_of_bytes hlen hz

theorem queueTarget_valid {req : Request} {pre subject group : Bytes}
    (h : queueTarget req pre = .ok (subject, group)) : bjmSubjectValid subject = true := by
  simp only [queueTarget] at h
  split at h
  · contradiction
  · rename_i hs
    split at h
    · contradiction
    · contradiction
    · obtain rfl := (Prod.mk.inj (Except.ok.inj h)).1
      exact subjectAt_valid hs

namespace Store

theorem publishFresh_cursors (st : Store) (now : ℕ) (p : Publication) :
    (st.publishFresh now p).2.cursors = st.cursors := by
  simp only [publishFresh]
  split
  · rfl
  · rename_i hpub
    have hst := (bjmPublish_eq hpub).2.2.cursors_eq
    split
    · exact hst
    · exact (bjmDedupRecord_dedupOnly ..).cursors_eq.trans hst

theorem publishOnce_cursors (st : Store) (now : ℕ) (p : Publication) :
    (st.publishOnce now p).2.cursors = st.cursors := by
  simp only [publishOnce]
  cases p.id with
  | none => exact publishFresh_cursors st now p
  | some id =>
    have hlook := (bjmDedupLookup_dedupOnly st now p.subject id).cursors_eq
    dsimp only
    generalize st.bjmDedupLookup now p.subject id = r at hlook
    rcases r with ⟨e | found, st₁⟩
    · exact hlook
    · cases found with
      | some index => exact hlook
      | none => exact (publishFresh_cursors st₁ now p).trans hlook

theorem raises_congr {st st' : Store} (h : st'.cursors = st.cursors) {s c : Bytes} {n : ℕ} :
    st'.Raises s c n ↔ st.Raises s c n := by
  simp only [Raises, bjmCursorGet, h]

end Store

/-- Every number the request has the store write is carried. -/
def Handler.Carries (H : Host) (b : App) (now : ℕ) (req : Request) : Handler → Prop
  | .hAck => ∀ s c, consumerTarget req (ascii "/ack/") = .ok (s, c) →
      b.store.Raises s c (req.queryU64 (ascii "index") 0) →
      Carried (req.queryU64 (ascii "index") 0)
  | .hSubscribe => ∀ s c, subjectAt req (ascii "/sub/") = .ok s →
      (b.store.bjmSubjectInfo H.vendor s).toOption.isSome = true →
      req.queryConsumer = .ok (some c) → b.store.Raises s c (req.queryU64 (ascii "ack") 0) →
      Carried (req.queryU64 (ascii "ack") 0)
  | .hPublish => ∀ p s c, publication H.vendor req = .ok p → ackTarget req = some (s, c) →
      b.store.Raises s c (req.queryU64 (ascii "ack_index") 0) →
      Carried (req.queryU64 (ascii "ack_index") 0)
  | .hPushPut => ∀ r, registration req = .ok r → Carried (req.queryU64 (ascii "batch") 0) ∧
      ((∃ s, b.Places r s) → req.startsLast = false → 1 < req.queryU64 (ascii "from") 0 →
        Carried (req.queryU64 (ascii "from") 0 - 1))
  | .hTake => ∀ s g log q existed, queueTarget req (ascii "/take/") = .ok (s, g) →
      b.store.subjectGet s false = .ok log → b.store.queueLoad s g = .ok (q, existed) →
      q.TakeCarried now (effectiveLease (req.queryU64 (ascii "lease") UINT64_MAX) q) log.last
  | .hFail => ∀ s g q, queueTarget req (ascii "/fail/") = .ok (s, g) →
      b.store.queueLoad s g = .ok (q, true) →
      ∀ e ∈ q.fl.rows, e.index = req.queryU64 (ascii "index") 0 →
        Carried (u64 (now + retryDelay q (req.queryU64 (ascii "delay") UINT64_MAX) e))
  | .hQueueConfig => ∀ s g, queueTarget req (ascii "/queue/") = .ok (s, g) →
      Carried (req.queryU64 (ascii "lease_ms") BJM_LEASE_DEFAULT_MS) ∧
      Carried (req.queryU64 (ascii "max_attempts") BJM_MAX_ATTEMPTS_DEFAULT) ∧
      Carried (req.queryU64 (ascii "backoff_ms") BJM_BACKOFF_DEFAULT_MS) ∧
      Carried (req.queryU64 (ascii "max_backoff_ms") BJM_MAX_BACKOFF_DEFAULT_MS)
  | .hPolicyPut => ∀ s, subjectAt req (ascii "/policy/") = .ok s →
      ∀ n ∈ (App.requestedPolicy req).ints, Carried n
  | _ => True

/-- No log has reached the last index a record can carry. -/
def Store.Countable (st : Store) : Prop := ∀ s, (st.logOf s).last < MAX_SAFE_INT

section

variable {H : Host} {b : App} {now : ℕ} {req : Request} {h : Handler} {st : Store}

theorem Handler.Acknowledges.carried {s c : Bytes} {n : ℕ}
    (ha : h.Acknowledges H b now req st s c n) (hc : h.Carries H b now req)
    (hraise : st.Raises s c n) : Carried n := by
  cases h with
  | hAck =>
    obtain ⟨rfl, htarget, -, rfl⟩ := ha
    exact hc s c htarget hraise
  | hSubscribe =>
    obtain ⟨rfl, hs, hinfo, hconsumer, -, rfl⟩ := ha
    exact hc s c hs hinfo hconsumer hraise
  | hPublish =>
    obtain ⟨p, r, hp, hr, htarget, -, rfl⟩ := ha
    refine hc p s c hp htarget ((raises_congr ?_).mp hraise)
    have hcursors := b.store.publishOnce_cursors now p
    rwa [hr] at hcursors
  | _ => exact ha.elim

/-- A request that gives a consumer its first receipt appends nothing. -/
def Handler.Starts (h : Handler) : Prop := h = hSubscribe ∨ h = hPushPut

theorem Handler.Begins.starts {s c : Bytes} {n : ℕ} (hb : h.Begins b req st s c n) : h.Starts := by
  cases h with
  | hSubscribe => exact .inl rfl
  | hPushPut => exact .inr rfl
  | _ => exact hb.elim

theorem Handler.Asks.logs {st' : Store} {call : StoreCall} (ha : h.Asks H b now req st call)
    (hm : call.Makes H.vendor st st') (hh : h.Starts) : st'.logs = st.logs := by
  cases call with
  | cursorSet s c n => rw [bjmCursorSet_same hm]
  | pushSet | policyOpen =>
    obtain rfl := hm
    rfl
  | _ => rcases hh with rfl | rfl <;> simp [Handler.Asks] at ha

theorem Handler.Begins.carried {s c : Bytes} {n : ℕ} (hb : h.Begins b req st s c n)
    (hc : h.Carries H b now req) (hlast : st.Countable) : Carried n := by
  have hend : Carried (st.bjmLastIndex s) :=
    .of_le (Nat.le_trans (st.bjmLastIndex_le s) (Nat.le_of_lt (hlast s)))
  cases h with
  | hSubscribe =>
    rcases hb.2 with rfl | rfl
    · decide
    · exact hend
  | hPushPut =>
    obtain ⟨⟨r, hr, rfl, hplace⟩, rfl | rfl | ⟨hstart, hfrom, rfl⟩⟩ := hb
    · decide
    · exact hend
    · exact (hc r hr).2 ⟨s, hplace⟩ hstart hfrom
  | _ => exact hb.elim

/-- A call of a request whose numbers are carried writes what is carried. -/
theorem Handler.Carries.call (hc : h.Carries H b now req) (hlast : b.store.Countable)
    (hlogs : h.Starts → st.logs = b.store.logs) {call : StoreCall}
    (ha : h.Asks H b now req st call) : call.Carries st := by
  cases call with
  | cursorSet s c n =>
    intro hraise
    rcases ha with hack | hbegin
    · exact hack.carried hc hraise
    · refine hbegin.carried hc fun s => ?_
      simp only [logOf, hlogs hbegin.starts]
      exact hlast s
  | take at_ s g max lease =>
    obtain ⟨rfl, rfl, rfl, htarget, -, rfl⟩ := ha
    refine ⟨slash_notMem_of_nameValid (queueTarget_valid htarget), hlast s,
      fun log q existed hget hload => ?_⟩
    obtain ⟨-, -, rfl⟩ := subjectGet_logOf hget
    exact hc s g _ q existed htarget hget hload
  | release at_ s g index drop delay =>
    obtain ⟨rfl, rfl, rfl, ⟨rfl, htarget, rfl⟩ | ⟨rfl, htarget, rfl, rfl⟩⟩ := ha
    · refine ⟨slash_notMem_of_nameValid (queueTarget_valid htarget), hlast s, ?_⟩
      intro q hload e he hi hd
      contradiction
    · exact ⟨slash_notMem_of_nameValid (queueTarget_valid htarget), hlast s,
        fun q hload e he hi _ => hc s g q htarget hload e he hi⟩
  | queueConfig s g l a bo m =>
    obtain ⟨rfl, rfl, htarget, rfl, rfl, rfl, rfl⟩ := ha
    exact ⟨slash_notMem_of_nameValid (queueTarget_valid htarget), hlast s, hc s g htarget⟩
  | policySet s p =>
    obtain ⟨rfl, hs, rfl⟩ := ha
    exact hc s hs
  | pushSet c cfg =>
    obtain ⟨rfl, hr⟩ := ha
    obtain ⟨hfits, hjobs, hbatch⟩ := registration_fits hr
    refine ⟨hfits, hbatch ▸ (hc _ hr).1, .of_le (Nat.le_trans hjobs (by decide))⟩
  | _ => trivial

theorem Handler.Carries.run (hc : h.Carries H b now req) (hlast : b.store.Countable)
    (hst : b.store.Recorded) : (h.run H b now req).2.store.Recorded := by
  refine ((h.calls H b now req).preserves
    (fun st => st.Recorded ∧ (h.Starts → st.logs = b.store.logs)) ⟨hst, fun _ => rfl⟩ ?_).1
  intro st call st' ⟨hrec, hlogs⟩ ha hm
  exact ⟨hrec.makes hm (hc.call hlast hlogs ha), fun hh => (ha.logs hm hh).trans (hlogs hh)⟩

end

/-- The operation is a sweep, or a request that writes only numbers that are carried. -/
def ServeOp.Carries (H : Host) (b : App) : ServeOp → Prop
  | .request now method req => b.store.Countable ∧
      ∀ h, sukkalRoute method req.path = some h → h.Carries H b now req
  | .sweep _ => True
  | _ => False

theorem ServeOp.Carries.serve {H : Host} {b : App} {op : ServeOp} (hc : op.Carries H b)
    (hst : b.store.Recorded) : (b.serve H op).2.store.Recorded := by
  cases op with
  | request now method req =>
    simp only [App.serve]
    rcases b.dispatch_cases H now method req with ⟨h, hroute, heq⟩ | ⟨-, heq⟩
    · rw [heq]
      exact (hc.2 h hroute).run hc.1 hst
    · rw [heq]
      exact hst
  | sweep nowS =>
    refine (b.store.retentionRun_calls H.vendor nowS).preserves Recorded hst ?_
    intro st call st' hrec ha hm
    refine hrec.makes hm ?_
    cases call with
    | trim | policyOpen => trivial
    | _ => exact ha.elim
  | _ => exact hc.elim

/-- Requests that write only numbers that are carried leave every record legible. -/
theorem records_stay_legible (H : Host) {st : Store} {listing : List Bytes} (n : ℕ)
    {ops : List ServeOp} (hst : st.Recorded)
    (ha : Along (App.serve H) (fun _ b op => op.Carries H b) [] (App.start st listing n) ops) :
    (run (App.serve H) (App.start st listing n) ops).2.store.Legible := by
  have hrec : (run (App.serve H) (App.start st listing n) ops).2.store.Recorded :=
    invariant (I := fun _ b => b.store.Recorded) hst ha fun _ _ op hc hst => hc.serve hst
  exact hrec.legible

/-- One order is published, and an index no double holds is acknowledged. -/
def ackFar : List ServeOp :=
  [.request 1 POST (order none),
    .request 2 POST (.plain (ascii "/ack/orders")
      [(ascii "consumer", ascii "billing"), (ascii "index", ascii "9007199254740992")])]

/-- Both requests are answered with success, and the receipt does not decode any more. -/
theorem ackFar_illegible :
    (run (App.serve (plainHost wholeBodies)) (App.start .empty [] 0) ackFar).1.map
      Response.status = [200, 200] ∧
    ¬ (run (App.serve (plainHost wholeBodies)) (App.start .empty [] 0) ackFar).2.store.Legible := by
  have hstored : (run (App.serve (plainHost wholeBodies)) (App.start .empty [] 0)
      ackFar).2.store.cursors[pairKey (ascii "orders") (ascii "billing")]? =
        some (indexRecord (2 ^ 53)) := by decide +kernel
  refine ⟨by decide +kernel, fun h => ?_⟩
  obtain ⟨n, -, hn⟩ := h.receipts _ _ hstored
  have hrefused : decodeIndex (indexRecord (2 ^ 53)) = .error .intRange := rfl
  rw [hrefused] at hn
  contradiction

/-- An order that acknowledges the one it publishes stays legible. -/
theorem ackOwn_legible :
    (run (App.serve (plainHost wholeBodies)) (App.start .empty [] 0) ackOwn).2.store.Legible := by
  have hroute : sukkalRoute POST (order (some (ascii "orders"))).path = some .hPublish := by
    decide +kernel
  have hcountable : Store.empty.Countable := fun s => by simp [Store.empty, logOf, Elog.last]; decide
  have ha : Along (App.serve (plainHost wholeBodies))
      (fun _ b op => op.Carries (plainHost wholeBodies) b) [] (App.start .empty [] 0) ackOwn := by
    refine ⟨⟨hcountable, fun h hh => ?_⟩, trivial, trivial⟩
    obtain rfl := Option.some.inj (hroute.symm.trans hh)
    exact fun p s c _ _ _ => by decide +kernel
  exact records_stay_legible (plainHost wholeBodies) 0 .empty ha

end SukkalMsg
