import SukkalMsg.QueueRecord

/-!
# Taking jobs

A take first sweeps the in-flight table for lapsed leases: a job with attempts
left is let again in place, a job without any is moved to the dead list, its row
filled by the last one. Then it hands out jobs nobody has seen. The new record is
stored before anything is answered, and the dead jobs are published to the
subject's dead-letter channel last.
-/

namespace SukkalMsg

open Std Names Binjson OrderedScan

/-- What a take has done so far: the record it will store, the jobs it will hand
out with their attempts, and the jobs it gave up on with theirs. -/
structure TakeState where
  q : Qrec
  chosen : List (ℕ × ℕ)
  deadNow : BoundedTable (ℕ × ℕ) BJM_INFLIGHT_MAX

def Slot.exhausted (maxAttempts : ℕ) (e : Slot) : Bool :=
  maxAttempts != 0 && maxAttempts ≤ e.attempts

def Slot.renew (now lease : ℕ) (e : Slot) : Slot := ⟨e.index, u64 (now + lease), e.attempts + 1⟩

def Slot.first (now lease index : ℕ) : Slot := ⟨index, u64 (now + lease), 1⟩

namespace TakeState

def bury (s : TakeState) (i : ℕ) (e : Slot) : TakeState where
  q := { s.q with
    deadTotal := s.q.deadTotal + 1
    dead := s.q.dead.addEvicting e.index
    fl := s.q.fl.swapRemove i }
  chosen := s.chosen
  deadNow := s.deadNow.add (e.index, e.attempts)

def relet (now lease : ℕ) (s : TakeState) (i : ℕ) (e : Slot) : TakeState where
  q := { s.q with fl := s.q.fl.set i (e.renew now lease) }
  chosen := s.chosen ++ [(e.index, e.attempts + 1)]
  deadNow := s.deadNow

def handOut (now lease : ℕ) (s : TakeState) : TakeState where
  q := { s.q with
    next := s.q.next + 1
    fl := if lease > 0 then s.q.fl.add (.first now lease s.q.next) else s.q.fl }
  chosen := s.chosen ++ [(s.q.next, 1)]
  deadNow := s.deadNow

end TakeState

/-- The loop over the table. Every turn advances `i` or shortens the table, so as
many turns as the table had rows are enough. -/
def takeExpired (now lease max : ℕ) : ℕ → ℕ → TakeState → TakeState
  | 0, _, s => s
  | fuel + 1, i, s =>
    match s.q.fl.rows[i]? with
    | none => s
    | some e =>
      if s.chosen.length ≥ max then s
      else if e.expires > now then takeExpired now lease max fuel (i + 1) s
      else if e.exhausted s.q.maxAttempts then takeExpired now lease max fuel i (s.bury i e)
      else takeExpired now lease max fuel (i + 1) (s.relet now lease i e)

/-- The loop over messages never handed out; it stops at a full table. -/
def takeFresh (now lease max last : ℕ) : ℕ → TakeState → TakeState
  | 0, s => s
  | fuel + 1, s =>
    if s.chosen.length < max ∧ s.q.next ≤ last then
      if lease > 0 ∧ s.q.fl.count ≥ BJM_INFLIGHT_MAX then s
      else takeFresh now lease max last fuel (s.handOut now lease)
    else s

/-- `max` as `bjm_take` clamps it. -/
def clampMax (max : ℤ) : ℕ :=
  if max < 1 then 1 else if max > BJM_INFLIGHT_MAX then BJM_INFLIGHT_MAX else max.toNat

def takePlan (now lease max last : ℕ) (q : Qrec) : TakeState :=
  takeFresh now lease max last max
    (takeExpired now lease max q.fl.count 0 ⟨q, [], .empty⟩)

structure Job where
  index : ℕ
  attempts : ℕ
  expiresMs : ℕ
  type : ℤ
  payload : Bytes
  deriving DecidableEq

def takenJobs (now lease : ℕ) (log : Elog) (chosen : List (ℕ × ℕ)) : List Job :=
  chosen.filterMap fun c => (log.get c.1).map fun e =>
    ⟨c.1, c.2, if lease = 0 then 0 else u64 (now + lease), e.type, e.payload⟩

def jobRecord (j : Job) : Record :=
  [.beginObject,
    .key (ascii "index"), putInt j.index,
    .key (ascii "attempts"), putInt j.attempts,
    .key (ascii "expires_ms"), putInt j.expiresMs,
    .key (ascii "type"), .int j.type,
    .key (ascii "payload"), .binary j.payload,
    .endObject]

def takeRecord (jobs : List Job) : Record :=
  .beginArray :: jobs.flatMap jobRecord ++ [.endArray]

/-- The envelope a dead job is published in. -/
def envelopeRecord (subject group : Bytes) (now : ℕ) (d : ℕ × ℕ) (e : Entry) : Record :=
  [.beginObject,
    .key (ascii "subject"), .string subject,
    .key (ascii "group"), .string group,
    .key (ascii "index"), putInt d.1,
    .key (ascii "attempts"), putInt d.2,
    .key (ascii "failed_ms"), putInt now,
    .key (ascii "type"), .int e.type,
    .key (ascii "payload"), .binary e.payload,
    .endObject]

def envelopeEntry (V : Vendor) (subject group : Bytes) (now : ℕ) (d : ℕ × ℕ) (e : Entry) : Entry :=
  ⟨BJM_ENTRY_PLAIN, V.encode (envelopeRecord subject group now d e)⟩

namespace Store

/-- One turn of the dead-letter loop; its errors are not reported. -/
def deadLetter (V : Vendor) (now : ℕ) (subject group dead : Bytes) (st : Store) (d : ℕ × ℕ) :
    Store :=
  match st.subjectGet subject false with
  | .error _ => st
  | .ok log => match log.get d.1 with
    | none => st
    | some e => match st.bjmPublish now dead (envelopeEntry V subject group now d e) with
      | .error _ => st
      | .ok (_, st) => st

def deadLetters (V : Vendor) (now : ℕ) (subject group : Bytes) (ds : List (ℕ × ℕ)) (st : Store) :
    Store :=
  match deadSubjectOf subject with
  | none => st
  | some dead => ds.foldl (deadLetter V now subject group dead) st

def lettered (st : Store) (subject : Bytes) (d : ℕ × ℕ) : Bool :=
  match st.subjectGet subject false with
  | .error _ => false
  | .ok log => (log.get d.1).isSome

/-- The same loop where the name it was handed may read otherwise, as `again` says, once a letter
is out. -/
def deadLettersFrom (V : Vendor) (now : ℕ) (again : Store → Bytes) (group dead : Bytes) :
    Bytes → List (ℕ × ℕ) → Store → Store
  | _, [], st => st
  | subject, d :: ds, st =>
    let st' := deadLetter V now subject group dead st d
    deadLettersFrom V now again group dead (if st.lettered subject d then again st' else subject)
      ds st'

def deadLettersVia (V : Vendor) (now : ℕ) (again : Store → Bytes) (subject group : Bytes)
    (ds : List (ℕ × ℕ)) (st : Store) : Store :=
  match deadSubjectOf subject with
  | none => st
  | some dead => deadLettersFrom V now again group dead subject ds st

/-- What a take answers, the jobs it gave up on, and the store it leaves. -/
structure Taken where
  jobs : List Job
  dead : List (ℕ × ℕ)
  store : Store

def effectiveLease (lease : ℕ) (q : Qrec) : ℕ := if lease = UINT64_MAX then q.leaseMs else lease

/-- A take by a caller whose name may read otherwise once a letter is out. -/
def bjmTakeVia (V : Vendor) (again : Store → Bytes) (st : Store) (now : ℕ) (subject group : Bytes)
    (max : ℤ) (lease : ℕ) : Except BjErr Taken :=
  match st.subjectGet subject false with
  | .error e => .error e
  | .ok log => match st.queueLoad subject group with
    | .error e => .error e
    | .ok (q, _) =>
      let lease := effectiveLease lease q
      let plan := takePlan now lease (clampMax max) log.last { q with leaseMs := lease }
      match st.queueStore subject group plan.q with
      | .error e => .error e
      | .ok st => .ok
        { jobs := takenJobs now lease log plan.chosen
          dead := plan.deadNow.rows
          store := st.deadLettersVia V now again subject group plan.deadNow.rows }

def bjmTake (V : Vendor) (st : Store) (now : ℕ) (subject group : Bytes) (max : ℤ) (lease : ℕ) :
    Except BjErr Taken :=
  st.bjmTakeVia V (fun _ => subject) now subject group max lease

end Store

/-- What a sweep of some rows does: of `suf`, some are kept, some let again and
some buried, and the others are the rows it leaves. -/
structure Sweep (now lease : ℕ) (s s' : TakeState) (suf suf' kept old buried : List Slot) :
    Prop where
  before : suf.Perm (kept ++ (old ++ buried))
  after : suf'.Perm (kept ++ old.map (Slot.renew now lease))
  chosen : s'.chosen = s.chosen ++ old.map fun e => (e.index, e.attempts + 1)
  deadNow : s'.deadNow.rows = s.deadNow.rows ++ buried.map fun e => (e.index, e.attempts)
  deadTotal : s'.q.deadTotal = s.q.deadTotal + buried.length
  next : s'.q.next = s.q.next
  maxAttempts : s'.q.maxAttempts = s.q.maxAttempts
  old_due : ∀ e ∈ old, e.expires ≤ now ∧ e.exhausted s.q.maxAttempts = false
  buried_due : ∀ e ∈ buried, e.expires ≤ now ∧ e.exhausted s.q.maxAttempts = true

namespace Sweep

variable {now lease i : ℕ} {s s' : TakeState} {e : Slot}
  {suf suf₁ suf' kept old buried : List Slot}

theorem refl : Sweep now lease s s suf suf suf [] [] where
  before := by simp
  after := by simp
  chosen := by simp
  deadNow := by simp
  deadTotal := by simp
  next := rfl
  maxAttempts := rfl
  old_due := by simp
  buried_due := by simp

theorem keep (e : Slot) (h : Sweep now lease s s' suf suf' kept old buried) :
    Sweep now lease s s' (e :: suf) (e :: suf') (e :: kept) old buried :=
  { h with
    before := by simpa using h.before.cons e
    after := by simpa using h.after.cons e }

theorem bury (h : Sweep now lease (s.bury i e) s' suf₁ suf' kept old buried)
    (hperm : suf₁.Perm suf) (hroom : s.deadNow.rows.length < BJM_INFLIGHT_MAX)
    (hdue : e.expires ≤ now) (hout : e.exhausted s.q.maxAttempts = true) :
    Sweep now lease s s' (e :: suf) suf' kept old (e :: buried) where
  before := by
    have hmiddle : ((kept ++ old) ++ e :: buried).Perm (e :: ((kept ++ old) ++ buried)) :=
      List.perm_middle
    have hmid : (kept ++ (old ++ e :: buried)).Perm (e :: (kept ++ (old ++ buried))) := by
      simpa [List.append_assoc] using hmiddle
    exact ((hperm.symm.trans h.before).cons e).trans hmid.symm
  after := h.after
  chosen := h.chosen
  deadNow := by
    rw [h.deadNow, TakeState.bury, BoundedTable.add_rows hroom]
    simp
  deadTotal := by
    simp only [h.deadTotal, TakeState.bury, List.length_cons]
    omega
  next := h.next
  maxAttempts := h.maxAttempts
  old_due := h.old_due
  buried_due := by
    intro f hf
    rcases List.mem_cons.mp hf with rfl | hf
    · exact ⟨hdue, hout⟩
    · exact h.buried_due f hf

theorem relet (h : Sweep now lease (s.relet now lease i e) s' suf suf' kept old buried)
    (hdue : e.expires ≤ now) (hleft : e.exhausted s.q.maxAttempts = false) :
    Sweep now lease s s' (e :: suf) (e.renew now lease :: suf') kept (e :: old) buried where
  before := by
    have hmid : (kept ++ e :: (old ++ buried)).Perm (e :: (kept ++ (old ++ buried))) :=
      List.perm_middle
    exact (h.before.cons e).trans hmid.symm
  after := by
    have hmid : (kept ++ e.renew now lease :: old.map (Slot.renew now lease)).Perm
        (e.renew now lease :: (kept ++ old.map (Slot.renew now lease))) := List.perm_middle
    exact (h.after.cons _).trans hmid.symm
  chosen := by simp [h.chosen, TakeState.relet]
  deadNow := h.deadNow
  deadTotal := h.deadTotal
  next := h.next
  maxAttempts := h.maxAttempts
  old_due := by
    intro f hf
    rcases List.mem_cons.mp hf with rfl | hf
    · exact ⟨hdue, hleft⟩
    · exact h.old_due f hf
  buried_due := h.buried_due

end Sweep

/-- The loop from row `pre.length` on sweeps the rows from there and leaves the
rows before alone. -/
theorem takeExpired_sweep (now lease max fuel : ℕ) (s : TakeState) (pre suf : List Slot)
    (hrows : s.q.fl.rows = pre ++ suf)
    (hroom : s.deadNow.rows.length + s.q.fl.rows.length ≤ BJM_INFLIGHT_MAX) :
    ∃ suf' kept old buried,
      (takeExpired now lease max fuel pre.length s).q.fl.rows = pre ++ suf' ∧
        Sweep now lease s (takeExpired now lease max fuel pre.length s) suf suf' kept old buried := by
  induction fuel generalizing s pre suf with
  | zero => exact ⟨suf, suf, [], [], hrows, .refl⟩
  | succ fuel ih =>
    cases suf with
    | nil =>
      simp only [takeExpired, hrows, List.append_nil, List.getElem?_length]
      exact ⟨[], [], [], [], by simp, .refl⟩
    | cons e suf =>
      have hget : s.q.fl.rows[pre.length]? = some e := by simp [hrows]
      simp only [takeExpired, hget]
      split
      · exact ⟨e :: suf, e :: suf, [], [], hrows, .refl⟩
      split
      · -- the lease still runs
        obtain ⟨suf', kept, old, buried, hr, hs⟩ :=
          ih s (pre ++ [e]) suf (by simp [hrows]) hroom
        rw [List.length_append] at hr hs
        exact ⟨e :: suf', e :: kept, old, buried, by simpa using hr, hs.keep e⟩
      rename_i hdue
      split
      · -- the last row now stands where the buried one stood
        rename_i hout
        obtain ⟨suf₁, hrows₁, hperm⟩ := BoundedTable.swapRemove_rows hrows
        have hlen := hperm.length_eq
        have hdead : s.deadNow.rows.length < BJM_INFLIGHT_MAX := by
          simp only [hrows, List.length_append, List.length_cons] at hroom
          omega
        obtain ⟨suf', kept, old, buried, hr, hs⟩ :=
          ih (s.bury pre.length e) pre suf₁ hrows₁ (by
            simp only [hrows, List.length_append, List.length_cons] at hroom
            simp only [TakeState.bury, BoundedTable.add_rows hdead, hrows₁, List.length_append,
              List.length_singleton]
            omega)
        exact ⟨suf', kept, old, e :: buried, hr, hs.bury hperm hdead (by omega) hout⟩
      · rename_i hleft
        have hrows₁ := BoundedTable.set_rows hrows (e.renew now lease)
        obtain ⟨suf', kept, old, buried, hr, hs⟩ :=
          ih (s.relet now lease pre.length e) (pre ++ [e.renew now lease]) suf
            (by simpa [TakeState.relet] using hrows₁) (by
              simp only [hrows, List.length_append, List.length_cons] at hroom
              simpa [TakeState.relet, hrows₁] using hroom)
        rw [List.length_append] at hr hs
        exact ⟨e.renew now lease :: suf', kept, e :: old, buried, by simpa using hr,
          hs.relet (by omega) (by simpa using hleft)⟩

/-- The rows `k` fresh jobs add to the table. -/
def freshRows (now lease next k : ℕ) : List Slot :=
  if lease > 0 then (List.range' next k).map (Slot.first now lease) else []

theorem takeFresh_eq (now lease max last fuel : ℕ) (s : TakeState) :
    ∃ k,
      let s' := takeFresh now lease max last fuel s
      s'.q.fl.rows = s.q.fl.rows ++ freshRows now lease s.q.next k ∧
        s'.q.next = s.q.next + k ∧ (0 < k → s.q.next + k ≤ last + 1) ∧
        s'.chosen = s.chosen ++ (List.range' s.q.next k).map (·, 1) ∧
        s'.deadNow = s.deadNow ∧ s'.q.deadTotal = s.q.deadTotal ∧
        s'.q.maxAttempts = s.q.maxAttempts := by
  induction fuel generalizing s with
  | zero => exact ⟨0, by simp [takeFresh, freshRows]⟩
  | succ fuel ih =>
    simp only [takeFresh]
    split
    · rename_i hmore
      split
      · exact ⟨0, by simp [freshRows]⟩
      · rename_i hfull
        obtain ⟨k, hrows, hnext, hle, hchosen, hdead, htotal, hattempts⟩ :=
          ih (s.handOut now lease)
        refine ⟨k + 1, ?_, ?_, ?_, ?_, hdead, htotal, hattempts⟩
        · rw [hrows]
          by_cases hl : lease > 0
          · have hcount : s.q.fl.rows.length < BJM_INFLIGHT_MAX := by
              simp only [hl, BoundedTable.count, true_and] at hfull
              omega
            simp [TakeState.handOut, freshRows, hl, BoundedTable.add_rows hcount, List.range'_succ]
          · simp [TakeState.handOut, freshRows, hl]
        · have hstep : (s.handOut now lease).q.next = s.q.next + 1 := rfl
          rw [hnext, hstep]
          omega
        · intro _
          simp only [TakeState.handOut] at hle
          rcases Nat.eq_zero_or_pos k with rfl | hk
          · omega
          · have := hle hk
            omega
        · rw [hchosen]
          simp [TakeState.handOut, List.range'_succ]
    · exact ⟨0, by simp [freshRows]⟩

structure TakeOutcome (now lease last : ℕ) (q : Qrec) (s : TakeState)
    (kept old buried : List Slot) (k : ℕ) : Prop where
  before : q.fl.rows.Perm (kept ++ (old ++ buried))
  after : s.q.fl.rows.Perm
    (kept ++ old.map (Slot.renew now lease) ++ freshRows now lease q.next k)
  chosen : s.chosen =
    (old.map fun e => (e.index, e.attempts + 1)) ++ (List.range' q.next k).map (·, 1)
  deadNow : s.deadNow.rows = buried.map fun e => (e.index, e.attempts)
  deadTotal : s.q.deadTotal = q.deadTotal + buried.length
  next : s.q.next = q.next + k
  fresh_le : 0 < k → q.next + k ≤ last + 1
  maxAttempts : s.q.maxAttempts = q.maxAttempts
  old_due : ∀ e ∈ old, e.expires ≤ now ∧ e.exhausted q.maxAttempts = false
  buried_due : ∀ e ∈ buried, e.expires ≤ now ∧ e.exhausted q.maxAttempts = true

theorem takePlan_outcome (now lease max last : ℕ) (q : Qrec) :
    ∃ kept old buried k, TakeOutcome now lease last q (takePlan now lease max last q)
      kept old buried k := by
  obtain ⟨rows, kept, old, buried, hrows, hs⟩ :=
    takeExpired_sweep now lease max q.fl.count ⟨q, [], .empty⟩ [] q.fl.rows rfl
      (by simpa using q.fl.fits)
  simp only [List.length_nil, List.nil_append] at hrows hs
  obtain ⟨k, hrows', hnext, hle, hchosen, hdead, htotal, hattempts⟩ :=
    takeFresh_eq now lease max last max (takeExpired now lease max q.fl.count 0 ⟨q, [], .empty⟩)
  have hn := hs.next
  dsimp only at hn
  rw [hn] at hrows' hnext hle hchosen
  refine ⟨kept, old, buried, k, hs.before, ?_, ?_, ?_, ?_, hnext, hle, ?_, hs.old_due,
    hs.buried_due⟩
  · rw [takePlan, hrows', hrows]
    exact hs.after.append_right _
  · rw [takePlan, hchosen, hs.chosen]
    simp
  · rw [takePlan, hdead, hs.deadNow]
    simp
  · rw [takePlan, htotal, hs.deadTotal]
  · rw [takePlan, hattempts, hs.maxAttempts]

end SukkalMsg
