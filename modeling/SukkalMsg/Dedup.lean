import SukkalMsg.ActionRuns
import SukkalMsg.Receipts
import SukkalMsg.TwoGenerations

/-!
# The dedup index

An idempotency id is remembered with the index of the message it published, in the
current one of two trees. Which tree is current and since when is saved in the
policy tree, so that it survives a restart. The pair of trees is a memory of two
generations: the calls below refine the abstract one.
-/

namespace SukkalMsg

open Std Names Binjson OrderedScan TwoGenerations ActionRuns

def BJM_DEDUP_WINDOW_DEFAULT_MS : ℕ := 120000

namespace Store

def bjmDedupWindow (st : Store) : ℕ :=
  if st.ddWindowMs ≠ 0 then st.ddWindowMs else BJM_DEDUP_WINDOW_DEFAULT_MS

/-- `dd[gen]`. -/
def dd (st : Store) (gen : Bool) : Tree := if gen then st.dd1 else st.dd0

def setDd (st : Store) (gen : Bool) (t : Tree) : Store :=
  if gen then { st with dd1 := t } else { st with dd0 := t }

def ddStateKey : Bytes := ascii "d/state"

structure DdState where
  key : Bytes
  gen : ℕ
  rotatedMs : ℕ

/-- `dd_key` and `dd_int`. -/
def ddVisit (d : DdState) : Item → DdState
  | .key k => { d with key := keyBuf 16 k }
  | .int v =>
    if d.key = ascii "gen" then { d with gen := ofDouble v }
    else if d.key = ascii "rotated_ms" then { d with rotatedMs := ofDouble v }
    else d
  | _ => d

def ddStateRecord (gen : Bool) (rotatedMs : ℕ) : Record :=
  [.beginObject,
    .key (ascii "gen"), .int (if gen then 1 else 0),
    .key (ascii "rotated_ms"), putInt rotatedMs,
    .endObject]

def ddStateSave (st : Store) : Store :=
  { st with
    policyOpen := true
    policy := st.policy.insert ddStateKey (ddStateRecord st.ddGen st.ddRotatedMs) }

/-- Recover which generation was current. -/
def ddRecover (st : Store) : Store :=
  match st.policy[ddStateKey]? with
  | none => st
  | some r => match bjDecode ddVisit r ⟨[], 0, 0⟩ with
    | .error _ => st
    | .ok d => { st with ddGen := d.gen != 0, ddRotatedMs := d.rotatedMs }

def dedupOpen (st : Store) (now : ℕ) : Store :=
  if st.ddOpen then st
  else
    let st := { st with policyOpen := true }.ddRecover
    if st.ddRotatedMs = 0 then { st with ddRotatedMs := now, ddOpen := true }.ddStateSave
    else { st with ddOpen := true }

/-- Retire the older generation, or both, once the window has elapsed. -/
def dedupRotate (st : Store) (now : ℕ) : Store :=
  let window := st.bjmDedupWindow
  let elapsed := u64Sub now st.ddRotatedMs
  if elapsed < window then st
  else
    let st :=
      if elapsed ≥ u64 (2 * window) then { (st.setDd false ∅).setDd true ∅ with ddGen := false }
      else { st.setDd (!st.ddGen) ∅ with ddGen := !st.ddGen }
    { st with ddRotatedMs := now }.ddStateSave

/-- Put an id into the current generation. -/
def ddRemember (st : Store) (key : Bytes) (index : ℕ) : Store :=
  st.setDd st.ddGen ((st.dd st.ddGen).insert key (indexRecord index))

/-- Look an id up, current generation first; one seen in the older is copied forward. -/
def bjmDedupLookup (st : Store) (now : ℕ) (subject id : Bytes) :
    Except BjErr (Option ℕ) × Store :=
  let st := (st.dedupOpen now).dedupRotate now
  match dedupKey subject id with
  | none => (.error .range, st)
  | some key => match (st.dd st.ddGen)[key]? with
    | some r => ((decodeIndex r).map some, st)
    | none => match (st.dd (!st.ddGen))[key]? with
      | none => (.ok none, st)
      | some r => match decodeIndex r with
        | .error e => (.error e, st)
        | .ok index => (.ok (some index), st.ddRemember key index)

def bjmDedupRecord (st : Store) (now : ℕ) (subject id : Bytes) (index : ℕ) :
    Except BjErr Unit × Store :=
  let st := st.dedupOpen now
  match dedupKey subject id with
  | none => (.error .range, st)
  | some key => (.ok (), st.ddRemember key index)

/-- The two generations as one memory. -/
def memoryOf (st : Store) : Memory Bytes Record where
  cur k := (st.dd st.ddGen)[k]?
  old k := (st.dd (!st.ddGen))[k]?
  rotated := st.ddRotatedMs

theorem window_pos (st : Store) : 0 < st.bjmDedupWindow := by
  simp only [bjmDedupWindow, BJM_DEDUP_WINDOW_DEFAULT_MS]
  split <;> omega

@[simp] theorem dd_setDd (st : Store) (gen gen' : Bool) (t : Tree) :
    (st.setDd gen t).dd gen' = if gen = gen' then t else st.dd gen' := by
  cases gen <;> cases gen' <;> rfl

@[simp] theorem setDd_ddGen (st : Store) (gen : Bool) (t : Tree) :
    (st.setDd gen t).ddGen = st.ddGen := by cases gen <;> rfl

@[simp] theorem setDd_ddRotatedMs (st : Store) (gen : Bool) (t : Tree) :
    (st.setDd gen t).ddRotatedMs = st.ddRotatedMs := by cases gen <;> rfl

/-- Remembering an id is remembering it in the memory. -/
theorem memoryOf_ddRemember (st : Store) (key : Bytes) (index : ℕ) :
    (st.ddRemember key index).memoryOf = st.memoryOf.remember key (indexRecord index) := by
  have hcur : ∀ k : Bytes, ((st.ddRemember key index).dd st.ddGen)[k]? =
      if k = key then some (indexRecord index) else (st.dd st.ddGen)[k]? := fun k => by
    simp [ddRemember, getElem?_insert, eq_comm (a := key)]
  have hold : ∀ k : Bytes,
      ((st.ddRemember key index).dd (!st.ddGen))[k]? = (st.dd (!st.ddGen))[k]? :=
    fun k => by simp [ddRemember]
  simp only [memoryOf, Memory.remember, ddRemember, setDd_ddGen, setDd_ddRotatedMs,
    Memory.mk.injEq, and_true]
  refine ⟨funext fun k => ?_, funext fun k => ?_⟩
  · rw [Function.update_apply]
    exact hcur k
  · exact hold k

/-- Rotating the trees is rotating the memory. -/
theorem memoryOf_dedupRotate {st : Store} {now : ℕ} (hle : st.ddRotatedMs ≤ now)
    (hnow : now < 2 ^ 64) :
    (st.dedupRotate now).memoryOf =
      st.memoryOf.rotate st.bjmDedupWindow (u64 (2 * st.bjmDedupWindow)) now := by
  have hel : u64Sub now st.ddRotatedMs = now - st.ddRotatedMs := u64Sub_of_le hle hnow
  have hrot : st.memoryOf.rotated = st.ddRotatedMs := rfl
  simp only [dedupRotate, Memory.rotate, hel, hrot]
  split
  · rfl
  · by_cases hclear : u64 (2 * st.bjmDedupWindow) ≤ now - st.ddRotatedMs
    · simp only [ge_iff_le, hclear, if_true]
      rfl
    · simp only [ge_iff_le, hclear, if_false]
      cases hg : st.ddGen <;> simp [memoryOf, ddStateSave, dd, setDd, hg]

theorem marksKey_ne (subject : Bytes) : policyKey (ascii "m") subject ≠ some ddStateKey := by
  intro h
  have hhead := (List.cons.inj (boundedKey_eq h)).1
  exact absurd hhead (by decide)

/-- What a call on the index leaves of everything else. -/
structure DedupOnly (st st' : Store) : Prop where
  same : st' = { st with
    dd0 := st'.dd0
    dd1 := st'.dd1
    policy := st'.policy
    policyOpen := st'.policyOpen
    ddOpen := st'.ddOpen
    ddGen := st'.ddGen
    ddRotatedMs := st'.ddRotatedMs }
  others : ∀ k, k ≠ ddStateKey → st'.policy[k]? = st.policy[k]?

namespace DedupOnly

variable {st st' st'' : Store}

theorem refl : DedupOnly st st := ⟨rfl, fun _ _ => rfl⟩

theorem trans (h : DedupOnly st st') (h' : DedupOnly st' st'') : DedupOnly st st'' := by
  refine ⟨?_, fun k hk => (h'.others k hk).trans (h.others k hk)⟩
  rw [h'.same, h.same]

theorem logs_eq (h : DedupOnly st st') : st'.logs = st.logs := by rw [h.same]
theorem cursors_eq (h : DedupOnly st st') : st'.cursors = st.cursors := by rw [h.same]
theorem queues_eq (h : DedupOnly st st') : st'.queues = st.queues := by rw [h.same]
theorem push_eq (h : DedupOnly st st') : st'.push = st.push := by rw [h.same]

theorem window_eq (h : DedupOnly st st') : st'.bjmDedupWindow = st.bjmDedupWindow := by
  rw [h.same]
  rfl

theorem setDd (gen : Bool) (t : Tree) : DedupOnly st (st.setDd gen t) := by
  cases gen <;> exact ⟨rfl, fun _ _ => rfl⟩

theorem ddStateSave : DedupOnly st st.ddStateSave :=
  ⟨rfl, fun k hk => by simp [Store.ddStateSave, getElem?_insert, Ne.symm hk]⟩

theorem dedupOpen (now : ℕ) : DedupOnly st (st.dedupOpen now) := by
  have hrec : DedupOnly st ({ st with policyOpen := true }.ddRecover) := by
    simp only [ddRecover]
    split
    · exact ⟨rfl, fun _ _ => rfl⟩
    · split <;> exact ⟨rfl, fun _ _ => rfl⟩
  simp only [Store.dedupOpen]
  split
  · exact .refl
  · split
    · have hstamp : DedupOnly ({ st with policyOpen := true } : Store).ddRecover
          { ({ st with policyOpen := true } : Store).ddRecover with
            ddRotatedMs := now
            ddOpen := true } := ⟨rfl, fun _ _ => rfl⟩
      exact hrec.trans (hstamp.trans .ddStateSave)
    · exact hrec.trans ⟨rfl, fun _ _ => rfl⟩

theorem dedupRotate (now : ℕ) : DedupOnly st (st.dedupRotate now) := by
  simp only [Store.dedupRotate]
  split
  · exact .refl
  · refine trans ?_ .ddStateSave
    split
    · refine ((setDd false ∅).trans (setDd true ∅)).trans ⟨rfl, fun _ _ => rfl⟩
    · exact (setDd _ ∅).trans ⟨rfl, fun _ _ => rfl⟩

theorem ddRemember (key : Bytes) (index : ℕ) : DedupOnly st (st.ddRemember key index) :=
  setDd _ _

end DedupOnly

/-- Everything a lookup can answer and leave. -/
theorem bjmDedupLookup_cases (st : Store) (now : ℕ) {subject id key : Bytes}
    (hkey : dedupKey subject id = some key) :
    let st₁ := (st.dedupOpen now).dedupRotate now
    (∃ e r, st.bjmDedupLookup now subject id = (.error e, st₁) ∧
      (st₁.memoryOf.cur key = some r ∨ st₁.memoryOf.old key = some r) ∧
      decodeIndex r = .error e) ∨
    (st.bjmDedupLookup now subject id = (.ok none, st₁) ∧
      st₁.memoryOf.cur key = none ∧ st₁.memoryOf.old key = none) ∨
    (∃ r index, st.bjmDedupLookup now subject id = (.ok (some index), st₁) ∧
      st₁.memoryOf.cur key = some r ∧ decodeIndex r = .ok index) ∨
    (∃ r index, st.bjmDedupLookup now subject id =
        (.ok (some index), st₁.ddRemember key index) ∧
      st₁.memoryOf.cur key = none ∧ st₁.memoryOf.old key = some r ∧ decodeIndex r = .ok index) := by
  simp only [bjmDedupLookup, hkey, memoryOf]
  generalize (st.dedupOpen now).dedupRotate now = st₁
  cases hcur : (st₁.dd st₁.ddGen)[key]? with
  | some r =>
    cases hd : decodeIndex r with
    | error e => exact .inl ⟨e, r, by simp [hd, Except.map], .inl rfl, hd⟩
    | ok index => exact .inr (.inr (.inl ⟨r, index, by simp [hd, Except.map], rfl, hd⟩))
  | none =>
    cases hold : (st₁.dd (!st₁.ddGen))[key]? with
    | none => exact .inr (.inl ⟨by simp, rfl, rfl⟩)
    | some r =>
      cases hd : decodeIndex r with
      | error e => exact .inl ⟨e, r, by simp [hd], .inr rfl, hd⟩
      | ok index => exact .inr (.inr (.inr ⟨r, index, by simp [hd], rfl, rfl, hd⟩))

theorem bjmDedupLookup_dedupOnly (st : Store) (now : ℕ) (subject id : Bytes) :
    DedupOnly st (st.bjmDedupLookup now subject id).2 := by
  have hrot : DedupOnly st ((st.dedupOpen now).dedupRotate now) :=
    (DedupOnly.dedupOpen now).trans (DedupOnly.dedupRotate now)
  cases hkey : dedupKey subject id with
  | none =>
    simp only [bjmDedupLookup, hkey]
    exact hrot
  | some key =>
    rcases bjmDedupLookup_cases st now hkey with ⟨e, r, h, -⟩ | ⟨h, -⟩ | ⟨r, n, h, -⟩ | ⟨r, n, h, -⟩ <;>
      rw [h]
    · exact hrot
    · exact hrot
    · exact hrot
    · exact hrot.trans (DedupOnly.ddRemember key n)

theorem bjmDedupRecord_dedupOnly (st : Store) (now : ℕ) (subject id : Bytes) (index : ℕ) :
    DedupOnly st (st.bjmDedupRecord now subject id index).2 := by
  simp only [bjmDedupRecord]
  split
  · exact .dedupOpen now
  · exact (DedupOnly.dedupOpen now).trans (.ddRemember _ _)

@[simp] theorem dedupRotate_ddOpen (st : Store) (now : ℕ) :
    (st.dedupRotate now).ddOpen = st.ddOpen := by
  simp only [dedupRotate]
  split
  · rfl
  · split <;> cases st.ddGen <;> rfl

@[simp] theorem ddRemember_ddOpen (st : Store) (key : Bytes) (index : ℕ) :
    (st.ddRemember key index).ddOpen = st.ddOpen := by
  simp only [ddRemember, setDd]
  split <;> rfl

@[simp] theorem ddRemember_ddRotatedMs (st : Store) (key : Bytes) (index : ℕ) :
    (st.ddRemember key index).ddRotatedMs = st.ddRotatedMs := by
  simp only [ddRemember, setDd]
  split <;> rfl

@[simp] theorem ddRemember_ddGen (st : Store) (key : Bytes) (index : ℕ) :
    (st.ddRemember key index).ddGen = st.ddGen := by simp [ddRemember]

@[simp] theorem ddRemember_policy (st : Store) (key : Bytes) (index : ℕ) :
    (st.ddRemember key index).policy = st.policy := by
  simp only [ddRemember, setDd]
  split <;> rfl

theorem dedupOpen_of_open {st : Store} (h : st.ddOpen = true) (now : ℕ) : st.dedupOpen now = st := by
  simp [dedupOpen, h]

@[simp] theorem dedupOpen_ddOpen (st : Store) (now : ℕ) : (st.dedupOpen now).ddOpen = true := by
  simp only [dedupOpen]
  split
  · assumption
  · split <;> rfl

theorem bjmDedupLookup_opened (st : Store) (now : ℕ) (subject id : Bytes) :
    (st.dedupOpen now).bjmDedupLookup now subject id = st.bjmDedupLookup now subject id := by
  simp only [bjmDedupLookup, dedupOpen_of_open (dedupOpen_ddOpen st now)]

/-- A store whose dedup index has never been used. -/
structure DedupFresh (st : Store) : Prop where
  dd0 : st.dd0 = ∅
  dd1 : st.dd1 = ∅
  closed : st.ddOpen = false
  unsaved : st.policy[ddStateKey]? = none
  rotated : st.ddRotatedMs = 0

/-- The index holds a memory, be it open or only in its files. -/
structure SavedAs (st : Store) (m : Memory Bytes Record) : Prop where
  files : ∃ gen, st.policy[ddStateKey]? = some (ddStateRecord gen m.rotated) ∧
    (∀ k, m.cur k = (st.dd gen)[k]?) ∧ (∀ k, m.old k = (st.dd (!gen))[k]?) ∧
    (st.ddOpen = true → st.ddGen = gen ∧ st.ddRotatedMs = m.rotated)
  pos : 0 < m.rotated
  lt : m.rotated < 2 ^ 53

/-- The saved state reads back as it was written. -/
theorem decode_ddStateRecord {gen : Bool} {n : ℕ} (h : Carried n) :
    bjDecode ddVisit (ddStateRecord gen n) ⟨[], 0, 0⟩ =
      .ok ⟨ascii "rotated_ms", if gen then 1 else 0, n⟩ := by
  have hread : Readable (ddStateRecord gen n) := by
    intro it hit
    simp only [ddStateRecord, List.mem_cons, List.not_mem_nil, or_false] at hit
    rcases hit with rfl | rfl | rfl | rfl | rfl | rfl
    · trivial
    · trivial
    · cases gen <;> decide
    · trivial
    · exact h.safe
    · trivial
  have hfold : (ddStateRecord gen n).foldl ddVisit ⟨[], 0, 0⟩ =
      ⟨ascii "rotated_ms", ofDouble (if gen then 1 else 0), ofDouble (toInt64 n)⟩ := rfl
  rw [bjDecode_of_readable _ hread, hfold, h.back]
  cases gen <;> rfl

namespace SavedAs

variable {st st' : Store} {m : Memory Bytes Record} {now : ℕ}

theorem memoryOf_eq (h : SavedAs st m) (ho : st.ddOpen = true) : st.memoryOf = m := by
  obtain ⟨gen, -, hcur, hold, hopen⟩ := h.files
  obtain ⟨hg, hr⟩ := hopen ho
  subst hg
  cases m
  simp only [memoryOf, Memory.mk.injEq]
  exact ⟨funext fun k => (hcur k).symm, funext fun k => (hold k).symm, hr⟩

/-- What is outside the index may change freely. -/
theorem congr (h : SavedAs st m) (hdd : ∀ gen, st'.dd gen = st.dd gen)
    (hp : st'.policy[ddStateKey]? = st.policy[ddStateKey]?)
    (ho : st'.ddOpen = true → st.ddOpen = true ∧ st'.ddGen = st.ddGen ∧
      st'.ddRotatedMs = st.ddRotatedMs) : SavedAs st' m := by
  obtain ⟨gen, hsaved, hcur, hold, hopen⟩ := h.files
  refine ⟨⟨gen, hp.trans hsaved, fun k => by rw [hdd]; exact hcur k,
    fun k => by rw [hdd]; exact hold k, fun h' => ?_⟩, h.pos, h.lt⟩
  obtain ⟨ho', hg, hr⟩ := ho h'
  rw [hg, hr]
  exact hopen ho'

/-- Opening recovers the memory, whatever was volatile. -/
theorem dedupOpen (h : SavedAs st m) : SavedAs (st.dedupOpen now) m := by
  obtain ⟨gen, hsaved, hcur, hold, hopen⟩ := h.files
  cases ho : st.ddOpen with
  | true => rwa [dedupOpen_of_open ho]
  | false =>
    have hgen : ((if gen then 1 else 0 : ℕ) != 0) = gen := by cases gen <;> rfl
    have hne : m.rotated ≠ 0 := Nat.pos_iff_ne_zero.mp h.pos
    have heq : st.dedupOpen now = { st with
        policyOpen := true, ddGen := gen, ddRotatedMs := m.rotated, ddOpen := true } := by
      simp only [Store.dedupOpen, ho, Bool.false_eq_true, if_false, ddRecover, hsaved,
        decode_ddStateRecord (.of_lt h.lt), hgen, hne]
    rw [heq]
    exact ⟨⟨gen, hsaved, hcur, hold, fun _ => ⟨rfl, rfl⟩⟩, h.pos, h.lt⟩

theorem of_memoryOf (hs : st.policy[ddStateKey]? = some (ddStateRecord st.ddGen st.ddRotatedMs))
    (hpos : 0 < st.ddRotatedMs) (hlt : st.ddRotatedMs < 2 ^ 53) : SavedAs st st.memoryOf :=
  ⟨⟨st.ddGen, hs, fun _ => rfl, fun _ => rfl, fun _ => ⟨rfl, rfl⟩⟩, hpos, hlt⟩

theorem ddStateSave (hpos : 0 < st.ddRotatedMs) (hlt : st.ddRotatedMs < 2 ^ 53) :
    SavedAs st.ddStateSave st.memoryOf := by
  have hs : st.ddStateSave.policy[ddStateKey]? = some (ddStateRecord st.ddGen st.ddRotatedMs) := by
    simp [Store.ddStateSave]
  have h : SavedAs st.ddStateSave st.ddStateSave.memoryOf := of_memoryOf hs hpos hlt
  exact h

/-- A rotation saves what it rotated to. -/
theorem dedupRotate (h : SavedAs st m) (ho : st.ddOpen = true) (hle : m.rotated ≤ now)
    (hpos : 0 < now) (hlt : now < 2 ^ 53) :
    SavedAs (st.dedupRotate now)
      (m.rotate st.bjmDedupWindow (u64 (2 * st.bjmDedupWindow)) now) := by
  have hm := h.memoryOf_eq ho
  have hrot : st.ddRotatedMs = m.rotated := by rw [← hm]; rfl
  have hmem : (st.dedupRotate now).memoryOf =
      st.memoryOf.rotate st.bjmDedupWindow (u64 (2 * st.bjmDedupWindow)) now :=
    memoryOf_dedupRotate (by omega) (by omega)
  rw [hm] at hmem
  rw [← hmem]
  by_cases hel : u64Sub now st.ddRotatedMs < st.bjmDedupWindow
  · have hsame : st.dedupRotate now = st := by simp [Store.dedupRotate, hel]
    rw [hsame, hm]
    exact h
  · have hsave : ∃ st₁ : Store, st.dedupRotate now = st₁.ddStateSave ∧ st₁.ddRotatedMs = now := by
      simp only [Store.dedupRotate, hel, if_false]
      exact ⟨_, rfl, rfl⟩
    obtain ⟨st₁, heq, hr⟩ := hsave
    have hsv : SavedAs st₁.ddStateSave st₁.memoryOf := ddStateSave (by omega) (by omega)
    rw [heq]
    exact hsv

theorem ddRemember (h : SavedAs st m) (ho : st.ddOpen = true) (key : Bytes) (index : ℕ) :
    SavedAs (st.ddRemember key index) (m.remember key (indexRecord index)) := by
  obtain ⟨gen, hsaved, -, -, hopen⟩ := h.files
  obtain ⟨hg, hr⟩ := hopen ho
  rw [← h.memoryOf_eq ho, ← memoryOf_ddRemember]
  apply of_memoryOf
  · simp [hsaved, hg, hr]
  · rw [ddRemember_ddRotatedMs, hr]
    exact h.pos
  · rw [ddRemember_ddRotatedMs, hr]
    exact h.lt

end SavedAs

/-- Opening a fresh index begins an empty generation. -/
theorem dedupOpen_of_fresh {st : Store} (h : DedupFresh st) (now : ℕ) :
    (st.dedupOpen now).memoryOf = ⟨fun _ => none, fun _ => none, now⟩ ∧
      (0 < now → now < 2 ^ 53 → SavedAs (st.dedupOpen now) (st.dedupOpen now).memoryOf) := by
  have hdd : ∀ gen, st.dd gen = ∅ := fun gen => by cases gen <;> simp [dd, h.dd0, h.dd1]
  have hopen : st.dedupOpen now = { st with
      policyOpen := true, ddRotatedMs := now, ddOpen := true }.ddStateSave := by
    simp only [dedupOpen, h.closed, Bool.false_eq_true, if_false, ddRecover, h.unsaved, h.rotated,
      if_true]
  rw [hopen]
  refine ⟨?_, fun hpos hlt => SavedAs.ddStateSave hpos hlt⟩
  change (⟨fun k => (st.dd st.ddGen)[k]?, fun k => (st.dd (!st.ddGen))[k]?, now⟩ :
    Memory Bytes Record) = _
  simp [hdd]

/-- Every value of the memory is an index within the codec's range. -/
def GoodValues (m : Memory Bytes Record) : Prop :=
  ∀ k r, m.cur k = some r ∨ m.old k = some r → ∃ n, n < 2 ^ 53 ∧ r = indexRecord n

/-- A lookup in the store is a lookup in its memory. -/
theorem bjmDedupLookup_refines {st : Store} {m : Memory Bytes Record} {now : ℕ}
    {subject id key : Bytes} (h : SavedAs st m) (ho : st.ddOpen = true) (hgood : GoodValues m)
    (hle : m.rotated ≤ now) (hpos : 0 < now) (hlt : now < 2 ^ 53)
    (hkey : dedupKey subject id = some key) :
    let l := m.lookup st.bjmDedupWindow (u64 (2 * st.bjmDedupWindow)) now key
    SavedAs (st.bjmDedupLookup now subject id).2 l.2 ∧
      (st.bjmDedupLookup now subject id).2.ddOpen = true ∧
      ((l.1 = none ∧ (st.bjmDedupLookup now subject id).1 = .ok none) ∨
        ∃ n, n < 2 ^ 53 ∧ l.1 = some (indexRecord n) ∧
          (st.bjmDedupLookup now subject id).1 = .ok (some n)) := by
  have hrot := h.dedupRotate ho hle hpos hlt
  have hopen : (st.dedupRotate now).ddOpen = true := by simpa using ho
  have hm := hrot.memoryOf_eq hopen
  have hgood' : GoodValues (m.rotate st.bjmDedupWindow (u64 (2 * st.bjmDedupWindow)) now) :=
    fun k r hkr => hgood k r (Memory.rotate_sub hkr)
  have hcases := bjmDedupLookup_cases st now hkey
  simp only [dedupOpen_of_open ho, hm] at hcases
  simp only [Memory.lookup]
  generalize m.rotate st.bjmDedupWindow (u64 (2 * st.bjmDedupWindow)) now = m' at *
  rcases hcases with ⟨e, r, hl, hin, hd⟩ | ⟨hl, hcur, hold⟩ | ⟨r, n, hl, hcur, hd⟩ |
    ⟨r, n, hl, hcur, hold, hd⟩
  · obtain ⟨n, hn, rfl⟩ := hgood' key r hin
    rw [decodeIndex_indexRecord hn] at hd
    contradiction
  · rw [hl, hcur, hold]
    exact ⟨hrot, hopen, .inl ⟨rfl, rfl⟩⟩
  · obtain ⟨n', hn, rfl⟩ := hgood' key r (.inl hcur)
    rw [decodeIndex_indexRecord hn] at hd
    obtain rfl := Except.ok.inj hd
    rw [hl, hcur]
    exact ⟨hrot, hopen, .inr ⟨n', hn, rfl, rfl⟩⟩
  · obtain ⟨n', hn, rfl⟩ := hgood' key r (.inr hold)
    rw [decodeIndex_indexRecord hn] at hd
    obtain rfl := Except.ok.inj hd
    rw [hl, hcur, hold]
    exact ⟨hrot.ddRemember hopen key n', by simpa using hopen, .inr ⟨n', hn, rfl, rfl⟩⟩

end Store

end SukkalMsg
