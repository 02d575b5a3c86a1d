import SukkalMsg.Store

/-!
# Read receipts

A receipt is one integer per subject and consumer: the highest index the consumer
has acknowledged. It only moves forward until it is deleted.
-/

namespace SukkalMsg.Store

open Std Names Binjson OrderedScan

/-- `grab_int`: the first integer of a value. -/
def grabInt (g : Option ℕ) : Item → Option ℕ
  | .int v => if g.isSome then g else some (ofDouble v)
  | _ => g

def decodeIndex (r : Record) : Except BjErr ℕ :=
  match bjDecode grabInt r none with
  | .error e => .error e
  | .ok none => .error .verify
  | .ok (some n) => .ok n

def indexRecord (index : ℕ) : Record := [putInt index]

/-- The receipt, `none` when the consumer has none on the subject. -/
def bjmCursorGet (st : Store) (subject consumer : Bytes) : Except BjErr (Option ℕ) :=
  match cursorKey subject consumer with
  | none => .error .range
  | some key => match st.cursors[key]? with
    | none => .ok none
    | some r => (decodeIndex r).map some

/-- Move a receipt forward; a late acknowledgement is accepted and ignored. -/
def bjmCursorSet (st : Store) (subject consumer : Bytes) (index : ℕ) : Except BjErr Store :=
  match st.bjmCursorGet subject consumer with
  | .error e => .error e
  | .ok current =>
    if current.any (index ≤ ·) then .ok st
    else match cursorKey subject consumer with
      | none => .error .range
      | some key => .ok { st with cursors := st.cursors.insert key (indexRecord index) }

def bjmCursorDelete (st : Store) (subject consumer : Bytes) : Except BjErr (Bool × Store) :=
  match cursorKey subject consumer with
  | none => .error .range
  | some key =>
    if st.cursors.contains key then .ok (true, { st with cursors := st.cursors.erase key })
    else .ok (false, st)

/-- The key ends in `/` and the consumer, with a subject in front. -/
def heldBy (consumer key : Bytes) : Bool :=
  consumer.length + 1 < key.length && (slash :: consumer).isSuffixOf key

def bjmCursorDeleteConsumer (st : Store) (consumer : Bytes) : ℕ × Store :=
  ((st.cursors.filter fun k _ => heldBy consumer k).size,
    { st with cursors := st.cursors.filter fun k _ => !heldBy consumer k })

/-- The keys of one subject, from `"<subject>/"` to `"<subject>0"`. -/
def subjectRange (t : Tree) (subject : Bytes) : List (Bytes × Record) :=
  scan t (subject ++ [slash]) (subject ++ [0x30])

/-- The receipts a subject's range shows, those that do not decode left out. -/
def acks (st : Store) (subject : Bytes) : List ℕ :=
  (subjectRange st.cursors subject).filterMap fun p => (decodeIndex p.2).toOption

/-- How many consumers a subject has and how far the slowest has read. -/
def bjmConsumerStats (st : Store) (subject : Bytes) : ℕ × ℕ :=
  ((st.acks subject).length, (st.acks subject).foldl min UINT64_MAX)

/-- Where a stored receipt stands, whether or not the decoder still accepts it. -/
def receiptOf (st : Store) (subject consumer : Bytes) : ℕ :=
  ((st.cursors[pairKey subject consumer]?).bind (·.foldl grabInt none)).getD 0

@[simp] theorem foldl_grabInt_indexRecord (n : ℕ) :
    (indexRecord n).foldl grabInt none = some (ofDouble (toInt64 n)) := rfl

theorem readable_indexRecord {n : ℕ} (h : (putInt n).Safe) : Readable (indexRecord n) := by
  intro it hit
  obtain rfl := List.mem_singleton.mp hit
  exact h

theorem decodeIndex_eq (r : Record) (h : Readable r) :
    decodeIndex r = match r.foldl grabInt none with
      | none => .error .verify
      | some n => .ok n := by
  simp only [decodeIndex, bjDecode_of_readable _ h]
  cases r.foldl grabInt none <;> rfl

theorem decodeIndex_unreadable {r : Record} (h : ¬ Readable r) :
    decodeIndex r = .error .intRange := by
  simp [decodeIndex, bjDecode_of_unreadable _ h]

theorem foldl_of_decodeIndex {r : Record} {n : ℕ} (h : decodeIndex r = .ok n) :
    r.foldl grabInt none = some n := by
  by_cases hr : Readable r
  · rw [decodeIndex_eq r hr] at h
    cases hf : r.foldl grabInt none with
    | none => simp [hf] at h
    | some m =>
      simp only [hf] at h
      rw [Except.ok.inj h]
  · simp [decodeIndex_unreadable hr] at h

theorem decodeIndex_of_carried {n : ℕ} (h : Carried n) : decodeIndex (indexRecord n) = .ok n := by
  rw [decodeIndex_eq _ (readable_indexRecord h.safe), foldl_grabInt_indexRecord, h.back]

theorem decodeIndex_indexRecord {n : ℕ} (h : n < 2 ^ 53) : decodeIndex (indexRecord n) = .ok n :=
  decodeIndex_of_carried (.of_lt h)

theorem receiptOf_of_get {st : Store} {s c : Bytes} {n : ℕ}
    (h : st.bjmCursorGet s c = .ok (some n)) : st.receiptOf s c = n := by
  simp only [bjmCursorGet] at h
  split at h
  · contradiction
  · rename_i key hkey
    obtain rfl := boundedKey_eq hkey
    cases hr : st.cursors[pairKey s c]? with
    | none => simp [hr] at h
    | some r =>
      simp only [hr] at h
      cases hd : decodeIndex r with
      | error e => simp [hd, Except.map] at h
      | ok m =>
        simp only [hd, Except.map, Except.ok.injEq, Option.some.injEq] at h
        simp [receiptOf, hr, foldl_of_decodeIndex hd, h]

theorem receiptOf_of_get_none {st : Store} {s c : Bytes}
    (h : st.bjmCursorGet s c = .ok none) : st.receiptOf s c = 0 := by
  simp only [bjmCursorGet] at h
  split at h
  · contradiction
  · rename_i key hkey
    obtain rfl := boundedKey_eq hkey
    cases hr : st.cursors[pairKey s c]? with
    | none => simp [receiptOf, hr]
    | some r =>
      simp only [hr] at h
      cases hd : decodeIndex r <;> simp [hd, Except.map] at h

theorem bjmCursorSet_eq {st st' : Store} {s c : Bytes} {n : ℕ}
    (h : st.bjmCursorSet s c n = .ok st') :
    (st' = st ∧ n ≤ st.receiptOf s c) ∨
      (st' = { st with cursors := st.cursors.insert (pairKey s c) (indexRecord n) } ∧
        (st.bjmCursorGet s c = .ok none ∨
          st.bjmCursorGet s c = .ok (some (st.receiptOf s c)) ∧ st.receiptOf s c < n)) := by
  simp only [bjmCursorSet] at h
  split at h
  · contradiction
  · rename_i current hget
    split at h
    · rename_i hle
      cases current with
      | none => simp at hle
      | some m =>
        obtain rfl := Except.ok.inj h
        refine .inl ⟨rfl, ?_⟩
        rw [receiptOf_of_get hget]
        simpa using hle
    · rename_i hgt
      split at h
      · contradiction
      · rename_i key hkey
        obtain rfl := boundedKey_eq hkey
        obtain rfl := Except.ok.inj h
        refine .inr ⟨rfl, ?_⟩
        cases current with
        | none => exact .inl hget
        | some m =>
          rw [receiptOf_of_get hget]
          exact .inr ⟨hget, by simpa using hgt⟩

theorem receiptOf_insert {st : Store} {s c s' c' : Bytes} {n : ℕ} (hn : n < 2 ^ 64) :
    ({ st with cursors := st.cursors.insert (pairKey s c) (indexRecord n) } : Store).receiptOf s' c' =
      if pairKey s c = pairKey s' c' then n else st.receiptOf s' c' := by
  simp only [receiptOf, getElem?_insert]
  split
  · simp [ofDouble_toInt64 hn]
  · rfl

end SukkalMsg.Store
