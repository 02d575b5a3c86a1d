import SukkalMsg.Binjson
import SukkalMsg.OrderedScan

/-!
# The store: logs, trees and the publish path

A store is a directory of subject logs and a handful of ordered trees. A log
numbers its messages from `base + 1` on and never renumbers them. Everything a
running broker keeps outside the files is volatile: the policy cached with an
open subject, which trees are open, and the dedup generation it works in.

A call is given the one clock reading it makes. Notifying the delivery engine of
an append is left to the caller of the call that appended.
-/

namespace SukkalMsg

open Std Binjson OrderedScan

structure Entry where
  type : ℤ
  payload : Bytes
  deriving DecidableEq

def BJM_ENTRY_PLAIN : ℤ := 0x01
def BJM_ENTRY_ENVELOPE : ℤ := 0x10

/-- One subject's entry log. -/
structure Elog where
  base : ℕ
  entries : List Entry
  deriving DecidableEq

namespace Elog

def last (log : Elog) : ℕ := log.base + log.entries.length

def get (log : Elog) (index : ℕ) : Option Entry :=
  if index ≤ log.base then none else log.entries[index - log.base - 1]?

def append (log : Elog) (e : Entry) : Elog := { log with entries := log.entries ++ [e] }

def compact (log : Elog) (newBase : ℕ) : Elog :=
  ⟨newBase, log.entries.drop (newBase - log.base)⟩

@[simp] theorem append_base (log : Elog) (e : Entry) : (log.append e).base = log.base := rfl

@[simp] theorem append_last (log : Elog) (e : Entry) : (log.append e).last = log.last + 1 := by
  simp [last, append, Nat.add_assoc]

theorem get_append {log : Elog} {e : Entry} {i : ℕ} (h : i ≤ log.last) :
    (log.append e).get i = log.get i := by
  by_cases hi : i ≤ log.base
  · simp [get, append, hi]
  · simp only [last] at h
    simp only [get, append, hi, if_false]
    exact List.getElem?_append_left (by omega)

@[simp] theorem get_append_self (log : Elog) (e : Entry) :
    (log.append e).get (log.last + 1) = some e := by
  have h : ¬ log.base + log.entries.length + 1 ≤ log.base := by omega
  have hi : log.base + log.entries.length + 1 - log.base - 1 = log.entries.length := by omega
  simp only [get, append, last, h, if_false, hi, List.getElem?_concat_length]

/-- A log holds exactly the indexes above its base up to its last. -/
theorem get_isSome_iff {log : Elog} {i : ℕ} :
    (log.get i).isSome = true ↔ log.base < i ∧ i ≤ log.last := by
  by_cases hi : i ≤ log.base
  · have hb : ¬ log.base < i := by omega
    simp only [get, hi, if_true, Option.isSome_none, Bool.false_eq_true, hb, false_and]
  · simp only [get, hi, if_false, last, isSome_getElem?]
    omega

theorem compact_last {log : Elog} {n : ℕ} (hb : log.base ≤ n) (hl : n ≤ log.last) :
    (log.compact n).last = log.last := by
  simp only [last, compact, List.length_drop] at *
  omega

theorem get_compact {log : Elog} {n i : ℕ} (hb : log.base ≤ n) (hi : n < i) :
    (log.compact n).get i = log.get i := by
  have hni : ¬ i ≤ n := by omega
  have hbi : ¬ i ≤ log.base := by omega
  have hidx : n - log.base + (i - n - 1) = i - log.base - 1 := by omega
  simp [get, compact, hni, hbi, List.getElem?_drop, hidx]

end Elog

/-- A subject's retention policy. -/
structure Policy where
  maxAgeS : ℕ
  maxMessages : ℕ
  maxBytes : ℕ
  ignoreConsumers : Bool
  deriving DecidableEq

/-- What is kept with an open subject beside its log. -/
structure Subject where
  pol : Policy
  polLoaded : Bool
  lastMarkT : ℕ
  deriving DecidableEq

def Policy.zero : Policy := ⟨0, 0, 0, false⟩
def Subject.opened : Subject := ⟨.zero, false, 0⟩

abbrev Tree := ExtTreeMap Bytes Record

structure Store where
  logs : ExtTreeMap Bytes Elog
  cursors : Tree
  policy : Tree
  queues : Tree
  push : Tree
  dd0 : Tree
  dd1 : Tree
  /-- The host supplied an atomic replace. -/
  adopt : Bool
  /-- Subjects opened so far; one that is missing is as if just opened. -/
  subs : ExtTreeMap Bytes Subject
  policyOpen : Bool
  ddOpen : Bool
  ddGen : Bool
  ddRotatedMs : ℕ
  ddWindowMs : ℕ

/-- The libraries underneath the store, where their contract leaves a choice. -/
structure Vendor where
  /-- The bytes `bj_builder_data` returns for a record. -/
  encode : Record → Bytes
  /-- The callbacks `bj_decode` makes for some bytes, `none` when it fails. -/
  callbacks : Bytes → Option (List Callback)
  /-- How many bytes the first value of a buffer takes. -/
  valueSize : Bytes → Option ℕ
  /-- How many entries `elog_get_batch` packs from an index into a byte budget. -/
  batchCount : Elog → ℕ → ℕ → ℕ
  /-- `elog_file_len`. -/
  fileLen : Elog → ℕ
  /-- What is read where a name stood, once the table it stood in has been moved. -/
  stale : Store → Bytes → Bytes := fun _ name => name

/-- Libraries that pack and find nothing, for runs where their answers play no part. -/
def Vendor.silent : Vendor where
  encode := fun _ => []
  callbacks := fun _ => none
  valueSize := fun _ => none
  batchCount := fun _ _ _ => 0
  fileLen := fun _ => 0

def Store.empty : Store where
  logs := ∅
  cursors := ∅
  policy := ∅
  queues := ∅
  push := ∅
  dd0 := ∅
  dd1 := ∅
  adopt := true
  subs := ∅
  policyOpen := false
  ddOpen := false
  ddGen := false
  ddRotatedMs := 0
  ddWindowMs := 0

namespace Store

open Names

def SUBJECT_SUFFIX : Bytes := ascii ".elog"

/-- The log's file name fits the buffer it is printed into. -/
def fileFits (name : Bytes) : Bool :=
  (name ++ SUBJECT_SUFFIX).length < BJM_SUBJECT_MAX + (SUBJECT_SUFFIX.length + 1)

/-- Find a subject's log; only a publish may create it. -/
def subjectGet (st : Store) (name : Bytes) (create : Bool) : Except BjErr Elog :=
  if !fileFits name then .error .range
  else match st.logs[name]? with
    | some log => .ok log
    | none => if create then .ok ⟨0, []⟩ else .error .state

/-- A key as a visitor keeps it: cut to its buffer, and to the first zero byte. -/
def keyBuf (cap : ℕ) (k : Bytes) : Bytes := (k.take (cap - 1)).takeWhile (· != 0)

def policyKey (kind : Bytes) (subject : Bytes) : Option Bytes :=
  boundedKey (BJM_SUBJECT_MAX + 4) kind subject

structure PolGrab where
  key : Bytes
  p : Policy

/-- `pol_key`, `pol_int` and `pol_bool`. -/
def polVisit (g : PolGrab) : Item → PolGrab
  | .key k => { g with key := keyBuf 32 k }
  | .int v =>
    if g.key = ascii "max_age_s" then { g with p.maxAgeS := ofDouble v }
    else if g.key = ascii "max_messages" then { g with p.maxMessages := ofDouble v }
    else if g.key = ascii "max_bytes" then { g with p.maxBytes := ofDouble v }
    else g
  | .bool b => if g.key = ascii "ignore_consumers" then { g with p.ignoreConsumers := b } else g
  | _ => g

def policyDecode (r : Record) : Except BjErr Policy :=
  (bjDecode polVisit r ⟨[], .zero⟩).map PolGrab.p

/-- The policy of a subject, or the all-zero one when there is none. -/
def bjmPolicyGet (st : Store) (subject : Bytes) : Except BjErr (Bool × Policy) :=
  match policyKey (ascii "p") subject with
  | none => .error .range
  | some key => match st.policy[key]? with
    | none => .ok (false, .zero)
    | some r => (policyDecode r).map (true, ·)

def BJM_MARKS_MAX : ℕ := 256
def BJM_MARKS_PER_WINDOW : ℕ := 128

/-- `mark_int`: index, time, index, time, and nothing past the ring's end. -/
def markVisit (m : List ℕ) : Item → List ℕ
  | .int v => if m.length < BJM_MARKS_MAX * 2 then m ++ [ofDouble v] else m
  | _ => m

def marksLoad (st : Store) (subject : Bytes) : Except BjErr (List ℕ) :=
  match policyKey (ascii "m") subject with
  | none => .error .range
  | some key => match st.policy[key]? with
    | none => .ok []
    | some r => bjDecode markVisit r []

def marksRecord (m : List ℕ) : Record := .beginArray :: m.map putInt ++ [.endArray]

def marksStore (st : Store) (subject : Bytes) (m : List ℕ) : Except BjErr Store :=
  match policyKey (ascii "m") subject with
  | none => .error .range
  | some key => .ok { st with policy := st.policy.insert key (marksRecord m) }

def openSubject (st : Store) (name : Bytes) : Subject := st.subs.getD name .opened

def setSubject (st : Store) (name : Bytes) (s : Subject) : Store :=
  { st with subs := st.subs.insert name s }

/-- The mark itself, once a policy asks for one. -/
def markSubject (st : Store) (now : ℕ) (name : Bytes) (s : Subject) (index : ℕ) : Store :=
  if s.pol.maxAgeS = 0 then st
  else
    let nowS := now / 1000
    let interval := max 1 (s.pol.maxAgeS / BJM_MARKS_PER_WINDOW)
    if s.lastMarkT ≠ 0 ∧ u64Sub nowS s.lastMarkT < interval then st
    else match marksLoad st name with
      | .error _ => st
      | .ok m =>
        let m := if m.length + 2 > BJM_MARKS_MAX * 2 then m.drop 2 else m
        match marksStore st name (m ++ [index, nowS]) with
        | .error _ => st
        | .ok st => st.setSubject name { s with lastMarkT := nowS }

/-- Record when a message was published, if its subject has an age policy. -/
def markPublish (st : Store) (now : ℕ) (name : Bytes) (index : ℕ) : Store :=
  let s := st.openSubject name
  if s.polLoaded then st.markSubject now name s index
  else
    let st := { st with policyOpen := true }
    match st.bjmPolicyGet name with
    | .error _ => st
    | .ok (_, pol) =>
      let s := { s with pol := pol, polLoaded := true }
      (st.setSubject name s).markSubject now name s index

/-- The pairs `marks_prune` keeps; an odd one out goes. -/
def liveMarks (base : ℕ) : List ℕ → List ℕ
  | i :: t :: m => if i ≤ base then liveMarks base m else i :: t :: liveMarks base m
  | _ => []

/-- Forget marks that no longer name a live message. -/
def marksPrune (st : Store) (subject : Bytes) (base : ℕ) : Store :=
  match st.marksLoad subject with
  | .error _ => st
  | .ok m =>
    if (liveMarks base m).length = m.length then st
    else match st.marksStore subject (liveMarks base m) with
      | .error _ => st
      | .ok st => st

/-- Append one message and answer with its index. -/
def bjmPublish (st : Store) (now : ℕ) (name : Bytes) (e : Entry) : Except BjErr (ℕ × Store) :=
  match st.subjectGet name true with
  | .error err => .error err
  | .ok log =>
    let index := log.last + 1
    let st := { st with logs := st.logs.insert name (log.append e) }
    .ok (index, st.markPublish now name index)

/-- A batch from an index on: how many entries it packs, and the log's last index. -/
def bjmRead (V : Vendor) (st : Store) (name : Bytes) (fromIndex maxBytes : ℕ) :
    Except BjErr (ℕ × ℕ) :=
  match st.subjectGet name false with
  | .error err => .error err
  | .ok log =>
    let start := if fromIndex = 0 then 1 else fromIndex
    if start ≤ log.base then .error .range
    else .ok (min (V.batchCount log start maxBytes) (log.last + 1 - start), log.last)

def bjmLastIndex (st : Store) (name : Bytes) : ℕ :=
  match st.subjectGet name false with
  | .error _ => 0
  | .ok log => log.last

def bjmSubjectInfo (V : Vendor) (st : Store) (name : Bytes) : Except BjErr (ℕ × ℕ × ℕ) :=
  (st.subjectGet name false).map fun log => (log.base, log.last, V.fileLen log)

/-- A subject's log, empty before its first publish. -/
def logOf (st : Store) (name : Bytes) : Elog := (st.logs[name]?).getD ⟨0, []⟩

/-- Nothing but the policy tree, at the subject's own marks, and the open
subjects have changed. -/
structure MarksOnly (name : Bytes) (st st' : Store) : Prop where
  same : st' = { st with
    policy := st'.policy
    subs := st'.subs
    policyOpen := st'.policyOpen }
  others : ∀ k, policyKey (ascii "m") name ≠ some k → st'.policy[k]? = st.policy[k]?

namespace MarksOnly

variable {name : Bytes} {st st' st'' : Store}

theorem refl : MarksOnly name st st := ⟨rfl, fun _ _ => rfl⟩

theorem trans (h : MarksOnly name st st') (h' : MarksOnly name st' st'') :
    MarksOnly name st st'' := by
  refine ⟨?_, fun k hk => (h'.others k hk).trans (h.others k hk)⟩
  rw [h'.same, h.same]

theorem setSubject (s : Subject) : MarksOnly name st (st.setSubject name s) :=
  ⟨rfl, fun _ _ => rfl⟩

theorem marksStore {m : List ℕ} (h : st.marksStore name m = .ok st') :
    MarksOnly name st st' := by
  simp only [Store.marksStore] at h
  split at h
  · contradiction
  · rename_i key hkey
    obtain rfl := Except.ok.inj h
    refine ⟨rfl, fun k hk => ?_⟩
    have hne : key ≠ k := fun he => hk (by rw [hkey, he])
    simp [getElem?_insert, hne]

theorem logs_eq (h : MarksOnly name st st') : st'.logs = st.logs := by rw [h.same]
theorem cursors_eq (h : MarksOnly name st st') : st'.cursors = st.cursors := by rw [h.same]
theorem queues_eq (h : MarksOnly name st st') : st'.queues = st.queues := by rw [h.same]
theorem push_eq (h : MarksOnly name st st') : st'.push = st.push := by rw [h.same]

end MarksOnly

theorem markSubject_marksOnly (st : Store) (now : ℕ) (name : Bytes) (s : Subject) (index : ℕ) :
    MarksOnly name st (st.markSubject now name s index) := by
  simp only [markSubject]
  split
  · exact .refl
  split
  · exact .refl
  cases marksLoad st name with
  | error e => exact .refl
  | ok m =>
    dsimp only
    generalize (if m.length + 2 > BJM_MARKS_MAX * 2 then m.drop 2 else m) ++ _ = m'
    cases hm : marksStore st name m' with
    | error e => exact .refl
    | ok st' => exact (MarksOnly.marksStore hm).trans (.setSubject _)

/-- Marking touches the subject's marks and what is cached with it. -/
theorem markPublish_marksOnly (st : Store) (now : ℕ) (name : Bytes) (index : ℕ) :
    MarksOnly name st (st.markPublish now name index) := by
  have hopen : MarksOnly name st { st with policyOpen := true } := ⟨rfl, fun _ _ => rfl⟩
  simp only [markPublish]
  split
  · exact markSubject_marksOnly ..
  · split
    · exact hopen
    · exact (hopen.trans (.setSubject _)).trans (markSubject_marksOnly ..)

theorem marksPrune_marksOnly (st : Store) (name : Bytes) (base : ℕ) :
    MarksOnly name st (st.marksPrune name base) := by
  simp only [marksPrune]
  split
  · exact .refl
  split
  · exact .refl
  split
  · exact .refl
  · rename_i hm
    exact .marksStore hm

/-- A publish appends its entry to the one log and answers with its index. -/
theorem bjmPublish_eq {st st' : Store} {now index : ℕ} {name : Bytes} {e : Entry}
    (h : st.bjmPublish now name e = .ok (index, st')) :
    index = (st.logOf name).last + 1 ∧
      st'.logs = st.logs.insert name ((st.logOf name).append e) ∧
      MarksOnly name { st with logs := st'.logs } st' := by
  have hget : st.subjectGet name true = .ok (st.logOf name) ∨
      ∃ err, st.subjectGet name true = .error err := by
    simp only [subjectGet, logOf]
    split
    · exact .inr ⟨_, rfl⟩
    · cases st.logs[name]? <;> exact .inl rfl
  simp only [bjmPublish] at h
  rcases hget with hget | ⟨err, hget⟩
  · simp only [hget] at h
    obtain ⟨rfl, rfl⟩ := Prod.mk.inj (Except.ok.inj h)
    have hm := markPublish_marksOnly
      { st with logs := st.logs.insert name ((st.logOf name).append e) } now name
      ((st.logOf name).last + 1)
    refine ⟨rfl, hm.logs_eq, ?_⟩
    rw [hm.logs_eq]
    exact hm
  · simp [hget] at h

theorem logOf_insert {st : Store} {logs : ExtTreeMap Bytes Elog} {name other : Bytes}
    {log : Elog} (h : st.logs = logs.insert name log) :
    st.logOf other = if name = other then log else (logs[other]?).getD ⟨0, []⟩ := by
  simp only [logOf, h, getElem?_insert]
  split <;> rfl

theorem bjmPublish_ok (st : Store) (now : ℕ) {name : Bytes} (e : Entry)
    (h : fileFits name = true) : ∃ index st', st.bjmPublish now name e = .ok (index, st') := by
  simp only [bjmPublish, subjectGet, h, Bool.not_true, Bool.false_eq_true, if_false]
  cases st.logs[name]? <;> exact ⟨_, _, rfl⟩

theorem fileFits_of_valid {name : Bytes} (h : bjmSubjectValid name = true) :
    fileFits name = true := by
  have hl := nameValid_length h
  have hs : SUBJECT_SUFFIX.length = 5 := by decide
  simp only [fileFits, List.length_append, hs, decide_eq_true_eq]
  omega

end Store

end SukkalMsg
