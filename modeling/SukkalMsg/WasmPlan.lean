import SukkalMsg.Openings
import SukkalMsg.SplitLists

/-!
# The plan of a request

Where files cannot be opened at will, the host opens them before a request: `sukkal_plan`
names those the request may open, from its method and path alone, and marks the ones it
may create. The names are written one after the other, each with its mark and a zero, and
the host splits them again.
-/

namespace SukkalMsg

open Std Names Store

def plus : UInt8 := 0x2B
def minus : UInt8 := 0x2D

/-- The store's own files, which are made on first use. -/
def SHARED_FILES : List Bytes :=
  [ascii "_cursors.bpt", ascii "_policy.bpt", ascii "_queues.bpt",
    ascii "_dedup0.bpt", ascii "_dedup1.bpt", ascii "_push.bpt"]

def markOf (create : Bool) : UInt8 := if create then plus else minus

/-- `name_add`: a name that does not fit ends the plan. -/
def nameAdd (cap : ℕ) (out : Bytes) (o : Opening) : Option Bytes :=
  if out.length + (o.file.length + 2) > cap then none
  else some (out ++ markOf o.create :: o.file ++ [0])

/-- The subject of a path: what follows the slash behind its first byte, if it is one. -/
def planSubject (path : Bytes) : Option Bytes :=
  match (path.drop 1).dropWhile (· != slash) with
  | [] => none
  | _ :: subject => if subject ≠ [] ∧ bjmSubjectValid subject then some subject else none

section

variable (method path : Bytes)

/-- The routes that may bring the subject's log into being. -/
def planCreates : Bool :=
  method = POST && ((ascii "/pub/").isPrefixOf path || (ascii "/requeue/").isPrefixOf path)

def planMayDie : Bool :=
  method = POST && ((ascii "/fail/").isPrefixOf path || (ascii "/done/").isPrefixOf path)

def planReadsDead : Bool := (ascii "/dead/").isPrefixOf path || (ascii "/requeue/").isPrefixOf path

def planCompacts : Bool := method = POST && (ascii "/trim/").isPrefixOf path

def planFile (name : Bytes) : Bytes := cut (BJM_SUBJECT_MAX + 32) name

/-- The files of the subject that the route touches. -/
def subjectPlan (subject : Bytes) : List Opening :=
  ⟨planFile (subject ++ SUBJECT_SUFFIX), planCreates method path⟩ ::
    ((if planMayDie method path || planReadsDead path then
        [⟨planFile (subject ++ BJM_DEAD_SUFFIX ++ SUBJECT_SUFFIX), planMayDie method path⟩] else []) ++
      if planCompacts method path then
        [⟨planFile (subject ++ SUBJECT_SUFFIX ++ ascii ".tmp"), true⟩] else [])

/-- The names of a plan, in the order they are added. -/
def planned : List Opening :=
  SHARED_FILES.map (⟨·, true⟩) ++
    match planSubject path with
    | none => []
    | some subject => subjectPlan method path subject

/-- What a buffer of `cap` bytes holds; nothing, when the plan does not fit. -/
def sukkalPlan (cap : ℕ) : Bytes := ((planned method path).foldlM (nameAdd cap) []).getD []

/-- `splitNames`, of a text of single bytes. -/
def splitNames (u8 : Bytes) : List Bytes := (u8.splitOn 0).filter (· ≠ [])

def readPlanned (name : Bytes) : Opening := ⟨name.drop 1, name.head? = some plus⟩

/-- What the host of a broker opens before it makes the request. -/
def hostPlan : List Opening := (splitNames (sukkalPlan method path 4096)).map readPlanned

end

/-- A name the host reads as it was written: a text of no zero byte. -/
def Opening.Plain (o : Opening) : Prop := (0 : UInt8) ∉ o.file

theorem readPlanned_mark (o : Opening) : readPlanned (markOf o.create :: o.file) = o := by
  cases o with
  | mk file create => cases create <;> rfl

theorem foldlM_nameAdd {cap : ℕ} {os : List Opening} {out : Bytes}
    (h : out.length + (os.map fun o => o.file.length + 2).sum ≤ cap) :
    os.foldlM (nameAdd cap) out =
      some (out ++ os.flatMap fun o => markOf o.create :: o.file ++ [0]) := by
  induction os generalizing out with
  | nil => simp
  | cons o os ih =>
    simp only [List.map_cons, List.sum_cons] at h
    have hfits : ¬ out.length + (o.file.length + 2) > cap := by omega
    simp only [List.foldlM_cons, nameAdd, hfits, if_false, List.flatMap_cons]
    refine (ih ?_).trans ?_
    · simp only [List.length_append, List.length_cons, List.length_nil]
      omega
    · simp

theorem sum_lengths_le {os : List Opening} {n : ℕ} (h : ∀ o ∈ os, o.file.length ≤ n) :
    (os.map fun o => o.file.length + 2).sum ≤ os.length * (n + 2) := by
  induction os with
  | nil => simp
  | cons o os ih =>
    have hone := h o List.mem_cons_self
    have hrest := ih fun o ho => h o (List.mem_cons_of_mem _ ho)
    simp only [List.map_cons, List.sum_cons, List.length_cons, Nat.succ_mul]
    omega

theorem splitNames_cons {name rest : Bytes} (h0 : (0 : UInt8) ∉ name) (hne : name ≠ []) :
    splitNames (name ++ 0 :: rest) = name :: splitNames rest := by
  have hone : name.splitOn 0 = [name] := List.splitOn_eq_singleton h0
  simp only [splitNames, List.splitOn_append_cons_self, hone, List.filter_cons, hne,
    ne_eq, not_false_eq_true, decide_true, if_true, List.singleton_append]

theorem read_written {os : List Opening} (h : ∀ o ∈ os, o.Plain) :
    (splitNames (os.flatMap fun o => markOf o.create :: o.file ++ [0])).map readPlanned = os := by
  induction os with
  | nil => rfl
  | cons o os ih =>
    have hplain : (0 : UInt8) ∉ markOf o.create :: o.file := by
      rw [List.mem_cons, not_or]
      refine ⟨?_, h o List.mem_cons_self⟩
      cases o.create <;> decide
    simp only [List.flatMap_cons, List.append_assoc, List.singleton_append]
    rw [splitNames_cons hplain (by simp), List.map_cons, readPlanned_mark,
      ih fun o ho => h o (List.mem_cons_of_mem _ ho)]

section

variable {method path s : Bytes}

theorem planSubject_valid (h : planSubject path = some s) : bjmSubjectValid s = true := by
  simp only [planSubject] at h
  split at h
  · contradiction
  · split at h
    · rename_i hvalid
      obtain rfl := Option.some.inj h
      exact hvalid.2
    · contradiction

theorem planSubject_of_path {verb : Bytes} (hverb : slash ∉ verb) (hs : bjmSubjectValid s = true) :
    planSubject (slash :: verb ++ slash :: s) = some s := by
  have hdrop : (verb ++ slash :: s).dropWhile (· != slash) = slash :: s := by
    rw [List.dropWhile_append_of_pos fun c hc => ?_]
    · simp
    · have hne : c ≠ slash := fun he => hverb (he ▸ hc)
      simpa using hne
  have hne : s ≠ [] := by
    rintro rfl
    contradiction
  simp only [planSubject, List.cons_append, List.drop_succ_cons, List.drop_zero, hdrop, hne, hs,
    ne_eq, not_false_eq_true, and_self, if_true]

theorem subjectPlan_eq (hs : bjmSubjectValid s = true) : subjectPlan method path s =
    ⟨liveName s, planCreates method path⟩ ::
      ((if planMayDie method path || planReadsDead path then
        [⟨liveName (s ++ BJM_DEAD_SUFFIX), planMayDie method path⟩] else []) ++
      if planCompacts method path then [⟨tmpName s, true⟩] else []) := by
  have hlen := nameValid_length hs
  have hfile : ∀ tail : Bytes, tail.length < 30 → planFile (s ++ tail) = s ++ tail := by
    intro tail htail
    refine List.take_of_length_le ?_
    rw [List.length_append]
    simp only [BJM_SUBJECT_MAX] at hlen ⊢
    omega
  simp only [subjectPlan, liveName, tmpName, List.append_assoc]
  rw [hfile _ (by decide), hfile _ (by decide), hfile _ (by decide)]

theorem zero_notMem_of_valid (hs : bjmSubjectValid s = true) : (0 : UInt8) ∉ s := by
  intro hz
  have hchar := mem_of_nameBody (nameValid_body hs) 0 hz
  revert hchar
  decide

theorem plain_of_planned {o : Opening} (ho : o ∈ planned method path) :
    o.Plain ∧ o.file.length ≤ 142 := by
  simp only [planned, List.mem_append, List.mem_map] at ho
  rcases ho with ⟨name, hname, rfl⟩ | ho
  · have hshared : ∀ name ∈ SHARED_FILES, (0 : UInt8) ∉ name ∧ name.length ≤ 142 := by decide
    exact hshared name hname
  · cases hs : planSubject path with
    | none => simp [hs] at ho
    | some s =>
      have hvalid := planSubject_valid hs
      have hlen := nameValid_length hvalid
      have hzero := zero_notMem_of_valid hvalid
      have htail : ∀ tail ∈ [SUBJECT_SUFFIX, BJM_DEAD_SUFFIX ++ SUBJECT_SUFFIX,
          SUBJECT_SUFFIX ++ ascii ".tmp"], (0 : UInt8) ∉ tail ∧ tail.length ≤ 14 := by decide
      have hfile : ∃ tail ∈ [SUBJECT_SUFFIX, BJM_DEAD_SUFFIX ++ SUBJECT_SUFFIX,
          SUBJECT_SUFFIX ++ ascii ".tmp"], o.file = s ++ tail := by
        simp only [hs, subjectPlan_eq hvalid, List.mem_cons, List.mem_append] at ho
        rcases ho with rfl | ho | ho
        · exact ⟨_, List.mem_cons_self, rfl⟩
        · split at ho
          · obtain rfl := List.mem_singleton.mp ho
            exact ⟨_, by simp, List.append_assoc ..⟩
          · contradiction
        · split at ho
          · obtain rfl := List.mem_singleton.mp ho
            exact ⟨_, by simp, List.append_assoc ..⟩
          · contradiction
      obtain ⟨tail, hmem, hfile⟩ := hfile
      obtain ⟨hzero', hlen'⟩ := htail tail hmem
      refine ⟨?_, ?_⟩
      · rw [Opening.Plain, hfile, List.mem_append, not_or]
        exact ⟨hzero, hzero'⟩
      · simp only [BJM_SUBJECT_MAX] at hlen
        rw [hfile, List.length_append]
        omega

theorem length_planned : (planned method path).length ≤ 9 := by
  simp only [planned, List.length_append, List.length_map]
  have hshared : SHARED_FILES.length = 6 := rfl
  cases hs : planSubject path with
  | none => simp [hshared]
  | some s =>
    dsimp only
    rw [subjectPlan_eq (planSubject_valid hs), List.length_cons, List.length_append]
    split <;> split <;> simp [hshared]

theorem hostPlan_eq : hostPlan method path = planned method path := by
  have hsum := sum_lengths_le fun o (ho : o ∈ planned method path) => (plain_of_planned ho).2
  have hlen : (planned method path).length ≤ 9 := length_planned
  have hfits : ([] : Bytes).length +
      ((planned method path).map fun o => o.file.length + 2).sum ≤ 4096 := by
    simp only [List.length_nil]
    omega
  simp only [hostPlan, sukkalPlan, foldlM_nameAdd hfits, List.nil_append, Option.getD_some]
  exact read_written fun o ho => (plain_of_planned ho).1

end

end SukkalMsg
