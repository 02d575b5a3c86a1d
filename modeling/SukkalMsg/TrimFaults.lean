import SukkalMsg.StoreSteps

/-!
# A trim whose steps can fail

A trim writes the messages that stay to a temporary file and puts it in the place of
the log, which is closed by then and opened again. Each of the steps can fail. Here the
files have their names, the table of open subjects has its handles, and the outcome of
every step is given from outside.
-/

namespace SukkalMsg

open Std Names Binjson OrderedScan Store

/-- What a file holds: no bytes yet, a log, or a log cut short. -/
inductive Contents where
  | empty
  | log (l : Elog)
  | torn

def Contents.opened : Contents → Option Elog
  | .empty => some ⟨0, []⟩
  | .log l => some l
  | .torn => none

abbrev Files := Bytes → Option Contents

namespace Files

def put (files : Files) (name : Bytes) (c : Option Contents) : Files :=
  fun n => if n = name then c else files n

@[simp] theorem put_self (files : Files) (name : Bytes) (c : Option Contents) :
    files.put name c name = c := if_pos rfl

theorem put_same {files : Files} {name : Bytes} {c : Option Contents} (h : files name = c) :
    files.put name c = files := by
  funext n
  by_cases hn : n = name
  · rw [hn, h]
    exact if_pos rfl
  · exact if_neg hn

theorem put_of_ne (files : Files) {name n : Bytes} (c : Option Contents) (h : n ≠ name) :
    files.put name c n = files n := if_neg h

def remove (files : Files) (works : Bool) (name : Bytes) : Files :=
  if works then files.put name none else files

/-- `posix_adopt`: one file takes the place of another, in one step or not at all. -/
def posixAdopt (files : Files) (renamed : Bool) (src dst : Bytes) : Except BjErr Files :=
  if src.length ≥ BJM_SUBJECT_MAX + 32 ∨ dst.length ≥ BJM_SUBJECT_MAX + 32 then .error .range
  else if renamed then .ok ((files.put dst (files src)).put src none)
  else .error .state

end Files

def liveName (subject : Bytes) : Bytes := subject ++ SUBJECT_SUFFIX
def tmpName (subject : Bytes) : Bytes := liveName subject ++ ascii ".tmp"

theorem liveName_injective {s t : Bytes} (h : liveName s = liveName t) : s = t :=
  List.append_cancel_right h

theorem liveName_ne_tmpName (s t : Bytes) : liveName s ≠ tmpName t := by
  intro h
  have hlast := congrArg List.getLast? h
  simp only [liveName, tmpName, SUBJECT_SUFFIX] at hlast
  have helog : (ascii ".elog").getLast? = some 103 := by decide
  have htmp : (ascii ".tmp").getLast? = some 112 := by decide
  rw [List.getLast?_append, List.getLast?_append, helog, htmp] at hlast
  simp at hlast

structure Handle where
  name : Bytes
  log : Option Elog
  kept : Subject

/-- The files, the open subjects in order, and the trees; the logs of `store` play no part. -/
structure Process where
  files : Files
  table : List Handle
  store : Store

/-- How the steps of `subject_get` come out. -/
structure OpenFaults where
  opened : Option BjErr
  read : Bool
  grown : Bool

/-- How the steps of `bjm_trim` come out. -/
structure TrimFaults where
  get : OpenFaults
  receipts : Option BjErr
  groups : Option BjErr
  term : Option BjErr
  openTmp : Option BjErr
  compact : Option BjErr
  sync : Option BjErr
  removed : Bool
  renamed : Bool
  reopened : Bool
  read : Bool

def TrimFaults.FailsByAdopt (f : TrimFaults) : Prop :=
  f.openTmp.isSome ∨ f.compact.isSome ∨ f.sync.isSome ∨ f.renamed = false

/-- What a trim returns, what it has set, and what it leaves. -/
structure Trimmed where
  error : Option BjErr
  base : Option ℕ
  removed : Option ℕ
  after : Process

namespace Process

/-- Find a subject in the table, or open its log. -/
def subjectGet (x : Process) (o : OpenFaults) (name : Bytes) (create : Bool) :
    Except BjErr Handle × Process :=
  match x.table.find? (·.name == name) with
  | some h => (.ok h, x)
  | none =>
    if !fileFits name then (.error .range, x)
    else match o.opened with
      | some e => (.error e, x)
      | none => match if create then some ((x.files (liveName name)).getD .empty)
          else x.files (liveName name) with
        | none => (.error .state, x)
        | some c => match if o.read then c.opened else none with
          | none => (.error .state, { x with files := x.files.put (liveName name) (some c) })
          | some log =>
            let files := x.files.put (liveName name) (some (.log log))
            if !o.grown then (.error .oom, { x with files := files })
            else (.ok ⟨name, some log, .opened⟩,
              { x with files := files, table := x.table ++ [⟨name, some log, .opened⟩] })

/-- `bjm_trim` up to the temporary: what it answers already, or the log and the base it is
going to have. An entry of the table has its log open. -/
def planTrim (x : Process) (f : TrimFaults) (subject : Bytes) (before : ℕ) (force : Bool) :
    Except Trimmed (Elog × ℕ × Process) :=
  if !x.store.adopt then .error ⟨some .state, none, none, x⟩
  else match x.subjectGet f.get subject false with
    | (.error e, x) => .error ⟨some e, none, none, x⟩
    | (.ok h, x) =>
      let log := h.log.getD ⟨0, []⟩
      match if force then none else f.receipts.or f.groups with
      | some e => .error ⟨some e, none, none, x⟩
      | none =>
        let newBase := x.store.trimTarget subject log.last before force
        if newBase ≤ log.base then .error ⟨none, some log.base, some 0, x⟩
        else match f.term with
          | some e => .error ⟨some e, some log.base, some 0, x⟩
          | none => .ok (log, newBase, x)

/-- Write what stays to the temporary; after a failure it is removed. -/
def writeTmp (files : Files) (f : TrimFaults) (tmp : Bytes) (stays : Elog) :
    Option BjErr × Files :=
  match f.openTmp with
  | some e => (some e, files)
  | none =>
    let files := files.put tmp (some (if f.compact.isSome then .torn else .log stays))
    match f.compact.or f.sync with
    | some e => (some e, files.remove f.removed tmp)
    | none => (none, files)

def adoptTmp (files : Files) (f : TrimFaults) (tmp live : Bytes) : Option BjErr × Files :=
  match files.posixAdopt f.renamed tmp live with
  | .ok files => (none, files)
  | .error _ => (some .state, files.remove f.removed tmp)

/-- Open the log again; without it the subject leaves the table. -/
def reopen (x : Process) (f : TrimFaults) (subject : Bytes) (base : ℕ) (e : Option BjErr) :
    Trimmed :=
  match if f.reopened && f.read then (x.files (liveName subject)).bind Contents.opened
      else none with
  | none => ⟨some (e.getD .state), some base, some 0,
      { x with table := x.table.eraseP (·.name == subject) }⟩
  | some log =>
    let removed := log.base - base
    ⟨e, some log.base, some removed,
      { x with
        table := x.table.map fun h => if h.name = subject then { h with log := some log } else h
        store := if removed ≠ 0 ∧ x.store.policyOpen = true then
          x.store.marksPrune subject log.base else x.store }⟩

def bjmTrim (x : Process) (f : TrimFaults) (subject : Bytes) (before : ℕ) (force : Bool) :
    Trimmed :=
  match x.planTrim f subject before force with
  | .error r => r
  | .ok (log, newBase, x) =>
    match writeTmp x.files f (tmpName subject) (log.compact newBase) with
    | (some e, files) => ⟨some e, some log.base, some 0, { x with files := files }⟩
    | (none, files) =>
      let (e, files) := adoptTmp files f (tmpName subject) (liveName subject)
      reopen { x with files := files } f subject log.base e

end Process

namespace Process

variable {x : Process} {s : Bytes}

/-- Every open subject has its log open, which is what its file holds. -/
structure Sound (x : Process) : Prop where
  names : (x.table.map Handle.name).Nodup
  logs : ∀ h ∈ x.table, ∃ log, h.log = some log ∧ x.files (liveName h.name) = some (.log log)

def fileLog (x : Process) (s : Bytes) : Option Elog := (x.files (liveName s)).bind Contents.opened

/-- Nothing but one subject's log and temporary has changed, and nothing there but what
the file of a log without bytes is given. -/
structure Elsewhere (s : Bytes) (x x' : Process) : Prop where
  files : ∀ name, name ≠ liveName s → name ≠ tmpName s → x'.files name = x.files name
  table : x'.table.filter (·.name != s) = x.table.filter (·.name != s)
  store : MarksOnly s x.store x'.store

structure Found (s : Bytes) (x x' : Process) : Prop where
  sound : x'.Sound
  store : x'.store = x.store
  table : x'.table.filter (·.name != s) = x.table.filter (·.name != s)
  files : ∀ name, name ≠ liveName s → x'.files name = x.files name
  live : x'.fileLog s = x.fileLog s

theorem Found.refl (hx : x.Sound) : Found s x x := ⟨hx, rfl, rfl, fun _ _ => rfl, rfl⟩

theorem Sound.put_log (hx : x.Sound) {c : Contents} {log : Elog}
    (hc : x.files (liveName s) = some c) (hopen : c.opened = some log) :
    Found s x { x with files := x.files.put (liveName s) (some (.log log)) } := by
  refine ⟨⟨hx.names, fun h hh => ?_⟩, rfl, rfl, fun name hn => Files.put_of_ne _ _ hn, ?_⟩
  · obtain ⟨log', hlog, hfile⟩ := hx.logs h hh
    refine ⟨log', hlog, ?_⟩
    by_cases hn : liveName h.name = liveName s
    · rw [hn] at hfile ⊢
      obtain rfl := Option.some.inj (hc.symm.trans hfile)
      obtain rfl := Option.some.inj hopen
      exact Files.put_self _ _ _
    · rw [← hfile]
      exact Files.put_of_ne _ _ hn
  · simp only [fileLog, Files.put_self, hc]
    exact hopen.symm

theorem subjectGet_found (hx : x.Sound) (o : OpenFaults) (s : Bytes) :
    Found s x (x.subjectGet o s false).2 ∧
      ∀ h, (x.subjectGet o s false).1 = .ok h → ∃ log, h.log = some log ∧
        x.fileLog s = some log ∧ ∃ h' ∈ (x.subjectGet o s false).2.table, h'.name = s := by
  simp only [subjectGet]
  split
  · rename_i h hfind
    refine ⟨.refl hx, fun h' hh => ?_⟩
    obtain rfl := Except.ok.inj hh
    have hmem := List.mem_of_find?_eq_some hfind
    have hname : h.name = s := by simpa using List.find?_some hfind
    obtain ⟨log, hlog, hfile⟩ := hx.logs h hmem
    refine ⟨log, hlog, ?_, h, hmem, hname⟩
    rw [hname] at hfile
    simp [fileLog, hfile, Contents.opened]
  · rename_i hfind
    have hnew : ∀ h ∈ x.table, h.name ≠ s := by simpa using hfind
    split
    · exact ⟨.refl hx, fun h hh => by contradiction⟩
    split
    · exact ⟨.refl hx, fun h hh => by contradiction⟩
    simp only [Bool.false_eq_true, if_false]
    split
    · exact ⟨.refl hx, fun h hh => by contradiction⟩
    rename_i c hc
    split
    · rw [Files.put_same hc]
      exact ⟨.refl hx, fun h hh => by contradiction⟩
    rename_i log hlog
    have hopen : c.opened = some log := by
      split at hlog
      · exact hlog
      · contradiction
    have hput := hx.put_log hc hopen
    split
    · exact ⟨hput, fun h hh => by contradiction⟩
    · refine ⟨⟨⟨?_, fun h hh => ?_⟩, rfl, ?_, hput.files, hput.live⟩, fun h hh => ?_⟩
      · rw [List.map_append, List.nodup_append]
        refine ⟨hx.names, by simp, fun a ha b hb => ?_⟩
        obtain rfl := List.mem_singleton.mp hb
        obtain ⟨h, hh, rfl⟩ := List.mem_map.mp ha
        exact hnew h hh
      · rcases List.mem_append.mp hh with hh | hh
        · exact hput.sound.logs h hh
        · obtain rfl := List.mem_singleton.mp hh
          exact ⟨log, rfl, Files.put_self _ _ _⟩
      · simp
      · obtain rfl := Except.ok.inj hh
        refine ⟨log, rfl, ?_, ⟨s, some log, .opened⟩, by simp, rfl⟩
        rw [fileLog, hc]
        exact hopen

def Reaches (x : Process) (f : TrimFaults) (s : Bytes) (before : ℕ) (force : Bool) : Prop :=
  ∃ p, x.planTrim f s before force = .ok p

/-- Before the temporary nothing is lost; a trim that comes as far has the log and its new
base. -/
theorem planTrim_found (hx : x.Sound) (f : TrimFaults) (s : Bytes) (before : ℕ) (force : Bool) :
    (∃ r, x.planTrim f s before force = .error r ∧ Found s x r.after ∧
        (r.error.isSome = true ∨ r.removed = some 0) ∧ r.removed.getD 0 = 0) ∨
      ∃ log x', x.planTrim f s before force =
          .ok (log, x.store.trimTarget s log.last before force, x') ∧ Found s x x' ∧
        x.fileLog s = some log ∧ log.base < x.store.trimTarget s log.last before force ∧
        ∃ h ∈ x'.table, h.name = s := by
  obtain ⟨hfound, hok⟩ := subjectGet_found hx f.get s
  simp only [planTrim]
  split
  · exact .inl ⟨_, rfl, .refl hx, .inl rfl, rfl⟩
  generalize x.subjectGet f.get s false = r at hfound hok
  obtain ⟨_ | h, x'⟩ := r
  · exact .inl ⟨_, rfl, hfound, .inl rfl, rfl⟩
  obtain ⟨log, hlog, hfile, hmem⟩ := hok h rfl
  simp only [hlog, Option.getD_some]
  split
  · exact .inl ⟨_, rfl, hfound, .inl rfl, rfl⟩
  split
  · exact .inl ⟨_, rfl, hfound, .inr rfl, rfl⟩
  split
  · exact .inl ⟨_, rfl, hfound, .inl rfl, rfl⟩
  · rename_i hlt _ _
    have hstore : x'.store = x.store := hfound.store
    rw [hstore] at hlt ⊢
    exact .inr ⟨log, x', rfl, hfound, hfile, by omega, hmem⟩

end Process

namespace Files

variable {files : Files} {f : TrimFaults} {tmp live : Bytes} {stays : Elog}

theorem remove_of_ne (works : Bool) {n : Bytes} (h : n ≠ tmp) :
    files.remove works tmp n = files n := by
  simp only [remove]
  split
  · exact put_of_ne _ _ h
  · rfl

theorem remove_self {works : Bool} (h : works = true) : files.remove works tmp tmp = none := by
  simp only [remove, h, if_true]
  exact put_self _ _ _

end Files

theorem writeTmp_cases (files : Files) (f : TrimFaults) (tmp : Bytes) (stays : Elog) :
    (∃ e files', Process.writeTmp files f tmp stays = (some e, files') ∧
        (∀ n, n ≠ tmp → files' n = files n) ∧ (f.openTmp.isSome = true → files' tmp = files tmp) ∧
        (f.removed = true → f.openTmp = none → files' tmp = none)) ∨
      ∃ files', Process.writeTmp files f tmp stays = (none, files') ∧
        (∀ n, n ≠ tmp → files' n = files n) ∧ files' tmp = some (.log stays) ∧
        f.openTmp = none ∧ f.compact = none ∧ f.sync = none := by
  simp only [Process.writeTmp]
  cases hopen : f.openTmp with
  | some e => exact .inl ⟨e, files, rfl, fun _ _ => rfl, fun _ => rfl, fun _ h => by contradiction⟩
  | none =>
    cases hfail : f.compact.or f.sync with
    | some e =>
      refine .inl ⟨e, _, rfl, fun n hn => ?_, fun h => by contradiction, fun hr _ => ?_⟩
      · rw [Files.remove_of_ne _ hn, Files.put_of_ne _ _ hn]
      · exact Files.remove_self hr
    | none =>
      obtain ⟨hcompact, hsync⟩ := Option.or_eq_none_iff.mp hfail
      refine .inr ⟨_, rfl, fun n hn => Files.put_of_ne _ _ hn, ?_, rfl, hcompact, hsync⟩
      simp [hcompact]

theorem adoptTmp_cases (files : Files) (f : TrimFaults) {tmp live : Bytes} (hne : live ≠ tmp) :
    (∃ files', Process.adoptTmp files f tmp live = (none, files') ∧ f.renamed = true ∧
        files' live = files tmp ∧ files' tmp = none ∧
        ∀ n, n ≠ live → n ≠ tmp → files' n = files n) ∨
      ∃ files', Process.adoptTmp files f tmp live = (some .state, files') ∧
        (f.removed = true → files' tmp = none) ∧ ∀ n, n ≠ tmp → files' n = files n := by
  simp only [Process.adoptTmp, Files.posixAdopt]
  have hfail : ∃ files', ((some .state, files.remove f.removed tmp) : Option BjErr × Files) =
      (some .state, files') ∧ (f.removed = true → files' tmp = none) ∧
        ∀ n, n ≠ tmp → files' n = files n :=
    ⟨_, rfl, Files.remove_self, fun n hn => Files.remove_of_ne _ hn⟩
  split
  · rename_i files' hadopt
    split at hadopt
    · contradiction
    split at hadopt
    · rename_i hrenamed
      obtain rfl := Except.ok.inj hadopt
      refine .inl ⟨_, rfl, hrenamed, ?_, Files.put_self _ _ _, fun n hl ht => ?_⟩
      · rw [Files.put_of_ne _ _ hne, Files.put_self]
      · rw [Files.put_of_ne _ _ ht, Files.put_of_ne _ _ hl]
    · contradiction
  · exact .inr hfail

namespace Process

variable {x : Process} {s : Bytes}

theorem filter_eraseP (table : List Handle) (s : Bytes) :
    (table.eraseP (·.name == s)).filter (·.name != s) = table.filter (·.name != s) := by
  induction table with
  | nil => rfl
  | cons h table ih =>
    by_cases hn : h.name = s
    · rw [List.eraseP_cons_of_pos (by simp [hn]), List.filter_cons_of_neg (by simp [hn])]
    · rw [List.eraseP_cons_of_neg (by simp [hn]), List.filter_cons_of_pos (by simp [hn]),
        List.filter_cons_of_pos (by simp [hn]), ih]

theorem mem_eraseP {table : List Handle} (hn : (table.map Handle.name).Nodup) {h : Handle}
    (hh : h ∈ table.eraseP (·.name == s)) : h ∈ table ∧ h.name ≠ s := by
  induction table with
  | nil => exact absurd hh List.not_mem_nil
  | cons h' table ih =>
    rw [List.map_cons, List.nodup_cons] at hn
    by_cases hs : h'.name = s
    · rw [List.eraseP_cons_of_pos (by simp [hs])] at hh
      refine ⟨List.mem_cons_of_mem h' hh, fun he => hn.1 ?_⟩
      rw [hs, ← he]
      exact List.mem_map_of_mem hh
    · rw [List.eraseP_cons_of_neg (by simp [hs])] at hh
      rcases List.mem_cons.mp hh with rfl | hh
      · exact ⟨List.mem_cons_self, hs⟩
      · exact ⟨List.mem_cons_of_mem h' (ih hn.2 hh).1, (ih hn.2 hh).2⟩

theorem reopen_cases {l : Elog} (f : TrimFaults) (base : ℕ) (e : Option BjErr)
    (hn : (x.table.map Handle.name).Nodup)
    (hlogs : ∀ h ∈ x.table, h.name ≠ s →
      ∃ log, h.log = some log ∧ x.files (liveName h.name) = some (.log log))
    (hlive : x.files (liveName s) = some (.log l)) :
    (x.reopen f s base e).after.Sound ∧ (x.reopen f s base e).after.files = x.files ∧
      (x.reopen f s base e).after.table.filter (·.name != s) = x.table.filter (·.name != s) ∧
      MarksOnly s x.store (x.reopen f s base e).after.store ∧
      ((x.reopen f s base e).error = some (e.getD .state) ∧
          (x.reopen f s base e).removed = some 0 ∨
        (x.reopen f s base e).error = e ∧
          (x.reopen f s base e).removed = some (l.base - base)) := by
  simp only [reopen]
  split
  · refine ⟨⟨?_, fun h hh => ?_⟩, rfl, filter_eraseP _ _, .refl, .inl ⟨rfl, rfl⟩⟩
    · exact hn.sublist (List.eraseP_sublist.map _)
    · obtain ⟨hmem, hne⟩ := mem_eraseP hn hh
      exact hlogs h hmem hne
  · rename_i log hopen
    obtain rfl : l = log := by
      split at hopen
      · rw [hlive] at hopen
        exact Option.some.inj hopen
      · contradiction
    refine ⟨⟨?_, fun h hh => ?_⟩, rfl, ?_, ?_, .inr ⟨rfl, rfl⟩⟩
    · have hsame : (x.table.map fun h => if h.name = s then { h with log := some l } else h).map
          Handle.name = x.table.map Handle.name := by
        rw [List.map_map]
        refine List.map_congr_left fun h _ => ?_
        simp only [Function.comp]
        split <;> rfl
      rwa [hsame]
    · obtain ⟨h', hmem, rfl⟩ := List.mem_map.mp hh
      split
      · rename_i hs
        refine ⟨l, rfl, ?_⟩
        rw [← hs] at hlive
        exact hlive
      · rename_i hs
        exact hlogs h' hmem hs
    · induction x.table with
      | nil => rfl
      | cons h table ih =>
        rw [List.map_cons]
        by_cases hs : h.name = s
        · rw [if_pos hs, List.filter_cons_of_neg (by simp [hs]),
            List.filter_cons_of_neg (by simp [hs]), ih]
        · rw [if_neg hs, List.filter_cons_of_pos (by simp [hs]),
            List.filter_cons_of_pos (by simp [hs]), ih]
    · split
      · exact marksPrune_marksOnly _ _ _
      · exact .refl

end Process

structure OldOrNew (x : Process) (f : TrimFaults) (s : Bytes) (before : ℕ) (force : Bool)
    (r : Trimmed) : Prop where
  /-- No entry of the table is without its log, and each log is its file's. -/
  sound : r.after.Sound
  elsewhere : Process.Elsewhere s x r.after
  live : r.after.fileLog s = x.fileLog s ∨ ∃ log log', x.fileLog s = some log ∧
    r.after.fileLog s = some log' ∧
    log'.base = x.store.trimTarget s log.last before force ∧ log'.last = log.last ∧
    ∀ i, log'.get i = if log'.base < i then log.get i else none
  failed : x.Reaches f s before force → f.FailsByAdopt →
    r.after.fileLog s = x.fileLog s ∧ r.error.isSome = true ∧ r.removed = some 0
  early : ¬ x.Reaches f s before force → r.after.fileLog s = x.fileLog s ∧
    r.after.files (tmpName s) = x.files (tmpName s) ∧
    (r.error.isSome = true ∨ r.removed = some 0) ∧ r.removed.getD 0 = 0
  temporary : x.Reaches f s before force → f.openTmp = none → f.removed = true →
    r.after.files (tmpName s) = none
  unopened : f.openTmp.isSome = true → r.after.files (tmpName s) = x.files (tmpName s)

theorem Elog.get_compact_eq {log : Elog} {n : ℕ} (hb : log.base ≤ n) (i : ℕ) :
    (log.compact n).get i = if n < i then log.get i else none := by
  split
  · exact get_compact hb ‹_›
  · have hle : i ≤ (log.compact n).base := by
      simp only [compact]
      omega
    simp only [get, hle, if_true]

/-- A trim leaves the log wholly old or wholly new, whatever fails; up to the replacement
a failure is told, and nothing is gone. -/
theorem trim_old_or_new {x : Process} (hx : x.Sound) (f : TrimFaults) (s : Bytes) (before : ℕ)
    (force : Bool) : OldOrNew x f s before force (x.bjmTrim f s before force) := by
  have hne := liveName_ne_tmpName s s
  rcases x.planTrim_found hx f s before force with
    ⟨r, hplan, hfound, herr, hremoved⟩ | ⟨log, x', hplan, hfound, hlog, hlt, hentry⟩
  · have hr : x.bjmTrim f s before force = r := by simp only [Process.bjmTrim, hplan]
    have hearly : ¬ x.Reaches f s before force := by
      rintro ⟨p, hp⟩
      rw [hplan] at hp
      contradiction
    rw [hr]
    exact ⟨hfound.sound, ⟨fun name hl _ => hfound.files name hl, hfound.table,
        hfound.store ▸ .refl⟩, .inl hfound.live, fun h => absurd h hearly,
      fun _ => ⟨hfound.live, hfound.files _ (Ne.symm hne), herr, hremoved⟩,
      fun h => absurd h hearly, fun _ => hfound.files _ (Ne.symm hne)⟩
  · have hreach : x.Reaches f s before force := ⟨_, hplan⟩
    set n := x.store.trimTarget s log.last before force with hn
    -- the file is the log's own, the subject being open
    have hfile : x'.files (liveName s) = some (.log log) := by
      obtain ⟨h, hh, hname⟩ := hentry
      obtain ⟨log', -, hfile⟩ := hfound.sound.logs h hh
      rw [hname] at hfile
      have hopened := hfound.live.trans hlog
      rw [Process.fileLog, hfile] at hopened
      rw [hfile, Option.some.inj hopened]
    simp only [Process.bjmTrim, hplan]
    rcases writeTmp_cases x'.files f (tmpName s) (log.compact n) with
      ⟨e, files, hwrite, hsame, hun, hgone⟩ |
        ⟨files, hwrite, hsame, htmp, hopened, hcompact, hsync⟩ <;> simp only [hwrite]
    · have hlive : (⟨files, x'.table, x'.store⟩ : Process).fileLog s = x.fileLog s := by
        rw [← hfound.live]
        exact congrArg (fun c => Option.bind c Contents.opened) (hsame _ hne)
      refine ⟨⟨hfound.sound.names, fun h hh => ?_⟩, ⟨fun name hl ht => ?_, hfound.table,
        hfound.store ▸ .refl⟩, .inl hlive, fun _ _ => ⟨hlive, rfl, rfl⟩,
        fun h => absurd hreach h, fun _ ho hr => hgone hr ho, fun ho => ?_⟩
      · obtain ⟨log', hlog', hfile'⟩ := hfound.sound.logs h hh
        exact ⟨log', hlog', (hsame _ (liveName_ne_tmpName _ _)).trans hfile'⟩
      · exact (hsame name ht).trans (hfound.files name hl)
      · exact (hun ho).trans (hfound.files _ (Ne.symm hne))
    · have hunopened : ¬ f.openTmp.isSome = true := by simp [hopened]
      rcases adoptTmp_cases files f hne with
        ⟨files₂, hadopt, hrenamed, hlive, hgone, hothers⟩ | ⟨files₂, hadopt, hgone, hothers⟩ <;>
          simp only [hadopt]
      · have hnew : files₂ (liveName s) = some (.log (log.compact n)) := hlive.trans htmp
        have hrest : ∀ name, name ≠ liveName s → name ≠ tmpName s →
            files₂ name = x'.files name := fun name hl ht =>
          (hothers name hl ht).trans (hsame name ht)
        obtain ⟨hsound, hfiles, htable, hstore, -⟩ := Process.reopen_cases
          (x := ⟨files₂, x'.table, x'.store⟩) f log.base none hfound.sound.names
          (fun h hh hs => by
            obtain ⟨log', hlog', hfile'⟩ := hfound.sound.logs h hh
            exact ⟨log', hlog', (hrest _ (fun he => hs (liveName_injective he))
              (liveName_ne_tmpName _ _)).trans hfile'⟩) hnew
        refine ⟨hsound, ⟨fun name hl ht => ?_, htable.trans hfound.table, hfound.store ▸ hstore⟩,
          .inr ⟨log, log.compact n, hlog, ?_, rfl, ?_, Elog.get_compact_eq (by omega)⟩,
          fun _ hfail => ?_, fun h => absurd hreach h, fun _ _ _ => ?_,
          fun h => absurd h hunopened⟩
        · rw [hfiles]
          exact (hrest name hl ht).trans (hfound.files name hl)
        · rw [Process.fileLog, hfiles]
          exact congrArg (fun c => Option.bind c Contents.opened) hnew
        · exact Elog.compact_last (by omega) (trimTarget_le _ _ _ _ _)
        · simp [TrimFaults.FailsByAdopt, hopened, hcompact, hsync, hrenamed] at hfail
        · rw [hfiles]
          exact hgone
      · have hold : files₂ (liveName s) = some (.log log) :=
          (hothers _ hne).trans ((hsame _ hne).trans hfile)
        have hrest : ∀ name, name ≠ tmpName s → files₂ name = x'.files name := fun name ht =>
          (hothers name ht).trans (hsame name ht)
        obtain ⟨hsound, hfiles, htable, hstore, hret⟩ := Process.reopen_cases
          (x := ⟨files₂, x'.table, x'.store⟩) f log.base (some .state) hfound.sound.names
          (fun h hh hs => by
            obtain ⟨log', hlog', hfile'⟩ := hfound.sound.logs h hh
            exact ⟨log', hlog', (hrest _ (liveName_ne_tmpName _ _)).trans hfile'⟩) hold
        have hlive : (Process.reopen ⟨files₂, x'.table, x'.store⟩ f s log.base
            (some .state)).after.fileLog s = x.fileLog s := by
          rw [hlog, Process.fileLog, hfiles]
          exact congrArg (fun c => Option.bind c Contents.opened) hold
        refine ⟨hsound, ⟨fun name hl ht => ?_, htable.trans hfound.table, hfound.store ▸ hstore⟩,
          .inl hlive, fun _ _ => ⟨hlive, ?_⟩, fun h => absurd hreach h, fun _ _ hr => ?_,
          fun h => absurd h hunopened⟩
        · rw [hfiles]
          exact (hrest name ht).trans (hfound.files name hl)
        · rcases hret with ⟨herr, hrem⟩ | ⟨herr, hrem⟩ <;> rw [herr, hrem]
          · exact ⟨rfl, rfl⟩
          · exact ⟨rfl, by rw [Nat.sub_self]⟩
        · rw [hfiles]
          exact hgone hr

structure Process.Shows (x : Process) (st : Store) : Prop where
  store : st = { x.store with logs := st.logs }
  files : ∀ s : Bytes, x.files (liveName s) = (st.logs[s]?).map .log

/-- Every step works. -/
def TrimFaults.fine : TrimFaults where
  get := ⟨none, true, true⟩
  receipts := none
  groups := none
  term := none
  openTmp := none
  compact := none
  sync := none
  removed := true
  renamed := true
  reopened := true
  read := true

theorem Store.marksPrune_logs (st : Store) (logs : ExtTreeMap Bytes Elog) (s : Bytes) (n : ℕ) :
    ({ st with logs := logs } : Store).marksPrune s n =
      { st.marksPrune s n with logs := logs } := by
  have hload : ({ st with logs := logs } : Store).marksLoad s = st.marksLoad s := rfl
  simp only [marksPrune, hload]
  cases st.marksLoad s with
  | error e => rfl
  | ok m =>
    dsimp only
    split
    · rfl
    · cases hkey : policyKey (ascii "m") s <;> simp only [marksStore, hkey]

namespace Process.Shows

variable {x : Process} {st : Store} {s : Bytes}

theorem find (h : x.Shows st) (hx : x.Sound) (hv : bjmSubjectValid s = true) :
    (st.logs[s]? = none ∧ x.subjectGet TrimFaults.fine.get s false = (.error .state, x)) ∨
      ∃ log hd x', st.logs[s]? = some log ∧
        x.subjectGet TrimFaults.fine.get s false = (.ok hd, x') ∧ hd.log = some log ∧
        x'.files = x.files ∧ x'.store = x.store := by
  have hfile := h.files s
  simp only [subjectGet]
  split
  · rename_i hd hfind
    have hmem := List.mem_of_find?_eq_some hfind
    have hname : hd.name = s := by simpa using List.find?_some hfind
    obtain ⟨log, hlog, hopen⟩ := hx.logs hd hmem
    rw [hname, hfile] at hopen
    obtain ⟨log', hlogs, he⟩ := Option.map_eq_some_iff.mp hopen
    obtain rfl := Contents.log.inj he
    exact .inr ⟨log', hd, x, hlogs, rfl, hlog, rfl, rfl⟩
  · simp only [fileFits_of_valid hv, Bool.not_true, Bool.false_eq_true, if_false, TrimFaults.fine]
    cases hlogs : st.logs[s]? with
    | none =>
      rw [hlogs] at hfile
      simp only [Option.map_none] at hfile
      exact .inl ⟨rfl, by rw [hfile]⟩
    | some log =>
      rw [hlogs] at hfile
      simp only [Option.map_some] at hfile
      refine .inr ⟨log, ⟨s, some log, .opened⟩,
        ⟨x.files.put (liveName s) (some (.log log)), x.table ++ [⟨s, some log, .opened⟩], x.store⟩,
        rfl, ?_, rfl, Files.put_same hfile, rfl⟩
      rw [hfile]
      rfl

theorem replaced_fine (files : Files) (hv : bjmSubjectValid s = true) (stays : Elog) :
    ∃ files', (∃ files₁, writeTmp files .fine (tmpName s) stays = (none, files₁) ∧
        adoptTmp files₁ .fine (tmpName s) (liveName s) = (none, files')) ∧
      files' (liveName s) = some (.log stays) ∧
      ∀ t, t ≠ s → files' (liveName t) = files (liveName t) := by
  have hlen := nameValid_length hv
  have hfits : ¬ ((tmpName s).length ≥ BJM_SUBJECT_MAX + 32 ∨
      (liveName s).length ≥ BJM_SUBJECT_MAX + 32) := by
    have helog : SUBJECT_SUFFIX.length = 5 := by decide
    have htmp : (ascii ".tmp").length = 4 := by decide
    simp only [tmpName, liveName, List.length_append, helog, htmp]
    omega
  let written := files.put (tmpName s) (some (.log stays))
  refine ⟨(written.put (liveName s) (written (tmpName s))).put (tmpName s) none,
    ⟨written, rfl, ?_⟩, ?_, fun t ht => ?_⟩
  · simp only [adoptTmp, Files.posixAdopt, hfits, if_false, TrimFaults.fine, if_true]
  · rw [Files.put_of_ne _ _ (liveName_ne_tmpName s s), Files.put_self]
    exact Files.put_self _ _ _
  · rw [Files.put_of_ne _ _ (liveName_ne_tmpName t s),
      Files.put_of_ne _ _ fun he => ht (liveName_injective he)]
    exact Files.put_of_ne _ _ (liveName_ne_tmpName t s)

theorem bjmTrim_fine (h : x.Shows st) (hx : x.Sound) (hv : bjmSubjectValid s = true)
    (before : ℕ) (force : Bool) :
    (∀ e, st.bjmTrim s before force = .error e →
        x.bjmTrim .fine s before force = ⟨some e, none, none, x⟩) ∧
      ∀ base removed st', st.bjmTrim s before force = .ok (base, removed, st') →
        (x.bjmTrim .fine s before force).error = none ∧
          (x.bjmTrim .fine s before force).base = some base ∧
          (x.bjmTrim .fine s before force).removed = some removed ∧
          (x.bjmTrim .fine s before force).after.Shows st' := by
  obtain ⟨logs, rfl⟩ : ∃ logs, st = { x.store with logs := logs } := ⟨st.logs, h.store⟩
  simp only [Store.bjmTrim, Process.bjmTrim, planTrim]
  split
  · exact ⟨fun e he => by rw [Except.error.inj he], fun _ _ _ he => by contradiction⟩
  rcases h.find hx hv with ⟨hlogs, hget⟩ | ⟨log, hd, x', hlogs, hget, hlog, hfiles, hstore⟩
  · have hst : ({ x.store with logs := logs } : Store).subjectGet s false = .error .state := by
      simp [Store.subjectGet, fileFits_of_valid hv, hlogs]
    simp only [hget, hst]
    exact ⟨fun e he => by rw [Except.error.inj he], fun _ _ _ he => by contradiction⟩
  have hst : ({ x.store with logs := logs } : Store).subjectGet s false = .ok log :=
    subjectGet_of_log _ (fileFits_of_valid hv) hlogs false
  have htarget : ({ x.store with logs := logs } : Store).trimTarget s log.last before force =
      x.store.trimTarget s log.last before force := rfl
  have hfaults : (if force = true then none else
      TrimFaults.fine.receipts.or TrimFaults.fine.groups) = none := by
    split <;> rfl
  simp only [hget, hst, hlog, Option.getD_some, hfaults, htarget, hstore]
  set n := x.store.trimTarget s log.last before force
  split
  · refine ⟨fun e he => by contradiction, fun base removed st' he => ?_⟩
    obtain ⟨rfl, rfl, rfl⟩ := by simpa using he
    refine ⟨rfl, rfl, rfl, ⟨?_, fun t => ?_⟩⟩
    · rw [hstore]
    · rw [hfiles]
      exact h.files t
  · rename_i hlt
    refine ⟨fun e he => by contradiction, fun base removed st' he => ?_⟩
    obtain ⟨files, ⟨files₁, hwrite, hput⟩, hlive, hothers⟩ :=
      replaced_fine x'.files hv (log.compact n)
    have hreopen : (if TrimFaults.fine.reopened && TrimFaults.fine.read then
        (files (liveName s)).bind Contents.opened else none) = some (log.compact n) := by
      rw [hlive]
      rfl
    have hbase : (log.compact n).base = n := rfl
    have hremoved : n - log.base ≠ 0 := by omega
    have hterm : TrimFaults.fine.term = none := rfl
    obtain ⟨hn, hrem, hst'⟩ := by simpa only [Except.ok.injEq, Prod.mk.injEq] using he
    simp only [hterm, hwrite, hput, reopen, hreopen, hbase, hremoved, not_false_eq_true, true_and,
      ne_eq]
    have hsplit : st' = { (if x.store.policyOpen = true then x.store.marksPrune s n
        else x.store) with logs := logs.insert s (log.compact n) } := by
      rw [← hst']
      by_cases hp : x.store.policyOpen = true
      · rw [if_pos hp, if_pos hp]
        exact marksPrune_logs _ _ _ _
      · rw [if_neg hp, if_neg hp]
    refine ⟨congrArg some hn, congrArg some hrem, ⟨?_, fun t => ?_⟩⟩
    · rw [hsplit, hstore]
    · have hlogs' : st'.logs = logs.insert s (log.compact n) := by rw [hsplit]
      rw [hlogs', getElem?_insert]
      by_cases ht : t = s
      · rw [ht, if_pos rfl]
        exact hlive
      · rw [if_neg (Ne.symm ht)]
        exact (hothers t ht).trans (hfiles ▸ h.files t)

end Process.Shows

/-- `orders` has three messages and is open, and so is `parts`. -/
def ordersAndParts : Process where
  files := (Files.put (fun _ => none) (liveName (ascii "orders"))
    (some (.log ⟨0, [⟨1, [7]⟩, ⟨1, [8]⟩, ⟨1, [9]⟩]⟩))).put (liveName (ascii "parts"))
      (some (.log ⟨0, [⟨1, [5]⟩]⟩))
  table := [⟨ascii "orders", some ⟨0, [⟨1, [7]⟩, ⟨1, [8]⟩, ⟨1, [9]⟩]⟩, .opened⟩,
    ⟨ascii "parts", some ⟨0, [⟨1, [5]⟩]⟩, .opened⟩]
  store := .empty

theorem ordersAndParts_sound : ordersAndParts.Sound := by
  have hne : liveName (ascii "orders") ≠ liveName (ascii "parts") := by decide
  refine ⟨by decide, fun h hh => ?_⟩
  rcases List.mem_cons.mp hh with rfl | hh
  · exact ⟨_, rfl, by simp only [ordersAndParts, Files.put_of_ne _ _ hne, Files.put_self]⟩
  · obtain rfl := List.mem_singleton.mp hh
    exact ⟨_, rfl, by simp only [ordersAndParts, Files.put_self]⟩

/-- Neither the replacement works nor the reopening: the log is the old one, and `orders`
has left the table. -/
theorem orders_old :
    OldOrNew ordersAndParts { TrimFaults.fine with renamed := false, reopened := false }
      (ascii "orders") 3 true
      (ordersAndParts.bjmTrim { TrimFaults.fine with renamed := false, reopened := false }
        (ascii "orders") 3 true) ∧
    ((ordersAndParts.bjmTrim { TrimFaults.fine with renamed := false, reopened := false }
        (ascii "orders") 3 true).after.table.map Handle.name) = [ascii "parts"] :=
  ⟨trim_old_or_new ordersAndParts_sound _ _ _ _, by decide +kernel⟩

end SukkalMsg
