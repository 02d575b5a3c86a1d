import SukkalMsg.DedupWindow
import SukkalMsg.PublishHandler

/-!
# Clocks that step

A host's clock may be stepped back, and a store without one reads zero, while the
time of the last rotation is kept in the store's files. A rotation measures the
time since then as a difference of words: a reading before the last rotation is
taken for a very late one, and both generations are cleared at once.
-/

namespace SukkalMsg

open Std Names Binjson OrderedScan TwoGenerations ActionRuns Store

inductive ClockOp where
  | call (op : DedupOp)
  | restart

def clockExec (st : Store) : ClockOp → List DedupEvent × Store
  | .call op => dedupExec st op
  | .restart => ([], st.restart)

/-- The clock reads no earlier than the last rotation, and both generations are
cleared only where two windows have passed. -/
def ReadsForward (st : Store) (now : ℕ) : Prop :=
  st.ddRotatedMs ≤ now ∧
    (st.bjmDedupWindow ≤ now - st.ddRotatedMs →
      u64 (2 * st.bjmDedupWindow) ≤ now - st.ddRotatedMs →
        2 * st.bjmDedupWindow ≤ now - st.ddRotatedMs)

/-- Valid names and words; lookups read a clock that has not stepped behind the last
rotation, records are made within the window after it, and the codec carries what
is saved. -/
def SteadyClock (_ : List DedupEvent) (st : Store) : ClockOp → Prop
  | .restart => st.ddOpen = true → Carried st.ddRotatedMs
  | .call (.lookup now subject id) =>
    bjmSubjectValid subject = true ∧ bjmDedupIdValid id = true ∧ now < 2 ^ 64 ∧
      ReadsForward (st.dedupOpen now) now
  | .call (.record now subject id index) =>
    bjmSubjectValid subject = true ∧ bjmDedupIdValid id = true ∧ Carried index ∧
      now ≤ (st.dedupOpen now).ddRotatedMs + st.bjmDedupWindow

/-- A lookup clears a generation no sooner than a window after the last rotation, and
an id recorded at `t` is neither cleared nor missed before `t` and a window. -/
def ForgetsInTime (h : List DedupEvent) (st : Store) : ClockOp → Prop
  | .call (.lookup now subject id) =>
    let w := st.bjmDedupWindow
    let st₁ := st.dedupOpen now
    (st₁.dedupRotate now ≠ st₁ → st₁.ddRotatedMs + w ≤ now) ∧
    (∀ t s i, .recorded t s i ∈ h → st₁.memoryOf.find (pairKey s i) ≠ none →
      (st₁.dedupRotate now).memoryOf.find (pairKey s i) = none → t + w ≤ now) ∧
    ((¬ ∃ index, (st.bjmDedupLookup now subject id).1 = .ok (some index)) →
      ∀ t, .recorded t subject id ∈ h → t + w ≤ now)
  | _ => True

/-- A store that was just opened, whatever its files hold. -/
structure JustOpened (st : Store) : Prop where
  closed : st.ddOpen = false
  gen : st.ddGen = false
  rotated : st.ddRotatedMs = 0

namespace Store

/-- The store with the state of its index recovered, before the clock is read. -/
def recovered (st : Store) : Store :=
  if st.ddOpen then st else { st with policyOpen := true }.ddRecover

theorem ddRecover_dd (st : Store) (gen : Bool) : st.ddRecover.dd gen = st.dd gen := by
  simp only [ddRecover]
  split
  · rfl
  · split <;> rfl

theorem ddRecover_policy (st : Store) : st.ddRecover.policy = st.policy := by
  simp only [ddRecover]
  split
  · rfl
  · split <;> rfl

theorem ddRecover_congr (st st' : Store) (hp : st'.policy[ddStateKey]? = st.policy[ddStateKey]?)
    (hg : st'.ddGen = st.ddGen) (hr : st'.ddRotatedMs = st.ddRotatedMs) :
    st'.ddRecover.ddGen = st.ddRecover.ddGen ∧
      st'.ddRecover.ddRotatedMs = st.ddRecover.ddRotatedMs := by
  simp only [ddRecover, hp]
  split
  · exact ⟨hg, hr⟩
  · split
    · exact ⟨hg, hr⟩
    · exact ⟨rfl, rfl⟩

theorem memoryOf_congr {st st' : Store} (hdd : ∀ gen, st'.dd gen = st.dd gen)
    (hg : st'.ddGen = st.ddGen) (hr : st'.ddRotatedMs = st.ddRotatedMs) :
    st'.memoryOf = st.memoryOf := by
  simp only [memoryOf, hdd, hg, hr]

theorem memoryOf_dedupOpen (st : Store) (now : ℕ) :
    ∃ r, st.recovered.memoryOf.rotated ≤ r ∧
      (st.dedupOpen now).memoryOf = { st.recovered.memoryOf with rotated := r } := by
  simp only [dedupOpen, recovered]
  split
  · exact ⟨_, Nat.le_refl _, rfl⟩
  · split
    · rename_i hr
      exact ⟨now, by simp [memoryOf, hr], rfl⟩
    · exact ⟨_, Nat.le_refl _, rfl⟩

/-- The saved state names the current generation and when it began. -/
def SavesItself (st : Store) : Prop :=
  Carried st.ddRotatedMs →
    st.restart.ddRecover.ddGen = st.ddGen ∧ st.restart.ddRecover.ddRotatedMs = st.ddRotatedMs

theorem savesItself_ddStateSave (st : Store) : st.ddStateSave.SavesItself := by
  intro hc
  have hsaved : st.ddStateSave.restart.policy[ddStateKey]? =
      some (ddStateRecord st.ddGen st.ddRotatedMs) := by simp [ddStateSave, restart]
  have hgen : ((if st.ddGen then 1 else 0 : ℕ) != 0) = st.ddGen := by cases st.ddGen <;> rfl
  have hread : bjDecode ddVisit (ddStateRecord st.ddGen st.ddRotatedMs) ⟨[], 0, 0⟩ =
      .ok ⟨ascii "rotated_ms", if st.ddGen then 1 else 0, st.ddRotatedMs⟩ := decode_ddStateRecord hc
  simp only [ddRecover, hsaved, hread, hgen]
  exact ⟨rfl, rfl⟩

theorem SavesItself.congr {st st' : Store} (h : st.SavesItself) (hp : st'.policy = st.policy)
    (hg : st'.ddGen = st.ddGen) (hr : st'.ddRotatedMs = st.ddRotatedMs) : st'.SavesItself := by
  intro hc
  rw [hr] at hc
  obtain ⟨hgen, hrot⟩ := ddRecover_congr st.restart st'.restart
    (congrArg (·[ddStateKey]?) hp) rfl rfl
  rw [hgen, hrot, hg, hr]
  exact h hc

theorem savesItself_dedupOpen {st : Store} (hopen : st.ddOpen = true → st.SavesItself)
    (hclosed : st.ddOpen = false → st.ddGen = false ∧ st.ddRotatedMs = 0) (now : ℕ) :
    (st.dedupOpen now).SavesItself := by
  cases ho : st.ddOpen with
  | true =>
    rw [dedupOpen_of_open ho]
    exact hopen ho
  | false =>
    obtain ⟨hg, hr⟩ := hclosed ho
    simp only [dedupOpen, ho, Bool.false_eq_true, if_false]
    split
    · exact savesItself_ddStateSave _
    · intro _
      exact ddRecover_congr { st with policyOpen := true, ddOpen := false }
        ({ ({ st with policyOpen := true, ddOpen := false } : Store).ddRecover with
          ddOpen := true } : Store).restart
        (congrArg (·[ddStateKey]?) (ddRecover_policy _)) hg.symm hr.symm

theorem savesItself_dedupRotate {st : Store} (h : st.SavesItself) (now : ℕ) :
    (st.dedupRotate now).SavesItself := by
  simp only [dedupRotate]
  split
  · exact h
  · exact savesItself_ddStateSave _

/-- Stopping and starting loses nothing that was saved. -/
theorem memoryOf_restart {st : Store} (hs : st.ddOpen = true → st.SavesItself)
    (hclosed : st.ddOpen = false → st.ddGen = false ∧ st.ddRotatedMs = 0)
    (hc : st.ddOpen = true → Carried st.ddRotatedMs) :
    st.restart.recovered.memoryOf = st.recovered.memoryOf := by
  have hrestart : st.restart.recovered.memoryOf = st.restart.ddRecover.memoryOf := by
    obtain ⟨hg, hr⟩ := ddRecover_congr st.restart
      { st.restart with policyOpen := true } rfl rfl rfl
    refine memoryOf_congr (fun gen => ?_) hg hr
    rw [ddRecover_dd st.restart]
    exact ddRecover_dd _ gen
  rw [hrestart]
  cases ho : st.ddOpen with
  | true =>
    obtain ⟨hg, hr⟩ := hs ho (hc ho)
    simp only [recovered, ho, if_true]
    exact memoryOf_congr (fun gen => ddRecover_dd _ gen) hg hr
  | false =>
    obtain ⟨hg, hr⟩ := hclosed ho
    obtain ⟨hg', hr'⟩ := ddRecover_congr
      { st with policyOpen := true, ddOpen := false } st.restart rfl hg.symm hr.symm
    simp only [recovered, ho, Bool.false_eq_true, if_false]
    refine memoryOf_congr (fun gen => ?_) hg' hr'
    rw [ddRecover_dd st.restart, ddRecover_dd]
    rfl

/-- A key that either generation holds is found. -/
theorem bjmDedupLookup_of_find {st : Store} {now index : ℕ} {subject id key : Bytes} {r : Record}
    (hkey : dedupKey subject id = some key)
    (hf : ((st.dedupOpen now).dedupRotate now).memoryOf.find key = some r)
    (hd : decodeIndex r = .ok index) :
    (st.bjmDedupLookup now subject id).1 = .ok (some index) := by
  simp only [bjmDedupLookup, hkey]
  simp only [Memory.find, memoryOf] at hf
  generalize (st.dedupOpen now).dedupRotate now = st₁ at hf ⊢
  cases hcur : (st₁.dd st₁.ddGen)[key]? with
  | some r' =>
    obtain rfl : r' = r := by simpa [hcur] using hf
    simp [hd, Except.map]
  | none =>
    simp only [hcur, Option.none_or] at hf
    simp only [hf, hd]

end Store

/-- Every record of the run is held, and stopping would lose nothing. -/
structure ClockInv (w : ℕ) (h : List DedupEvent) (st : Store) : Prop where
  window : st.bjmDedupWindow = w
  closed : st.ddOpen = false → st.ddGen = false ∧ st.ddRotatedMs = 0
  saved : st.ddOpen = true → st.SavesItself
  names : ∀ t s i, .recorded t s i ∈ h → bjmSubjectValid s = true ∧ bjmDedupIdValid i = true
  held : ∀ t s i, .recorded t s i ∈ h → ∃ index, Carried index ∧
    Memory.Held w st.recovered.memoryOf (pairKey s i) (indexRecord index) t

namespace ClockInv

variable {w : ℕ} {h : List DedupEvent} {st : Store}

theorem start (hs : JustOpened st) : ClockInv st.bjmDedupWindow [] st where
  window := rfl
  closed _ := ⟨hs.gen, hs.rotated⟩
  saved ho := by
    rw [hs.closed] at ho
    contradiction
  names _ _ _ hr := absurd hr List.not_mem_nil
  held _ _ _ hr := absurd hr List.not_mem_nil

theorem recovered_of_open (ho : st.ddOpen = true) : st.recovered = st := by
  simp [recovered, ho]

theorem of_open (hw : st.bjmDedupWindow = w) (ho : st.ddOpen = true) (hs : st.SavesItself)
    (hn : ∀ t s i, .recorded t s i ∈ h → bjmSubjectValid s = true ∧ bjmDedupIdValid i = true)
    (hh : ∀ t s i, .recorded t s i ∈ h → ∃ index, Carried index ∧
      Memory.Held w st.memoryOf (pairKey s i) (indexRecord index) t) : ClockInv w h st where
  window := hw
  closed hc := by
    rw [ho] at hc
    contradiction
  saved _ := hs
  names := hn
  held := by rwa [recovered_of_open ho]

theorem opened (hi : ClockInv w h st) (now : ℕ) : ClockInv w h (st.dedupOpen now) := by
  refine of_open ((DedupOnly.dedupOpen now).window_eq.trans hi.window) (dedupOpen_ddOpen st now)
    (savesItself_dedupOpen hi.saved hi.closed now) hi.names ?_
  intro t s i hr
  obtain ⟨index, hc, hheld⟩ := hi.held t s i hr
  obtain ⟨r, hle, hmem⟩ := memoryOf_dedupOpen st now
  rw [hmem]
  exact ⟨index, hc, hheld.later hle⟩

theorem restart (hi : ClockInv w h st) (hc : st.ddOpen = true → Carried st.ddRotatedMs) :
    ClockInv w h st.restart where
  window := hi.window
  closed _ := ⟨rfl, rfl⟩
  saved ho := by simp [Store.restart] at ho
  names := hi.names
  held := by
    rw [memoryOf_restart hi.saved hi.closed hc]
    exact hi.held

theorem held_ddRemember {m : Memory Bytes Record} {key : Bytes} {index : ℕ} {t : ℕ} {s i : Bytes}
    (hc : Carried index)
    (hh : ∃ n, Carried n ∧ Memory.Held w m (pairKey s i) (indexRecord n) t) :
    ∃ n, Carried n ∧
      Memory.Held w (m.remember key (indexRecord index)) (pairKey s i) (indexRecord n) t := by
  obtain ⟨n, hn, hh⟩ := hh
  by_cases hk : pairKey s i = key
  · subst hk
    exact ⟨index, hc, hh.again⟩
  · exact ⟨n, hn, hh.remember hk⟩

theorem record (hi : ClockInv w h st) {now index : ℕ} {s i : Bytes}
    (hg : SteadyClock h st (.call (.record now s i index))) :
    ClockInv w (h ++ [.recorded now s i]) (st.bjmDedupRecord now s i index).2 := by
  obtain ⟨hs, hid, hc, hle⟩ := hg
  have ho := hi.opened now
  have hpos : 0 < w := hi.window ▸ st.window_pos
  simp only [Store.bjmDedupRecord, dedupKey_of_valid hs hid]
  apply of_open ((DedupOnly.ddRemember _ _).window_eq.trans ho.window)
  · rw [ddRemember_ddOpen]
    exact dedupOpen_ddOpen st now
  · exact (ho.saved (dedupOpen_ddOpen st now)).congr (ddRemember_policy _ _ _)
      (ddRemember_ddGen _ _ _) (ddRemember_ddRotatedMs _ _ _)
  · intro t s' i' hr
    rcases List.mem_append.mp hr with hr | hr
    · exact hi.names t s' i' hr
    · obtain ⟨rfl, rfl, rfl⟩ := DedupEvent.recorded.inj (List.mem_singleton.mp hr)
      exact ⟨hs, hid⟩
  · intro t s' i' hr
    rw [memoryOf_ddRemember]
    rcases List.mem_append.mp hr with hr | hr
    · refine held_ddRemember hc ?_
      have hheld := ho.held t s' i' hr
      rwa [recovered_of_open (dedupOpen_ddOpen st now)] at hheld
    · obtain ⟨rfl, rfl, rfl⟩ := DedupEvent.recorded.inj (List.mem_singleton.mp hr)
      rw [hi.window] at hle
      exact ⟨index, hc, Memory.held_remember hpos hle⟩

theorem rotated (hi : ClockInv w h st) {now : ℕ} (ho : st.ddOpen = true) (hlt : now < 2 ^ 64)
    (hf : ReadsForward st now) : ClockInv w h (st.dedupRotate now) := by
  have hpos : 0 < w := hi.window ▸ st.window_pos
  refine of_open ((DedupOnly.dedupRotate now).window_eq.trans hi.window) (by simpa using ho)
    (savesItself_dedupRotate (hi.saved ho) now) hi.names ?_
  intro t s i hr
  obtain ⟨index, hc, hheld⟩ := hi.held t s i hr
  rw [recovered_of_open ho] at hheld
  rw [memoryOf_dedupRotate hf.1 hlt]
  obtain ⟨hle, hclear⟩ := hf
  rw [hi.window] at hclear ⊢
  exact ⟨index, hc, hheld.rotate hpos hle hclear⟩

theorem lookup (hi : ClockInv w h st) {now : ℕ} {s i : Bytes}
    (hg : SteadyClock h st (.call (.lookup now s i))) :
    ClockInv w h (st.bjmDedupLookup now s i).2 := by
  obtain ⟨hs, hid, hlt, hf⟩ := hg
  have hopen := dedupOpen_ddOpen st now
  have hrot := (hi.opened now).rotated hopen hlt hf
  have hropen : ((st.dedupOpen now).dedupRotate now).ddOpen = true := by simp
  rcases bjmDedupLookup_cases st now (dedupKey_of_valid hs hid) with
    ⟨e, r, hl, -⟩ | ⟨hl, -⟩ | ⟨r, index, hl, -⟩ | ⟨r, index, hl, hcur, hold, hd⟩
  · rwa [hl]
  · rwa [hl]
  · rwa [hl]
  · -- copied forward: the value is the one that was held
    rw [hl]
    apply of_open ((DedupOnly.ddRemember _ _).window_eq.trans hrot.window)
    · rwa [ddRemember_ddOpen]
    · exact (hrot.saved hropen).congr (ddRemember_policy _ _ _)
        (ddRemember_ddGen _ _ _) (ddRemember_ddRotatedMs _ _ _)
    · exact hi.names
    · intro t s' i' hr
      rw [memoryOf_ddRemember]
      obtain ⟨n, hn, hheld⟩ := hrot.held t s' i' hr
      rw [recovered_of_open hropen] at hheld
      by_cases hk : pairKey s' i' = pairKey s i
      · rw [hk] at hheld ⊢
        rcases hheld with hsafe | hpast
        · have hfind : some r = some (indexRecord n) := by
            simpa [Memory.find, hcur, hold] using hsafe.find_eq
          rw [Option.some.inj hfind, decodeIndex_of_carried hn] at hd
          obtain rfl := Except.ok.inj hd
          exact ⟨n, hn, Memory.Held.again (.inl hsafe)⟩
        · exact ⟨n, hn, .inr hpast⟩
      · exact ⟨n, hn, hheld.remember hk⟩

end ClockInv

theorem window_of_rotated {st : Store} {now : ℕ} (hle : st.ddRotatedMs ≤ now)
    (hlt : now < 2 ^ 64) (hne : st.dedupRotate now ≠ st) :
    st.ddRotatedMs + st.bjmDedupWindow ≤ now := by
  by_cases hel : u64Sub now st.ddRotatedMs < st.bjmDedupWindow
  · exact absurd (by simp [dedupRotate, hel]) hne
  · rw [u64Sub_of_le hle hlt] at hel
    omega

theorem ClockInv.forgets {w : ℕ} {h : List DedupEvent} {st : Store} (hi : ClockInv w h st)
    {op : ClockOp} (hg : SteadyClock h st op) : ForgetsInTime h st op := by
  cases op with
  | restart => trivial
  | call op => cases op with
    | record now s i index => trivial
    | lookup now s i =>
      obtain ⟨hs, hid, hlt, hf⟩ := hg
      have hopen := dedupOpen_ddOpen st now
      have hiopen := hi.opened now
      have hrot := hiopen.rotated hopen hlt hf
      have hropen : ((st.dedupOpen now).dedupRotate now).ddOpen = true := by simp
      -- no generation is dated after this reading
      have hdated : ((st.dedupOpen now).dedupRotate now).memoryOf.rotated ≤ now := by
        rw [memoryOf_dedupRotate hf.1 hlt]
        exact (Memory.rotate_young (m := (st.dedupOpen now).memoryOf) _
          (window_pos (st.dedupOpen now)) hf.1).1
      have hpast : ∀ t s' i' n, Memory.Held w
          ((st.dedupOpen now).dedupRotate now).memoryOf (pairKey s' i') (indexRecord n) t →
          ((st.dedupOpen now).dedupRotate now).memoryOf.find (pairKey s' i') ≠
            some (indexRecord n) → t + w ≤ now :=
        fun t s' i' n hheld hne => Nat.le_trans (hheld.of_find_ne hne) hdated
      simp only [ForgetsInTime]
      rw [hi.window]
      refine ⟨fun hne => ?_, fun t s' i' hr _ hnone => ?_, fun hmiss t hr => ?_⟩
      · have hwin := window_of_rotated hf.1 hlt hne
        rwa [hiopen.window] at hwin
      · obtain ⟨n, hn, hheld⟩ := hrot.held t s' i' hr
        rw [ClockInv.recovered_of_open hropen] at hheld
        exact hpast t s' i' n hheld (by simp [hnone])
      · obtain ⟨n, hn, hheld⟩ := hrot.held t s i hr
        rw [ClockInv.recovered_of_open hropen] at hheld
        refine hpast t s i n hheld fun hfind => hmiss ⟨n, ?_⟩
        exact bjmDedupLookup_of_find (dedupKey_of_valid hs hid) hfind (decodeIndex_of_carried hn)

theorem ClockInv.step {w : ℕ} {h : List DedupEvent} {st : Store} {op : ClockOp}
    (hi : ClockInv w h st) (hg : SteadyClock h st op) :
    ClockInv w (h ++ (clockExec st op).1) (clockExec st op).2 := by
  cases op with
  | restart => simpa [clockExec] using hi.restart hg
  | call op => cases op with
    | record now s i index => exact hi.record hg
    | lookup now s i =>
      have hnext := hi.lookup hg
      refine ⟨hnext.window, hnext.closed, hnext.saved, ?_, ?_⟩
      · intro t s' i' hr
        exact hnext.names t s' i' (by simpa [clockExec, dedupExec] using hr)
      · intro t s' i' hr
        exact hnext.held t s' i' (by simpa [clockExec, dedupExec] using hr)

/-- While the clock reads no earlier than the last rotation, nothing is forgotten
within the window after it was recorded. -/
theorem steady_clock_forgets_in_time {st : Store} {ops : List ClockOp} (hs : JustOpened st)
    (hrun : Along clockExec SteadyClock [] st ops) : Along clockExec ForgetsInTime [] st ops :=
  hrun.of_invariant (ClockInv.start hs) fun _ _ _ hg hi => ⟨hi.forgets hg, hi.step hg⟩

/-- A window of 10 ms, a lookup at 100, and the id recorded then. -/
def firstPublish : List ClockOp :=
  [.call (.lookup 100 (ascii "s") (ascii "x")), .call (.record 100 (ascii "s") (ascii "x") 1)]

/-- The broker starts again, the id is found at 105, its generation is retired at 110, and
at 121 the id is missed. -/
def retiredPublish : List ClockOp :=
  firstPublish ++ [.restart, .call (.lookup 105 (ascii "s") (ascii "x")),
    .call (.lookup 110 (ascii "s") (ascii "y")), .call (.lookup 121 (ascii "s") (ascii "x"))]

theorem retiredPublish_steady : Along clockExec SteadyClock [] tenMsWindow retiredPublish := by
  simp only [retiredPublish, firstPublish, List.cons_append, List.nil_append, Along, SteadyClock,
    ReadsForward]
  decide +kernel

/-- A millisecond back, or without a clock after a restart, the id is forgotten at
once and the rotation is done before its time. -/
theorem backward_clock_forgets :
    JustOpened tenMsWindow ∧ tenMsWindow.bjmDedupWindow = 10 ∧
    (run clockExec tenMsWindow (firstPublish ++ [.call (.lookup 99 (ascii "s") (ascii "x"))])).1 =
      [.looked 100 (ascii "s") (ascii "x") false false, .recorded 100 (ascii "s") (ascii "x"),
        .looked 99 (ascii "s") (ascii "x") false false] ∧
    (run clockExec tenMsWindow
        (firstPublish ++ [.restart, .call (.lookup 0 (ascii "s") (ascii "x"))])).1 =
      [.looked 100 (ascii "s") (ascii "x") false false, .recorded 100 (ascii "s") (ascii "x"),
        .looked 0 (ascii "s") (ascii "x") false false] ∧
    ¬ Along clockExec ForgetsInTime [] tenMsWindow
      (firstPublish ++ [.call (.lookup 99 (ascii "s") (ascii "x"))]) ∧
    ¬ Along clockExec ForgetsInTime [] tenMsWindow
      (firstPublish ++ [.restart, .call (.lookup 0 (ascii "s") (ascii "x"))]) := by
  refine ⟨⟨rfl, rfl, rfl⟩, rfl, by decide +kernel, by decide +kernel, ?_, ?_⟩
  · rintro ⟨-, -, ⟨-, -, hmiss⟩, -⟩
    refine absurd (hmiss ?_ 100 (by decide +kernel)) (by decide +kernel)
    rintro ⟨index, hf⟩
    have hfound := (congrArg (fun r => (Except.toOption r).join.isSome) hf).trans (rfl : _ = true)
    exact absurd hfound (by decide +kernel)
  · rintro ⟨-, -, -, ⟨-, -, hmiss⟩, -⟩
    refine absurd (hmiss ?_ 100 (by decide +kernel)) (by decide +kernel)
    rintro ⟨index, hf⟩
    have hfound := (congrArg (fun r => (Except.toOption r).join.isSome) hf).trans (rfl : _ = true)
    exact absurd hfound (by decide +kernel)

theorem firstPublish_forgets_in_time :
    (run clockExec tenMsWindow retiredPublish).1 =
        [.looked 100 (ascii "s") (ascii "x") false false, .recorded 100 (ascii "s") (ascii "x"),
          .looked 105 (ascii "s") (ascii "x") true false,
          .looked 110 (ascii "s") (ascii "y") false false,
          .looked 121 (ascii "s") (ascii "x") false false] ∧
      Along clockExec ForgetsInTime [] tenMsWindow retiredPublish :=
  ⟨by decide +kernel, steady_clock_forgets_in_time ⟨rfl, rfl, rfl⟩ retiredPublish_steady⟩

end SukkalMsg
