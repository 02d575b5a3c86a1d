import SukkalMsg.Dedup

/-!
# How long an id is remembered

Lookups and records of a run, in clock order. A rotation retires the current
generation whenever the window has elapsed, be it by a moment or by almost a
second window, and the retired one lives for a window more. An id is remembered
for at most two windows as long as it is retired in time.
-/

namespace SukkalMsg

open Std Names Binjson OrderedScan TwoGenerations ActionRuns Store

inductive DedupOp where
  | lookup (now : ℕ) (subject id : Bytes)
  | record (now : ℕ) (subject id : Bytes) (index : ℕ)

/-- A lookup tells whether it found the id, and whether it had to copy it forward. -/
inductive DedupEvent where
  | looked (now : ℕ) (subject id : Bytes) (found copied : Bool)
  | recorded (now : ℕ) (subject id : Bytes)
  deriving DecidableEq

def DedupEvent.time : DedupEvent → ℕ
  | .looked now .. | .recorded now .. => now

def DedupOp.time : DedupOp → ℕ
  | .lookup now .. | .record now .. => now

def DedupOp.subject : DedupOp → Bytes
  | .lookup _ s _ | .record _ s _ _ => s

def DedupOp.id : DedupOp → Bytes
  | .lookup _ _ i | .record _ _ i _ => i

def dedupExec (st : Store) : DedupOp → List DedupEvent × Store
  | .lookup now subject id =>
    let found := match (st.bjmDedupLookup now subject id).1 with
      | .ok (some _) => true
      | _ => false
    let current := (((st.dedupOpen now).dedupRotate now).memoryOf.cur (pairKey subject id)).isSome
    ([.looked now subject id found (found && !current)], (st.bjmDedupLookup now subject id).2)
  | .record now subject id index =>
    ([.recorded now subject id], (st.bjmDedupRecord now subject id index).2)

/-- The event refreshes the id at this time: it records it or copies it forward,
or, when `hits` count, it finds it at all. -/
def DedupEvent.Touches (hits : Bool) (subject id : Bytes) (t : ℕ) : DedupEvent → Prop
  | .recorded now s i => s = subject ∧ i = id ∧ now = t
  | .looked now s i found copied =>
    s = subject ∧ i = id ∧ now = t ∧ found = true ∧ (hits = true ∨ copied = true)

def Touched (hits : Bool) (h : List DedupEvent) (subject id : Bytes) (t : ℕ) : Prop :=
  ∃ e ∈ h, e.Touches hits subject id t

def InOrder (h : List DedupEvent) (op : DedupOp) : Prop :=
  bjmSubjectValid op.subject = true ∧ bjmDedupIdValid op.id = true ∧ op.time < 2 ^ 64 ∧
    ∀ e ∈ h, e.time ≤ op.time

instance (h : List DedupEvent) (op : DedupOp) : Decidable (InOrder h op) := by
  unfold InOrder
  infer_instance

/-- A lookup that retires the current generation does so no later than the window
and a millisecond after each of its ids was touched. -/
def RetiresInTime (hits : Bool) (h : List DedupEvent) (st : Store) : DedupOp → Prop
  | .record .. => True
  | .lookup now _ _ =>
    let st := st.dedupOpen now
    st.bjmDedupWindow ≤ now - st.ddRotatedMs →
    now - st.ddRotatedMs < u64 (2 * st.bjmDedupWindow) →
      ∀ s i, bjmSubjectValid s = true → bjmDedupIdValid i = true →
        st.memoryOf.cur (pairKey s i) ≠ none →
          ∃ t, Touched hits h s i t ∧ now ≤ t + st.bjmDedupWindow + 1

def touchedKey (hits : Bool) (h : List DedupEvent) (k : Bytes) (t : ℕ) : Prop :=
  ∃ s i, bjmSubjectValid s = true ∧ bjmDedupIdValid i = true ∧ k = pairKey s i ∧
    Touched hits h s i t

theorem Touched.mono {hits : Bool} {h h' : List DedupEvent} {s i : Bytes} {t : ℕ}
    (ht : Touched hits h s i t) : Touched hits (h ++ h') s i t := by
  obtain ⟨e, he, het⟩ := ht
  exact ⟨e, List.mem_append_left _ he, het⟩

theorem touched_of_key {hits : Bool} {h : List DedupEvent} {s i : Bytes} {t : ℕ}
    (hs : bjmSubjectValid s = true) (ht : touchedKey hits h (pairKey s i) t) :
    Touched hits h s i t := by
  obtain ⟨s', i', hs', -, hk, ht⟩ := ht
  obtain ⟨rfl, rfl⟩ := pairKey_injective (slash_notMem_of_nameValid hs)
    (slash_notMem_of_nameValid hs') hk
  exact ht

/-- A lookup that found its id found it within two windows of a touch. -/
def FoundInTime (hits : Bool) (w : ℕ) (before : List DedupEvent) (e : DedupEvent) : Prop :=
  ∀ now s i copied, e = .looked now s i true copied →
    ∃ t, Touched hits before s i t ∧ now ≤ t + 2 * w

structure WindowInv (hits : Bool) (w : ℕ) (h : List DedupEvent) (st : Store) : Prop where
  window : st.bjmDedupWindow = w
  start : st.ddOpen = false → DedupFresh st
  aged : st.ddOpen = true → (∃ e ∈ h, st.ddRotatedMs ≤ e.time) ∧
    Memory.Aged w (touchedKey hits h) st.memoryOf
  bounded : Each (FoundInTime hits w) h

theorem WindowInv.opened {hits : Bool} {w : ℕ} {h : List DedupEvent} {st : Store} {op : DedupOp}
    (hi : WindowInv hits w h st) (ho : InOrder h op) :
    (st.dedupOpen op.time).ddRotatedMs ≤ op.time ∧
      (st.dedupOpen op.time).bjmDedupWindow = w ∧
      Memory.Aged w (touchedKey hits h) (st.dedupOpen op.time).memoryOf := by
  have hw : (st.dedupOpen op.time).bjmDedupWindow = w :=
    (Store.DedupOnly.dedupOpen op.time).window_eq.trans hi.window
  cases hopen : st.ddOpen with
  | true =>
    obtain ⟨⟨e, he, hle⟩, haged⟩ := hi.aged hopen
    rw [Store.dedupOpen_of_open hopen] at hw ⊢
    exact ⟨Nat.le_trans hle (ho.2.2.2 e he), hw, haged⟩
  | false =>
    have hmem := (Store.dedupOpen_of_fresh (hi.start hopen) op.time).1
    refine ⟨?_, hw, ?_⟩
    · exact Nat.le_of_eq (congrArg Memory.rotated hmem)
    · rw [hmem]
      exact ⟨by simp, by simp⟩

theorem WindowInv.step {hits : Bool} {w : ℕ} {h : List DedupEvent} {st : Store} {op : DedupOp}
    (hi : WindowInv hits w h st) (ho : InOrder h op) (hr : RetiresInTime hits h st op) :
    WindowInv hits w (h ++ (dedupExec st op).1) (dedupExec st op).2 := by
  obtain ⟨hle, hw, haged⟩ := hi.opened ho
  have hpos : 0 < w := hi.window ▸ st.window_pos
  obtain ⟨hs, hid, hlt, -⟩ := ho
  have hkey := dedupKey_of_valid hs hid
  cases op with
  | record now s i index =>
    simp only [DedupOp.time, DedupOp.subject, DedupOp.id] at hle hw haged hs hid hkey
    have htouch : Touched hits (h ++ [.recorded now s i]) s i now :=
      ⟨_, List.mem_append_right _ (List.mem_singleton_self _), rfl, rfl, rfl⟩
    simp only [dedupExec, Store.bjmDedupRecord, hkey]
    refine ⟨(Store.DedupOnly.ddRemember _ _).window_eq.trans hw, by simp, fun _ => ⟨?_, ?_⟩,
      hi.bounded.snoc (by simp [FoundInTime])⟩
    · exact ⟨_, List.mem_append_right _ (List.mem_singleton_self _), by
        rwa [Store.ddRemember_ddRotatedMs]⟩
    · rw [Store.memoryOf_ddRemember]
      refine (haged.mono ?_).remember ⟨s, i, hs, hid, rfl, htouch⟩ hle
      rintro k t ⟨s', i', hs', hi', rfl, ht⟩
      exact ⟨s', i', hs', hi', rfl, ht.mono⟩
  | lookup now s i =>
    simp only [DedupOp.time, DedupOp.subject, DedupOp.id] at hle hw haged hs hid hkey hlt
    have hrotated := Store.memoryOf_dedupRotate hle hlt
    rw [hw] at hrotated
    obtain ⟨hyoung, hnow⟩ :=
      Memory.rotate_young (m := (st.dedupOpen now).memoryOf) (u64 (2 * w)) hpos hle
    have haged' : Memory.Aged w (touchedKey hits h) ((st.dedupOpen now).dedupRotate now).memoryOf := by
      rw [hrotated]
      refine haged.rotate fun hel hstep k hk => ?_
      obtain ⟨t, ⟨s', i', hs', hi', rfl, -⟩, -⟩ := haged.cur k hk
      have hin := hr (by rw [hw]; exact hel) (by rw [hw]; exact hstep) s' i' hs' hi' hk
      rw [hw] at hin
      obtain ⟨t, ht, htl⟩ := hin
      exact ⟨t, ⟨s', i', hs', hi', rfl, ht⟩, htl⟩
    rw [← hrotated] at hyoung hnow
    have hw' : ((st.dedupOpen now).dedupRotate now).bjmDedupWindow = w :=
      (Store.DedupOnly.dedupRotate now).window_eq.trans hw
    have hfound : ∀ r, ((st.dedupOpen now).dedupRotate now).memoryOf.find (pairKey s i) = some r →
        ∃ t, Touched hits h s i t ∧ now ≤ t + 2 * w := by
      intro r hf
      obtain ⟨t, ht, htl⟩ := haged'.found hpos hnow hf
      exact ⟨t, touched_of_key hs ht, htl⟩
    have hquiet : ∀ e : DedupEvent, e.time = now →
        FoundInTime hits w h e →
        WindowInv hits w (h ++ [e]) ((st.dedupOpen now).dedupRotate now) := by
      intro e het he
      refine ⟨hw', by simp, fun _ => ⟨⟨e, by simp, het ▸ hyoung⟩, ?_⟩,
        hi.bounded.snoc he⟩
      refine haged'.mono ?_
      rintro k t ⟨s', i', hs', hi', rfl, ht⟩
      exact ⟨s', i', hs', hi', rfl, ht.mono⟩
    simp only [dedupExec]
    rcases Store.bjmDedupLookup_cases st now hkey with
      ⟨e, r, hl, -⟩ | ⟨hl, -⟩ | ⟨r, index, hl, hcur, -⟩ | ⟨r, index, hl, hcur, hold, -⟩
    · rw [hl]
      exact hquiet _ rfl (by simp [FoundInTime])
    · rw [hl]
      exact hquiet _ rfl (by simp [FoundInTime])
    · rw [hl]
      refine hquiet _ rfl ?_
      rintro now' s' i' c he
      obtain ⟨rfl, rfl, rfl, -⟩ := DedupEvent.looked.inj he
      exact hfound r (by simp [Memory.find, hcur])
    · -- copied forward: the id is touched now and enters the current generation
      rw [hl, hcur]
      have htouch : Touched hits (h ++ [.looked now s i true true]) s i now :=
        ⟨_, List.mem_append_right _ (List.mem_singleton_self _), rfl, rfl, rfl, rfl, .inr rfl⟩
      refine ⟨(Store.DedupOnly.ddRemember _ _).window_eq.trans hw', by simp,
        fun _ => ⟨⟨_, List.mem_append_right _ (List.mem_singleton_self _), ?_⟩, ?_⟩,
        hi.bounded.snoc ?_⟩
      · rw [Store.ddRemember_ddRotatedMs]
        exact hyoung
      · rw [Store.memoryOf_ddRemember]
        refine (haged'.mono ?_).remember ⟨s, i, hs, hid, rfl, htouch⟩ hyoung
        rintro k t ⟨s', i', hs', hi', rfl, ht⟩
        exact ⟨s', i', hs', hi', rfl, ht.mono⟩
      · rintro now' s' i' c he
        obtain ⟨rfl, rfl, rfl, -⟩ := DedupEvent.looked.inj he
        exact hfound r (by simp [Memory.find, hcur, hold])

/-- While every generation is retired in time, a lookup finds an id only within
two windows of the last time it was touched. -/
theorem dedup_window_upper {hits : Bool} {st : Store} {ops : List DedupOp} (hf : DedupFresh st)
    (hrun : Along dedupExec (fun h st op => InOrder h op ∧ RetiresInTime hits h st op) [] st ops) :
    Each (FoundInTime hits st.bjmDedupWindow) (run dedupExec st ops).1 := by
  have hstart : WindowInv hits st.bjmDedupWindow [] st :=
    ⟨rfl, fun _ => hf, by simp [hf.closed], each_nil⟩
  have hinv := invariant hstart hrun fun h st' op hg hi => hi.step hg.1 hg.2
  simpa using hinv.bounded

/-- The id `x` is recorded at 1, a lookup of `y` at 20 retires it, and at 29 it is
still found. -/
def lateRetirement : List DedupOp :=
  [.record 1 (ascii "s") (ascii "x") 1, .lookup 20 (ascii "s") (ascii "y"),
    .lookup 29 (ascii "s") (ascii "x")]

def tenMsWindow : Store := { Store.empty with ddWindowMs := 10 }

/-- With a window of 10 ms an id is found 28 ms after it was last touched. -/
theorem lateRetirement_found :
    Along dedupExec (fun h _ op => InOrder h op) [] tenMsWindow lateRetirement ∧
    DedupFresh tenMsWindow ∧ tenMsWindow.bjmDedupWindow = 10 ∧
    (run dedupExec tenMsWindow lateRetirement).1 =
      [.recorded 1 (ascii "s") (ascii "x"), .looked 20 (ascii "s") (ascii "y") false false,
        .looked 29 (ascii "s") (ascii "x") true true] ∧
    ∀ hits, ¬ Each (FoundInTime hits 10) (run dedupExec tenMsWindow lateRetirement).1 := by
  have hevents : (run dedupExec tenMsWindow lateRetirement).1 =
      [.recorded 1 (ascii "s") (ascii "x"), .looked 20 (ascii "s") (ascii "y") false false,
        .looked 29 (ascii "s") (ascii "x") true true] := by decide +kernel
  refine ⟨?_, ⟨rfl, rfl, rfl, rfl, rfl⟩, rfl, hevents, fun hits hb => ?_⟩
  · simp only [lateRetirement, Along, InOrder]
    decide +kernel
  · rw [hevents] at hb
    obtain ⟨t, ⟨e, he, ht⟩, hle⟩ := hb [_, _] _ [] rfl 29 _ _ true rfl
    simp only [List.mem_cons, List.not_mem_nil, or_false] at he
    rcases he with rfl | rfl
    · obtain ⟨-, -, rfl⟩ := ht
      omega
    · exact absurd ht.2.2.2.1 (by decide)

/-- The lookup of `y` comes as soon as the window is over, and `x` is found once more. -/
def promptRetirement : List DedupOp :=
  [.record 1 (ascii "s") (ascii "x") 1, .lookup 12 (ascii "s") (ascii "y"),
    .lookup 21 (ascii "s") (ascii "x")]

theorem promptRetirement_bounded :
    (run dedupExec tenMsWindow promptRetirement).1 =
        [.recorded 1 (ascii "s") (ascii "x"), .looked 12 (ascii "s") (ascii "y") false false,
          .looked 21 (ascii "s") (ascii "x") true true] ∧
      Each (FoundInTime false 10) (run dedupExec tenMsWindow promptRetirement).1 := by
  have hone : ∀ k, ((dedupExec tenMsWindow (.record 1 (ascii "s") (ascii "x") 1)).2.dedupOpen
      12).memoryOf.cur k ≠ none → k = pairKey (ascii "s") (ascii "x") := by
    intro k hk
    by_contra hne
    have hkey : dedupKey (ascii "s") (ascii "x") = some (pairKey (ascii "s") (ascii "x")) := by
      decide +kernel
    refine hk ?_
    simp [dedupExec, Store.bjmDedupRecord, hkey, Store.memoryOf, Store.ddRemember, Store.dedupOpen,
      Store.ddRecover, Store.ddStateSave, Store.dd, Store.setDd, tenMsWindow, Store.empty,
      getElem?_insert, Ne.symm hne]
  refine ⟨by decide +kernel, dedup_window_upper ⟨rfl, rfl, rfl, rfl, rfl⟩
    ⟨⟨by decide +kernel, trivial⟩, ⟨by decide +kernel, fun _ _ s i hs hi hin => ?_⟩,
      ⟨by decide +kernel, fun hel => ?_⟩, trivial⟩⟩
  · -- `x` is the only id of the generation that is retired
    have hplain : slash ∉ ascii "s" := by decide
    obtain ⟨rfl, rfl⟩ := pairKey_injective (slash_notMem_of_nameValid hs) hplain
      (hone _ hin)
    exact ⟨1, ⟨_, List.mem_singleton_self _, rfl, rfl, rfl⟩, by decide⟩
  · exact absurd hel (by decide +kernel)

end SukkalMsg
