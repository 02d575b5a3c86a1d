import SukkalMsg.FruitlessSearches
import SukkalMsg.PushRestart
import SukkalMsg.Wakeups

/-!
# Passes that find nothing

A pass that starts nothing and waits for nothing lowers the work flag. By then it has
asked every live subscription, and left each of its subjects drained. They stay drained
for the rest of the pass, but for the letters that later subscriptions write: one on a
channel that the pass has gone by is not delivered while the flag is down.
-/

namespace SukkalMsg

open Std Names Binjson OrderedScan BoundedTable Store ActionRuns

namespace PassTurn

variable (V : Vendor) (u : PassTurn)

def reads : Bool :=
  (({ u.scan with sub.wakeMs := 0 } : Scan).offered V u.clock
    (2 * u.scan.push.names.length + 1) 0).all fun p => p.1.reads V u.clock p.2

/-- The group waits for something of a subject the search is to come by. -/
def Awaits : Prop := ∃ x ∈ u.scan.push.names, u.scan.sub.isMatch x = true ∧ u.scan.Waits u.clock x

instance : Decidable (Awaits u) :=
  inferInstanceAs (Decidable (∃ x ∈ u.scan.push.names, _ = _ ∧ u.scan.Waits u.clock x))

/-- No letter of the later turn `u` is on a channel that the subscription of `w` matches. -/
def Spares (w u : PassTurn) : Prop := ∀ z ∈ u.scan.push.names, u.scan.sub.isMatch z = true →
  u.scan.buries u.clock z = true → ∀ y ∈ deadSubjectOf z, w.scan.sub.isMatch y = false

instance (w u : PassTurn) : Decidable (Spares w u) :=
  inferInstanceAs (Decidable (∀ z ∈ u.scan.push.names, _ → _ → ∀ y ∈ deadSubjectOf z, _ = _))

/-- The search finds nothing, and notes no time to ask again. -/
def Vain : Prop := ∃ a, u.scan.search V u.clock = (a, none) ∧ a.sub.wakeMs = 0

variable {V u}

theorem answers (hs : u.succeeds V = true) (hr : u.reads V = true) :
    ∀ p ∈ ({ u.scan with sub.wakeMs := 0 } : Scan).offered V u.clock
      (2 * u.scan.push.names.length + 1) 0, p.1.Answers V u.clock p.2 := by
  simp only [succeeds, reads, Bool.and_eq_true, List.all_eq_true] at hs hr
  exact fun p hp => ⟨hs.1 p hp, hr p hp⟩

theorem nothing_found (hs : u.succeeds V = true) (hsent : u.sent V = none) :
    (u.scan.search V u.clock).2 = none := by
  simp only [succeeds, Bool.and_eq_true, Bool.or_eq_true] at hs
  simp only [sent] at hsent
  refine Option.isNone_iff_eq_none.mp (hs.2.resolve_right fun hstart => ?_)
  rw [if_pos hstart] at hsent
  contradiction

theorem Vain.not_awaits (h : u.Vain V) (hV : V.KeepsNames) (hr : u.Ready)
    (ht : u.scan.OnTime u.clock) (hs : u.succeeds V = true) (hread : u.reads V = true) :
    ¬ u.Awaits := by
  obtain ⟨a, hsearch, hwake⟩ := h
  rintro ⟨x, hx, hm, hw⟩
  exact Scan.search_wakes hV hr.sound hr.nodup hr.cursor ht (answers hs hread) hsearch hx hm hw hwake

theorem Vain.idled (h : u.Vain V) (hV : V.KeepsNames) (hr : u.Ready)
    (ht : u.scan.OnTime u.clock) (hs : u.succeeds V = true) (hread : u.reads V = true)
    (hahead : u.scan.LettersAhead u.clock) :
    ∃ a, u.scan.search V u.clock = (a, none) ∧ Scan.Idled u.clock u.scan a := by
  obtain ⟨a, hsearch, hwake⟩ := h
  exact ⟨a, hsearch, Scan.search_idled hV hr.sound hr.nodup hr.cursor ht hahead
    (answers hs hread) hsearch hwake⟩

/-- A search that finds nothing notes a time exactly when, on the tables it begins with, its group
waits for something of a subject that is known. -/
theorem notes_iff_awaits (hV : V.KeepsNames) (hr : u.Ready) (ht : u.scan.OnTime u.clock)
    (hs : u.succeeds V = true) (hread : u.reads V = true) (hsent : u.sent V = none)
    (hknown : ∀ x, u.scan.sub.isMatch x = true → u.scan.Waits u.clock x → x ∈ u.scan.push.names) :
    (u.scan.search V u.clock).1.sub.wakeMs ≠ 0 ↔ u.Awaits := by
  have hsearch : u.scan.search V u.clock = ((u.scan.search V u.clock).1, none) :=
    Prod.ext rfl (nothing_found hs hsent)
  constructor
  · intro hwake
    obtain ⟨x, hm, hw⟩ := Scan.search_waits hV hr.sound hr.nodup hr.cursor ht (answers hs hread)
      hsearch hwake
    exact ⟨x, hknown x hm hw, hm, hw⟩
  · rintro ⟨x, hx, hm, hw⟩
    exact Scan.search_wakes hV hr.sound hr.nodup hr.cursor ht (answers hs hread) hsearch hx hm hw

/-- Where no job is buried on the way, the search of a turn comes to something exactly when, on the
tables found before it, something is deliverable. -/
theorem starts_iff (hV : V.KeepsNames) (hr : u.Ready) (ht : u.scan.OnTime u.clock)
    (hs : ∀ p ∈ ({ u.scan with sub.wakeMs := 0 } : Scan).offered V u.clock
      (2 * u.scan.push.names.length + 1) 0, p.1.Answers V u.clock p.2)
    (hserved : ∀ x ∈ u.scan.push.names, u.scan.sub.isMatch x = true →
      u.scan.served V u.clock x = true)
    (hquiet : ∀ x ∈ u.scan.push.names, u.scan.sub.isMatch x = true →
      u.scan.buries u.clock x = false)
    {t : Pass} (hscan : u.scan = ⟨t.store, t.push, u.scan.sub⟩) :
    Pass.Starts V u.clock (fun _ => true) t u.scan.sub ↔ ∃ x, u.deliverable V x = true := by
  have hfinds := Scan.search_finds_iff hV hr.sound hr.nodup hr.cursor ht hs hr.known hserved hquiet
  rw [hscan] at hfinds
  simp only [Pass.Starts, and_true, hfinds, deliverable, Bool.and_eq_true]
  rw [← hscan]

end PassTurn

/-- What one search leaves drained another in vain leaves so, if it writes no letter there. -/
theorem Scan.Idled.keeps {V : Vendor} {clock : ℕ} {b a : Scan} (h : Idled clock b a)
    (hb : b.Sound) (hsearch : b.search V clock = (a, none)) {s : Psub} {x : Bytes}
    (hquiet : ∀ z ∈ b.push.names, b.sub.isMatch z = true → b.buries clock z = true →
      deadSubjectOf z ≠ some x) :
    (x ∈ a.push.names → x ∈ b.push.names) ∧
      (x ∈ b.push.names → s.Drained b.store x → s.Drained a.store x) := by
  have hnone : ¬ Lettered b a x := fun hl => by
    obtain ⟨z, hz, hm, hburies, hd⟩ := h.letters x hl
    exact hquiet z hz hm hburies hd
  simp only [Lettered, not_or, not_not, not_and] at hnone
  refine ⟨hnone.2, fun hx hdrained => ?_⟩
  have hsearched := searched_search V clock hb
  rw [hsearch] at hsearched
  have hslash := hb.names x hx
  have hown : x ∈ a.push.names := h.longer.subset hx
  by_cases hshared : b.sub.isMatch x = true ∧ s.cfg.group = b.sub.cfg.group ∧ s.cfg.group ≠ []
  · -- a group of its own: the search has drained it
    obtain ⟨hm, hsame, hg⟩ := hshared
    have hcleared := h.drained x hown hm
    have hcfg : a.sub.cfg.group = s.cfg.group := by rw [h.cfg_eq, hsame]
    rw [Psub.Drained.worker (hcfg ▸ hg), hcfg] at hcleared
    rwa [Psub.Drained.worker hg]
  · refine hdrained.of_same rfl rfl (fun hg => h.record x _ hslash fun hboth => ?_) hnone.1 ?_
    · exact hshared ⟨hboth.1, hboth.2, hg⟩
    · have hreceipt := hsearched.store.receipt_le (c := s.consumer) hslash
      have hbase := hsearched.store.base x
      dsimp only at hreceipt hbase
      omega

namespace Pass

variable {V : Vendor} {send : Psub → Bool} {now clock : ℕ}

def Idles (V : Vendor) (us : List PassTurn) : Prop :=
  ∀ u ∈ us, ∃ a, u.scan.search V u.clock = (a, none) ∧ Scan.Idled u.clock u.scan a

variable (send) in
theorem ask_of_search {t : Pass} {s : Psub} {a : Scan} (helig : s.Eligible now)
    (hsearch : (⟨t.store, t.push, s⟩ : Scan).search V clock = (a, none)) :
    (t.ask V send now clock s).2 = a.sub ∧ (t.ask V send now clock s).1.store = a.store ∧
      (t.ask V send now clock s).1.push = a.push := by
  have hstart : Scan.startDelivery V clock send ⟨t.store, t.push, s⟩ = (false, a) := by
    rcases Scan.startDelivery_cases V clock send (a := ⟨t.store, t.push, s⟩) with
      ⟨h, -⟩ | ⟨count, h, -⟩
    · rw [h, hsearch]
    · rw [hsearch] at h
      contradiction
  obtain ⟨h₁, h₂, h₃, -⟩ := ask_of_start helig hstart
  exact ⟨h₁, h₂, h₃⟩

/-- The rest of a pass keeps what is drained, where it writes no letters. -/
theorem askAll_keeps {t : Pass} (ht : t.Sound) {ss : List Psub}
    (hidles : Idles V (turns V send now clock t ss)) {s : Psub} {x : Bytes}
    (hquiet : ∀ u ∈ turns V send now clock t ss, ∀ z ∈ u.scan.push.names,
      u.scan.sub.isMatch z = true → u.scan.buries u.clock z = true → deadSubjectOf z ≠ some x) :
    (x ∈ (askAll V send now clock t ss).1.push.names → x ∈ t.push.names) ∧
      (x ∈ t.push.names → s.Drained t.store x →
        s.Drained (askAll V send now clock t ss).1.store x) := by
  induction ss generalizing t with
  | nil => exact ⟨fun hx => hx, fun _ hd => hd⟩
  | cons r ss ih =>
    obtain ⟨hsound, -⟩ := ask_sound V send now clock ht r
    have htail := ih hsound
      (fun u hu => hidles u (List.mem_append_right _ hu))
      fun u hu => hquiet u (List.mem_append_right _ hu)
    have hhead : (x ∈ (t.ask V send now clock r).1.push.names → x ∈ t.push.names) ∧
        (x ∈ t.push.names → s.Drained t.store x →
          s.Drained (t.ask V send now clock r).1.store x) := by
      by_cases helig : r.Eligible now
      · have hu : (⟨⟨t.store, t.push, r⟩, clock, send⟩ : PassTurn) ∈
            turns V send now clock t (r :: ss) := by simp [turns, helig]
        obtain ⟨a, hsearch, hidled⟩ := hidles _ hu
        obtain ⟨-, hstore, hpush⟩ := ask_of_search send helig hsearch
        rw [hstore, hpush]
        exact hidled.keeps ⟨ht.names, ht.base⟩ hsearch (hquiet _ hu)
      · obtain ⟨-, hstore, hpush, -⟩ := ask_of_not_eligible V send clock (t := t) helig
        rw [hstore, hpush]
        exact ⟨fun hx => hx, fun _ hd => hd⟩
    simp only [askAll]
    have hlonger := (ask_told V send now clock ht r).1.longer
    exact ⟨fun hx => hhead.1 (htail.1 hx), fun hx hd =>
      htail.2 (hlonger.subset hx) (hhead.2 hx hd)⟩

/-- A pass in vain leaves every live subscription idle, and each of its subjects drained. -/
theorem askAll_drains {t : Pass} (ht : t.Sound) {ss : List Psub}
    (hidles : Idles V (turns V send now clock t ss))
    (hspares : (turns V send now clock t ss).Pairwise PassTurn.Spares)
    (helig : ∀ s ∈ ss, s.gone = false → s.Eligible now) :
    ∀ s' ∈ (askAll V send now clock t ss).2, s'.gone = false → s'.inflight = false ∧
      ∀ x ∈ (askAll V send now clock t ss).1.push.names, s'.isMatch x = true →
        s'.Drained (askAll V send now clock t ss).1.store x := by
  induction ss generalizing t with
  | nil => exact fun s' hs' => absurd hs' List.not_mem_nil
  | cons s ss ih =>
    obtain ⟨hsound, -⟩ := ask_sound V send now clock ht s
    simp only [turns, List.pairwise_append] at hspares
    obtain ⟨-, hspares', hcross⟩ := hspares
    have hidles' : Idles V (turns V send now clock (t.ask V send now clock s).1 ss) :=
      fun u hu => hidles u (List.mem_append_right _ hu)
    intro s' hs' hg
    rcases List.mem_cons.mp hs' with rfl | hs'
    · by_cases hgone : s.gone = true
      · have hnot : ¬ s.Eligible now := fun h => by simp [h.here] at hgone
        obtain ⟨hsame, -⟩ := ask_of_not_eligible V send clock (t := t) hnot
        rw [hsame, hgone] at hg
        contradiction
      · have hnow := helig s List.mem_cons_self (by simpa using hgone)
        have hu : (⟨⟨t.store, t.push, s⟩, clock, send⟩ : PassTurn) ∈
            turns V send now clock t (s :: ss) := by simp [turns, hnow]
        obtain ⟨a, hsearch, hidled⟩ := hidles _ hu
        obtain ⟨hsub, hstore, hpush⟩ := ask_of_search send hnow hsearch
        have hsearched := Scan.searched_search (a := ⟨t.store, t.push, s⟩) V clock
          ⟨ht.names, ht.base⟩
        rw [hsearch] at hsearched
        simp only [askAll, hsub] at hg ⊢
        refine ⟨hsearched.sub.inflight_eq.trans hnow.idle, fun x hx hm => ?_⟩
        have hmatch : s.isMatch x = true := by
          rw [← hm]
          simp only [Psub.isMatch, hidled.cfg_eq]
        have hkeeps := askAll_keeps (s := a.sub) (x := x) hsound hidles' fun u hu z hz hmz hb hd => by
          have hfree := hcross ⟨⟨t.store, t.push, s⟩, clock, send⟩ (by simp [hnow]) u hu z hz hmz hb
            x hd
          rw [hmatch] at hfree
          contradiction
        have hknown := hkeeps.1 hx
        refine hkeeps.2 hknown ?_
        rw [hpush] at hknown
        rw [hstore]
        exact hidled.drained x hknown hmatch
    · exact ih hsound hidles' hspares' (fun u hu => helig u (List.mem_cons_of_mem s hu)) s' hs' hg

theorem mem_turns {t : Pass} {ss : List Psub} {u : PassTurn} :
    u ∈ turns V send now clock t ss ↔ ∃ pre s suf, ss = pre ++ s :: suf ∧ s.Eligible now ∧
      u = ⟨⟨(askAll V send now clock t pre).1.store, (askAll V send now clock t pre).1.push, s⟩,
        clock, send⟩ := by
  induction ss generalizing t with
  | nil => simp [turns]
  | cons s ss ih =>
    rw [turns, List.mem_append, ih]
    constructor
    · rintro (hu | ⟨pre, r, suf, rfl, helig, rfl⟩)
      · split at hu
        · exact ⟨[], s, ss, rfl, ‹_›, List.mem_singleton.mp hu⟩
        · exact absurd hu List.not_mem_nil
      · exact ⟨s :: pre, r, suf, rfl, helig, rfl⟩
    · rintro ⟨pre, r, suf, heq, helig, rfl⟩
      cases pre with
      | nil =>
        obtain ⟨rfl, rfl⟩ := List.cons.inj heq
        exact .inl (by simp [helig, askAll])
      | cons q pre =>
        obtain ⟨rfl, rfl⟩ := List.cons.inj heq
        exact .inr ⟨pre, r, suf, rfl, helig, rfl⟩

theorem turns_vain {t : Pass} {ss : List Psub} (hfree : ¬ Detained V send now clock t ss)
    (hs : ∀ u ∈ turns V send now clock t ss, u.succeeds V = true)
    (hsent : ∀ u ∈ turns V send now clock t ss, u.sent V = none) :
    ∀ u ∈ turns V send now clock t ss, u.Vain V := by
  intro u hu
  have hnone := PassTurn.nothing_found (hs u hu) (hsent u hu)
  obtain ⟨pre, s, suf, hss, helig, rfl⟩ := mem_turns.mp hu
  refine ⟨_, Prod.ext rfl hnone, ?_⟩
  by_contra hwake
  exact hfree ⟨pre, s, suf, hss, helig.here, .inr (.inr ⟨helig, hwake⟩)⟩

theorem eligible_of_free {t : Pass} {ss : List Psub} (hfree : ¬ Detained V send now clock t ss) :
    ∀ s ∈ ss, s.gone = false → s.Eligible now := by
  intro s hs hg
  obtain ⟨pre, suf, rfl⟩ := List.append_of_mem hs
  have hnot : ¬ Detains V now clock (askAll V send now clock t pre).1 s := fun hd =>
    hfree ⟨pre, s, suf, rfl, hd⟩
  have hidle : s.inflight = false := by
    by_contra hf
    exact hnot ⟨hg, .inl (by simpa using hf)⟩
  refine ⟨hg, hidle, ?_⟩
  by_contra hdue
  exact hnot ⟨hg, .inr (.inl ⟨hg, hidle, by omega⟩)⟩

end Pass

namespace App

section Defs

variable (V : Vendor) (send : Psub → Bool) (now clock : ℕ) (b : App)

def turns : List PassTurn := Pass.turns V send now clock b.passStart b.push.subs

/-- Every live subscription may be asked, and none has anything deliverable at its turn. -/
structure Fruitless : Prop where
  eligible : ∀ s ∈ b.push.subs, s.gone = false → s.Eligible now
  nothing : ∀ u ∈ b.turns V send now clock, ∀ x, u.deliverable V x = false

/-- A time the pass must note is not 0, and unless a group waits for something, each letter it
writes is on a channel it has not gone by. -/
structure Thorough : Prop where
  onTime : ∀ u ∈ b.turns V send now clock, u.scan.OnTime u.clock
  letters : (∀ u ∈ b.turns V send now clock, ¬ u.Awaits) →
    (∀ u ∈ b.turns V send now clock, u.scan.LettersAhead u.clock) ∧
      (b.turns V send now clock).Pairwise PassTurn.Spares

end Defs

/-- No delivery is outstanding, and no live subscription has anything left. -/
structure Drained (b : App) : Prop where
  idle : ∀ s ∈ b.push.subs, s.gone = false → s.inflight = false
  drained : ∀ s ∈ b.push.subs, s.gone = false → ∀ x ∈ b.push.names, s.isMatch x = true →
    s.Drained b.store x

end App

theorem App.meetsLease_turns {V : Vendor} {send : Psub → Bool} {now clock : ℕ} {b : App} :
    b.MeetsLease V send now clock ↔
      ∃ u ∈ b.turns V send now clock, (u.scan.search V u.clock).1.sub.wakeMs ≠ 0 := by
  simp only [turns, Pass.mem_turns]
  constructor
  · rintro ⟨pre, s, suf, hss, helig, hwake⟩
    exact ⟨_, ⟨pre, s, suf, hss, helig, rfl⟩, hwake⟩
  · rintro ⟨_, ⟨pre, s, suf, hss, helig, rfl⟩, hwake⟩
    exact ⟨pre, s, suf, hss, helig, hwake⟩

/-- A pass that sends nothing comes by a lease exactly when, on the tables found before one of its
turns, a group waits for something. -/
theorem App.meetsLease_iff {V : Vendor} {send : Psub → Bool} {now clock : ℕ} {b : App}
    (hV : V.KeepsNames) (hr : ∀ u ∈ b.turns V send now clock, u.Ready)
    (ht : ∀ u ∈ b.turns V send now clock, u.scan.OnTime u.clock)
    (hok : ∀ u ∈ b.turns V send now clock, u.succeeds V = true ∧ u.reads V = true)
    (hsent : ∀ u ∈ b.turns V send now clock, u.sent V = none)
    (hknown : ∀ u ∈ b.turns V send now clock, ∀ x, u.scan.sub.isMatch x = true →
      u.scan.Waits u.clock x → x ∈ u.scan.push.names) :
    b.MeetsLease V send now clock ↔ ∃ u ∈ b.turns V send now clock, u.Awaits := by
  rw [meetsLease_turns]
  exact exists_congr fun u => and_congr_right fun hu => PassTurn.notes_iff_awaits hV (hr u hu)
    (ht u hu) (hok u hu).1 (hok u hu).2 (hsent u hu) (hknown u hu)

/-- A pass, a publish, a registration, or the outcome of an outstanding delivery. The reads, the
takes and the sends of a pass succeed, and one with nothing to deliver is thorough. -/
def PushOp.Rotates (V : Vendor) (b : App) : PushOp → Prop
  | .publish .. | .put _ => True
  | .delivered _ id _ _ => ∀ t ∈ b.push.subs, t.id = id → t.inflight = true
  | .pump send now clock => b.push.work = true →
    (∀ u ∈ b.turns V send now clock, u.succeeds V = true ∧ u.reads V = true) ∧
      (b.Fruitless V send now clock → b.Thorough V send now clock)
  | _ => False

namespace App.Drained

variable {V : Vendor} {b : App} {send : Psub → Bool} {now clock : ℕ}

/-- A pass that lowers the flag had nothing to deliver, so it is thorough, and drains all. -/
theorem pump {h : List PushStep} (hV : V.KeepsNames) (hr : Rotating V h b)
    (hwords : b.store.Words) (hwork : b.push.work = true)
    (ha : (PushOp.pump send now clock).Rotates V b)
    (hdown : (b.pump V send now clock).app.push.work = false) :
    (b.pump V send now clock).app.Drained := by
  obtain ⟨hok, hthorough⟩ := ha hwork
  have hsound : b.passStart.Sound := ⟨hr.outstanding.names, fun s => base_lt_of_words hwords s⟩
  obtain ⟨hbusy, hturned, hcount, -⟩ :=
    Pass.askAll_turned V send now clock b.passStart b.push.subs
  obtain ⟨-, hready⟩ := Pass.askAll_turns V send now clock hsound hr.informed b.push.subs hr.placed
  have hsent := Pass.askAll_sent V send now clock b.passStart b.push.subs
  simp only [App.pump, hwork, if_true, pumpPass] at hdown ⊢
  -- the flag is lowered by a pass that started nothing and that nothing detained
  have hfree : (Pass.askAll V send now clock b.passStart b.push.subs).1.started = 0 ∧
      (Pass.askAll V send now clock b.passStart b.push.subs).1.busy = false := by
    by_contra hnot
    simp only [passStart] at hnot hturned
    simp only [hnot, if_false] at hdown
    rw [hturned hwork] at hdown
    contradiction
  have hundetained : ¬ Pass.Detained V send now clock b.passStart b.push.subs := fun hd => by
    rw [hbusy.mpr (.inr hd)] at hfree
    exact absurd hfree.2 (by simp)
  have hnone : ∀ u ∈ b.turns V send now clock, u.sent V = none := by
    have hnil : (Pass.askAll V send now clock b.passStart b.push.subs).1.sent = [] := by
      have h₀ : b.passStart.started = 0 ∧ b.passStart.sent.length = 0 := ⟨rfl, rfl⟩
      rw [h₀.1, h₀.2, hfree.1] at hcount
      exact List.length_eq_zero_iff.mp (by omega)
    rw [hsent] at hnil
    exact List.filterMap_eq_nil_iff.mp (List.append_eq_nil_iff.mp hnil).2
  have hvain := Pass.turns_vain hundetained (fun u hu => (hok u hu).1) hnone
  have hfruitless : b.Fruitless V send now clock := by
    refine ⟨Pass.eligible_of_free hundetained, fun u hu => ?_⟩
    refine PassTurn.nothing_of_idle (hready u hu).1 (hok u hu).1 ?_
    rw [PassTurn.delivered_eq, hnone u hu]
    rfl
  obtain ⟨htime, hletters⟩ := hthorough hfruitless
  obtain ⟨hahead, hspares⟩ := hletters fun u hu =>
    (hvain u hu).not_awaits hV (hready u hu).1 (htime u hu) (hok u hu).1 (hok u hu).2
  have hidles : Pass.Idles V (b.turns V send now clock) := fun u hu =>
    (hvain u hu).idled hV (hready u hu).1 (htime u hu) (hok u hu).1 (hok u hu).2 (hahead u hu)
  have hdrains := Pass.askAll_drains hsound hidles hspares hfruitless.eligible
  exact ⟨fun s hs hg => (hdrains s hs hg).1, fun s hs hg => (hdrains s hs hg).2⟩

theorem step {h : List PushStep} (hV : V.KeepsNames) (hr : Rotating V h b)
    (hwords : b.store.Words) (hb : b.push.work = false → b.Drained) {op : PushOp}
    (ha : op.Rotates V b) (hdown : (b.apply V op).2.push.work = false) :
    (b.apply V op).2.Drained := by
  cases op with
  | publish now s e =>
    simp only [apply, publish] at hdown ⊢
    split
    · rename_i hpub
      rw [hpub] at hdown
      exact hb hdown
    · -- a message was appended, and the engine was told
      rename_i hpub
      rw [hpub] at hdown
      simp [Pusher.notify] at hdown
  | put req =>
    simp only [apply] at hdown ⊢
    rcases b.hPushPut_push req with heq | ⟨r, found, -, -, heq⟩
    · rw [heq] at hdown ⊢
      exact hb hdown
    · rw [heq] at hdown
      simp only [App.register] at hdown
      generalize (if found.isNone then b.seedFor req r else b).push = p at hdown
      rcases p.add_cases r.consumer r.cfg with ⟨_, _, _, -, -, -, hadd⟩ | ⟨-, hadd⟩ <;>
        · rw [hadd] at hdown
          contradiction
  | delivered clock id r now =>
    simp only [apply] at hdown ⊢
    rcases b.delivered_cases clock id r now with ⟨heq, -⟩ | ⟨pre, t, suf, hsubs, hid,
      ⟨-, suf', hperm, heq⟩ | ⟨hg, x, -, heq⟩⟩
    · rw [heq] at hdown ⊢
      exact hb hdown
    · -- a subscription that was deleted meanwhile
      rw [heq] at hdown ⊢
      have hrest := hb hdown
      have hmem : ∀ u ∈ pre ++ suf', u ∈ b.push.subs := fun u hu => by
        rcases List.mem_append.mp hu with hm | hm
        · simp [hsubs, hm]
        · simp [hsubs, hperm.mem_iff.mp hm]
      exact ⟨fun u hu => hrest.idle u (hmem u hu), fun u hu => hrest.drained u (hmem u hu)⟩
    · -- with the flag down none was outstanding
      rw [heq] at hdown
      have hwork : b.push.work = false := (Bool.or_eq_false_iff.mp hdown).2
      have ht : t ∈ b.push.subs := by simp [hsubs]
      have hidle := (hb hwork).idle t ht hg
      rw [ha t ht hid] at hidle
      contradiction
  | pump send now clock =>
    cases hwork : b.push.work with
    | false =>
      have heq : (b.pump V send now clock).app = b := by simp [App.pump, hwork]
      simp only [apply, heq]
      exact hb hwork
    | true => exact pump hV hr hwords hwork ha hdown
  | ack => exact ha.elim
  | unsubscribe => exact ha.elim
  | take => exact ha.elim
  | done => exact ha.elim
  | fail => exact ha.elim
  | trim => exact ha.elim
  | delete => exact ha.elim

theorem nothing (h : b.Drained) (hi : Pass.Informed b) {s : Psub} (hs : s ∈ b.push.subs)
    (hg : s.gone = false) {x : Bytes} (hm : s.isMatch x = true) :
    (⟨b.store, b.push, s⟩ : Scan).deliverable V clock x = false := by
  by_cases hx : x ∈ b.push.names
  · exact (h.drained s hs hg x hx hm).nothing clock
  · by_contra hd
    rw [Bool.not_eq_false] at hd
    exact hx (hi.known x (Scan.pos_of_deliverable hd))

end App.Drained

/-- A pass whose work flag is down passes over no subscription that has something to be sent. -/
def PushStep.Settles (V : Vendor) (x : PushStep) : Prop :=
  ∀ send now clock, x.op = .pump send now clock → x.before.push.work = false →
    ∀ s ∈ x.before.push.subs, s.Eligible now → ∀ y, s.isMatch y = true →
      (⟨x.before.store, x.before.push, s⟩ : Scan).deliverable V clock y = false

theorem PushOp.Rotates.succeeds {V : Vendor} {b : App} {op : PushOp} (ha : op.Rotates V b)
    (after : App) (sent : List Sent) :
    ∀ u ∈ (⟨op, b, after, sent⟩ : PushStep).turns V, u.succeeds V = true := by
  intro u hu
  simp only [PushStep.turns] at hu
  split at hu
  · split at hu
    · rename_i hwork
      exact ((ha hwork).1 u hu).1
    · exact absurd hu List.not_mem_nil
  · exact absurd hu List.not_mem_nil

end SukkalMsg
