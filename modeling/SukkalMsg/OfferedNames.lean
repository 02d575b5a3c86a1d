import SukkalMsg.PassRules

/-!
# The names a pass reaches

A pass takes jobs from, and moves receipts of, no subjects but those that its
subscriptions match. Whatever such takes and such skips keep, a whole pass keeps.
-/

namespace SukkalMsg

open Std Names Binjson OrderedScan BoundedTable Store

/-- What matches the subscription is a subject for jobs, or one for batches, as the
subscription has a group or has none. -/
def Psub.MatchesIn (jobs batches : Bytes → Prop) (s : Psub) : Prop :=
  ∀ name, s.isMatch name = true → (s.cfg.group ≠ [] → jobs name) ∧ (s.cfg.group = [] → batches name)

theorem Psub.MatchesIn.congr {jobs batches : Bytes → Prop} {s s' : Psub}
    (h : s.MatchesIn jobs batches) (heq : s'.cfg = s.cfg) : s'.MatchesIn jobs batches := by
  intro name hname
  simp only [isMatch, heq] at hname ⊢
  exact h name hname

/-- Takes from the subjects for jobs and skips on those for batches are steps of the
relation, and so are their sequences. -/
structure MatchRule (V : Vendor) (jobs batches : Bytes → Prop) (R : App → App → Prop) : Prop where
  same : ∀ b b' : App, b'.store = b.store → R b b'
  trans : ∀ b b' b'' : App, R b b' → R b' b'' → R b b''
  take : ∀ (b b' : App) again now s g max lease t, jobs s → slash ∉ s →
    b.store.bjmTakeVia V again now s g max lease = .ok t → b'.store = t.store → R b b'
  skip : ∀ (b b' : App) s c n, batches s → slash ∉ s →
    b.store.bjmCursorSet s c n = .ok b'.store → R b b'

namespace MatchRule

variable {V : Vendor} {jobs batches : Bytes → Prop} {R : App → App → Prop} {send : Psub → Bool}
  {now clock : ℕ} {a : Scan} {name : Bytes}

theorem refl (hr : MatchRule V jobs batches R) (b : App) : R b b := hr.same b b rfl

variable (clock) in
theorem takeBatch (hr : MatchRule V jobs batches R) (a : Scan) (hn : slash ∉ name)
    (hj : jobs name) : R a.app (a.takeBatch V clock name).1.app := by
  simp only [Scan.takeBatch]
  split
  · exact hr.refl _
  · rename_i t ht
    have htaken : ∀ b' : App, b'.store = t.store → R a.app b' := fun b' heq =>
      hr.take a.app b' _ _ _ _ _ _ t hj hn ht heq
    split
    · exact htaken _ rfl
    · split <;> exact htaken _ rfl

variable (clock) in
theorem offerJobs (hr : MatchRule V jobs batches R) (a : Scan) (i : ℕ) (hn : slash ∉ name)
    (hj : jobs name) : R a.app (a.offerJobs V clock i name).1.app := by
  have htake := hr.takeBatch clock a hn hj
  simp only [Scan.offerJobs]
  split
  · rename_i b hb
    rw [hb] at htake
    exact hr.trans _ _ _ htake (hr.same _ _ (Scan.noteWake_fields b _).2.1)
  · rename_i b count hb
    rw [hb] at htake
    exact hr.trans _ _ _ htake (hr.same _ _ rfl)

theorem offerBatch (hr : MatchRule V jobs batches R) (a : Scan) (i : ℕ) (hn : slash ∉ name)
    (hb : batches name) : R a.app (a.offerBatch V i name).1.app := by
  have hskip : ∀ acked base, R a.app (a.skipTrimmed name acked base).app := by
    intro acked base
    simp only [Scan.skipTrimmed]
    split
    · split
      · exact hr.refl _
      · exact hr.skip a.app _ name a.sub.consumer _ hb hn ‹_›
    · exact hr.refl _
  have hread : ∀ (b : Scan) acked, R b.app (b.readBatch V i name acked).1.app := by
    intro b acked
    simp only [Scan.readBatch]
    split
    · exact hr.refl _
    · split <;> exact hr.same _ _ rfl
  simp only [Scan.offerBatch]
  split
  · exact hr.refl _
  split
  · exact hr.refl _
  split
  · exact hr.refl _
  split
  · exact hskip _ _
  · exact hr.trans _ _ _ (hskip _ _) (hread _ _)

variable (clock) in
theorem offer (hr : MatchRule V jobs batches R) (hs : a.sub.MatchesIn jobs batches) (i : ℕ)
    (hn : slash ∉ name) (hm : a.sub.isMatch name = true) :
    R a.app (a.offer V clock i name).1.app := by
  obtain ⟨hj, hb⟩ := hs name hm
  simp only [Scan.offer]
  split
  · rename_i hg
    exact hr.offerJobs clock a i hn (hj hg)
  · rename_i hg
    exact hr.offerBatch a i hn (hb (not_not.mp hg))

variable (clock) in
theorem loop (hr : MatchRule V jobs batches R) (ha : a.Sound) (hs : a.sub.MatchesIn jobs batches)
    (fuel n : ℕ) : R a.app (Scan.loop V clock fuel n a).1.app := by
  induction fuel generalizing a n with
  | zero => exact hr.refl _
  | succ fuel ih =>
    simp only [Scan.loop]
    split
    · have hname := Scan.names_getD ha.names ((a.sub.rr + n) % a.push.names.length)
      have hsearched :=
        Scan.searched_offer V clock ha ((a.sub.rr + n) % a.push.names.length) hname
      have hoffer := hr.offer clock hs ((a.sub.rr + n) % a.push.names.length) hname
      generalize a.push.names.getD ((a.sub.rr + n) % a.push.names.length) [] = name at *
      split
      · rename_i hm
        have hstep := hoffer hm
        split
        · rename_i b hb
          rw [hb] at hstep hsearched
          have hrest := ih (hsearched.sound ha) (hs.congr hsearched.sub.cfg_eq) (n + 1)
          exact hr.trans _ _ _ hstep hrest
        · rename_i b count hb
          rw [hb] at hstep
          exact hstep
      · exact ih ha hs _
    · exact hr.refl _

variable (send clock) in
theorem startDelivery (hr : MatchRule V jobs batches R) (ha : a.Sound)
    (hs : a.sub.MatchesIn jobs batches) : R a.app (a.startDelivery V clock send).2.app := by
  have hstep : R a.app (a.search V clock).1.app :=
    hr.loop clock (a := { a with sub.wakeMs := 0 }) ⟨ha.names, ha.base⟩ (hs.congr rfl) _ 0
  rcases Scan.startDelivery_cases V clock send (a := a) with
    ⟨hstart, -⟩ | ⟨count, -, ⟨-, hstart⟩ | ⟨-, hstart⟩⟩ <;> rw [hstart]
  · exact hstep
  · exact hr.trans _ _ _ hstep (hr.same _ _ rfl)
  · exact hr.trans _ _ _ hstep (hr.same _ _ rfl)

variable (send now clock) in
theorem ask (hr : MatchRule V jobs batches R) {t : Pass} (ht : t.Sound) {s : Psub}
    (hs : s.MatchesIn jobs batches) : R t.app (t.ask V send now clock s).1.app := by
  by_cases helig : s.Eligible now
  · have hstep := hr.startDelivery send clock (a := ⟨t.store, t.push, s⟩) ⟨ht.names, ht.base⟩ hs
    generalize hstart : Scan.startDelivery V clock send ⟨t.store, t.push, s⟩ = r at hstep
    obtain ⟨started, b⟩ := r
    obtain ⟨-, hstore, -, -, -⟩ := Pass.ask_of_start helig hstart
    exact hr.trans _ _ _ hstep (hr.same _ _ hstore)
  · obtain ⟨-, hstore, -, -, -⟩ := Pass.ask_of_not_eligible V send clock (t := t) helig
    exact hr.same _ _ hstore

variable (send now clock) in
theorem askAll (hr : MatchRule V jobs batches R) {t : Pass} (ht : t.Sound) {ss : List Psub}
    (hs : ∀ s ∈ ss, s.MatchesIn jobs batches) :
    R t.app (Pass.askAll V send now clock t ss).1.app := by
  induction ss generalizing t with
  | nil => exact hr.refl _
  | cons s ss ih =>
    have hstep := hr.ask send now clock ht (hs s List.mem_cons_self)
    have hrest := ih (Pass.ask_sound V send now clock ht s).1 fun s' hs' =>
      hs s' (List.mem_cons_of_mem _ hs')
    exact hr.trans _ _ _ hstep hrest

variable (send now clock) in
/-- A whole pass is a step of the relation. -/
theorem pump (hr : MatchRule V jobs batches R) {b : App} (hn : ∀ name ∈ b.push.names, slash ∉ name)
    (hw : b.store.Words) (hs : ∀ s ∈ b.push.subs, s.MatchesIn jobs batches) :
    R b (b.pump V send now clock).app := by
  simp only [App.pump]
  split
  · have hstep := hr.askAll send now clock (t := ⟨b.store, b.push, 0, false, 0, []⟩)
      ⟨hn, fun s => base_lt_of_words hw s⟩ hs
    exact hr.trans _ _ _ hstep (hr.same _ _ rfl)
  · exact hr.refl _

end MatchRule

end SukkalMsg
