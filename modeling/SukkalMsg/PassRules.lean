import SukkalMsg.FairRuns

/-!
# What a pass keeps

A pass takes from groups, telling the engine of the channel it has published to, and
moves receipts the log was trimmed past up to its base. Whatever both keep, from one
state of the broker to the next, a whole pass keeps; and before a batch is sent its
receipt was read.
-/

namespace SukkalMsg

open Std Names Binjson OrderedScan BoundedTable Store

/-- The receipt can be read, if there is one. -/
def Store.Reads (st : Store) (s c : Bytes) : Prop := ∃ found, st.bjmCursorGet s c = .ok found

/-- Takes and skips are steps of the relation, and so are their sequences. -/
structure PassRule (V : Vendor) (R : App → App → Prop) : Prop where
  same : ∀ b b' : App, b'.store = b.store → b'.push.names = b.push.names → R b b'
  trans : ∀ b b' b'' : App, R b b' → R b' b'' → R b b''
  take : ∀ (b : App) again now s g max lease t,
    b.store.bjmTakeVia V again now s g max lease = .ok t →
      R b ⟨t.store, b.push.notifyDead b.store s t.dead⟩
  skip : ∀ (b : App) s c found st, slash ∉ s → (b.store.logOf s).base < 2 ^ 64 →
    b.store.bjmCursorGet s c = .ok found → found.getD 0 < (b.store.logOf s).base →
    b.store.bjmCursorSet s c (b.store.logOf s).base = .ok st → R b ⟨st, b.push⟩

namespace PassRule

variable {V : Vendor} {R : App → App → Prop} {send : Psub → Bool} {now clock : ℕ} {a : Scan}

theorem refl (hr : PassRule V R) (b : App) : R b b := hr.same b b rfl rfl

variable (clock) in
theorem takeBatch (hr : PassRule V R) (a : Scan) (name : Bytes) :
    R a.app (a.takeBatch V clock name).1.app := by
  simp only [Scan.takeBatch]
  split
  · exact hr.refl _
  · rename_i t ht
    have htaken := hr.take a.app _ _ _ _ _ _ t ht
    split
    · exact htaken
    · split <;> exact htaken

variable (clock) in
theorem offerJobs (hr : PassRule V R) (a : Scan) (i : ℕ) (name : Bytes) :
    R a.app (a.offerJobs V clock i name).1.app := by
  have htake := hr.takeBatch clock a name
  simp only [Scan.offerJobs]
  split
  · rename_i b hb
    rw [hb] at htake
    obtain ⟨hpush, hstore, -⟩ := Scan.noteWake_fields b (a.reread V b name)
    simp only [Scan.app, hpush, hstore]
    exact htake
  · rename_i b count hb
    rw [hb] at htake
    exact htake

theorem skipTrimmed (hr : PassRule V R) (ha : a.Sound) {name : Bytes} (hn : slash ∉ name)
    {found : Option ℕ} (hget : a.store.bjmCursorGet name a.sub.consumer = .ok found) :
    R a.app (a.skipTrimmed name (found.getD 0) (a.store.logOf name).base).app := by
  simp only [Scan.skipTrimmed]
  split
  · rename_i hlow
    split
    · exact hr.refl _
    · rename_i st hset
      exact hr.skip a.app name a.sub.consumer found st hn (ha.base name) hget hlow hset
  · exact hr.refl _

/-- A batch is offered once the receipt was read. -/
theorem offerBatch (hr : PassRule V R) (ha : a.Sound) (i : ℕ) {name : Bytes} (hn : slash ∉ name) :
    R a.app (a.offerBatch V i name).1.app ∧
      ((a.offerBatch V i name).2.isSome → a.store.Reads name a.sub.consumer) := by
  have hread : ∀ (b : Scan) acked, (b.readBatch V i name acked).1.app = b.app := by
    intro b acked
    simp only [Scan.readBatch]
    split
    · rfl
    · split <;> rfl
  simp only [Scan.offerBatch]
  split
  · exact ⟨hr.refl _, by simp⟩
  rename_i base last bytes hinfo
  obtain ⟨-, rfl, rfl⟩ := Scan.subjectInfo_eq hinfo
  split
  · exact ⟨hr.refl _, by simp⟩
  rename_i found hget
  have hskip := hr.skipTrimmed ha hn hget
  split
  · exact ⟨hr.refl _, by simp⟩
  split
  · exact ⟨hskip, by simp⟩
  · rw [hread]
    exact ⟨hskip, fun _ => ⟨found, hget⟩⟩

variable (clock) in
theorem offer (hr : PassRule V R) (ha : a.Sound) (i : ℕ) {name : Bytes} (hn : slash ∉ name) :
    R a.app (a.offer V clock i name).1.app ∧ (a.sub.cfg.group = [] →
      (a.offer V clock i name).2.isSome → a.store.Reads name a.sub.consumer) := by
  simp only [Scan.offer]
  split
  · rename_i hg
    exact ⟨hr.offerJobs clock a i name, fun hg' => absurd hg' hg⟩
  · obtain ⟨hstep, hread⟩ := hr.offerBatch (V := V) ha i hn
    exact ⟨hstep, fun _ => hread⟩

variable (clock) in
/-- What a search comes to is described by a subscription whose receipt was read. -/
theorem loop (hr : PassRule V R) (ha : a.Sound) (fuel n : ℕ) :
    R a.app (Scan.loop V clock fuel n a).1.app ∧ ((Scan.loop V clock fuel n a).2.isSome →
      a.sub.cfg.group = [] → ∃ b, R a.app b ∧
        b.store.Reads (Scan.loop V clock fuel n a).1.sub.subject a.sub.consumer) := by
  induction fuel generalizing a n with
  | zero => exact ⟨hr.refl _, by simp [Scan.loop]⟩
  | succ fuel ih =>
    simp only [Scan.loop]
    split
    · have hname := Scan.names_getD ha.names ((a.sub.rr + n) % a.push.names.length)
      have hsearched :=
        Scan.searched_offer V clock ha ((a.sub.rr + n) % a.push.names.length) hname
      obtain ⟨hoffer, hread⟩ :=
        hr.offer clock ha ((a.sub.rr + n) % a.push.names.length) hname
      generalize hfound : a.push.names.getD ((a.sub.rr + n) % a.push.names.length) [] = name at *
      split
      · split
        · rename_i b hb
          rw [hb] at hoffer hsearched
          obtain ⟨hrest, hreads⟩ := ih (hsearched.sound ha) (n + 1)
          refine ⟨hr.trans _ _ _ hoffer hrest, fun hsome hg => ?_⟩
          rw [hsearched.sub.cfg_eq, hsearched.sub.consumer_eq] at hreads
          obtain ⟨b', hb', hreads⟩ := hreads hsome hg
          exact ⟨b', hr.trans _ _ _ hoffer hb', hreads⟩
        · rename_i b count hb
          rw [hb] at hoffer hread
          refine ⟨hoffer, fun _ hg => ⟨a.app, hr.refl _, ?_⟩⟩
          have hsubject : b.sub.subject = name := by
            simp only [Scan.offer, hg, ne_eq, not_true_eq_false, if_false] at hb
            exact (Scan.behind_offerBatch ha hname hb).2
          dsimp only
          rw [hsubject]
          exact hread hg rfl
      · exact ih ha _
    · exact ⟨hr.refl _, by simp⟩

variable (clock) in
theorem startDelivery (hr : PassRule V R) (ha : a.Sound) (send : Psub → Bool) :
    R a.app (a.startDelivery V clock send).2.app ∧ ((a.startDelivery V clock send).1 = true →
      a.sub.cfg.group = [] → ∃ b, R a.app b ∧
        b.store.Reads (a.startDelivery V clock send).2.sub.subject a.sub.consumer) := by
  obtain ⟨hstep, hread⟩ : R a.app (a.search V clock).1.app ∧ ((a.search V clock).2.isSome →
      a.sub.cfg.group = [] → ∃ b, R a.app b ∧
        b.store.Reads (a.search V clock).1.sub.subject a.sub.consumer) :=
    hr.loop clock (a := { a with sub.wakeMs := 0 }) ⟨ha.names, ha.base⟩ _ 0
  rcases Scan.startDelivery_cases V clock send (a := a) with
    ⟨hstart, -⟩ | ⟨count, hcount, ⟨-, hstart⟩ | ⟨-, hstart⟩⟩ <;> rw [hstart]
  · exact ⟨hstep, by simp⟩
  · exact ⟨hstep, by simp⟩
  · exact ⟨hr.trans _ _ _ hstep (hr.same _ _ rfl rfl), fun _ hg => hread (by simp [hcount]) hg⟩

/-- The delivery is to a worker, or its receipt was read at a state the pass came by. -/
def ReadAfter (R : App → App → Prop) (b : App) (d : Sent) : Prop :=
  d.sub.cfg.group = [] → ∃ b', R b b' ∧ b'.store.Reads d.sub.subject d.sub.consumer

variable (send now clock) in
theorem ask (hr : PassRule V R) {t : Pass} (ht : t.Sound) (s : Psub) :
    R t.app (t.ask V send now clock s).1.app ∧
      ∀ d ∈ (t.ask V send now clock s).1.sent, d ∈ t.sent ∨ ReadAfter R t.app d := by
  by_cases helig : s.Eligible now
  · have hsound : Scan.Sound ⟨t.store, t.push, s⟩ := ⟨ht.names, ht.base⟩
    obtain ⟨hstep, hread⟩ := hr.startDelivery clock hsound send
    generalize hstart : Scan.startDelivery V clock send ⟨t.store, t.push, s⟩ = r at hstep hread
    obtain ⟨started, b⟩ := r
    obtain ⟨hsub, hstore, hpush, -, hsent⟩ := Pass.ask_of_start helig hstart
    have hasked : s.Asked b.sub := by
      obtain ⟨ds, -, hturn, -⟩ := Pass.ask_pumpTurn V send now clock ht s
      exact hsub ▸ hturn.toAsked
    refine ⟨?_, fun d hd => ?_⟩
    · simp only [Pass.app, hstore, hpush]
      exact hstep
    · rw [hsent] at hd
      cases started with
      | false => exact .inl hd
      | true =>
        rcases List.mem_append.mp hd with hd | hd
        · exact .inl hd
        · obtain rfl := List.mem_singleton.mp hd
          refine .inr fun hg => ?_
          obtain ⟨b', hb', hreads⟩ := hread rfl (hasked.cfg_eq ▸ hg)
          exact ⟨b', hb', hasked.consumer_eq.symm ▸ hreads⟩
  · obtain ⟨-, hstore, hpush, -, hsent⟩ := Pass.ask_of_not_eligible V send clock (t := t) helig
    refine ⟨?_, fun d hd => .inl (hsent ▸ hd)⟩
    simp only [Pass.app, hstore, hpush]
    exact hr.refl _

variable (send now clock) in
theorem askAll (hr : PassRule V R) {t : Pass} (ht : t.Sound) (ss : List Psub) :
    R t.app (Pass.askAll V send now clock t ss).1.app ∧
      ∀ d ∈ (Pass.askAll V send now clock t ss).1.sent, d ∈ t.sent ∨ ReadAfter R t.app d := by
  induction ss generalizing t with
  | nil => exact ⟨hr.refl _, fun d hd => .inl hd⟩
  | cons s ss ih =>
    obtain ⟨hstep, hsent⟩ := hr.ask send now clock ht s
    obtain ⟨hrest, hsent'⟩ := ih (Pass.ask_sound V send now clock ht s).1
    refine ⟨hr.trans _ _ _ hstep hrest, fun d hd => ?_⟩
    rcases hsent' d hd with hd | hd
    · exact hsent d hd
    · refine .inr fun hg => ?_
      obtain ⟨b', hb', hreads⟩ := hd hg
      exact ⟨b', hr.trans _ _ _ hstep hb', hreads⟩

variable (send now clock) in
theorem pump (hr : PassRule V R) {b : App} (hn : ∀ name ∈ b.push.names, slash ∉ name)
    (hw : b.store.Words) : R b (b.pump V send now clock).app ∧
      ∀ d ∈ (b.pump V send now clock).sent, ReadAfter R b d := by
  simp only [App.pump]
  split
  · obtain ⟨hstep, hsent⟩ := hr.askAll send now clock
      (t := ⟨b.store, b.push, 0, false, 0, []⟩) ⟨hn, fun s => base_lt_of_words hw s⟩ b.push.subs
    refine ⟨hr.trans _ _ _ hstep (hr.same _ _ rfl rfl), fun d hd => ?_⟩
    exact (hsent d hd).resolve_left List.not_mem_nil
  · exact ⟨hr.refl _, fun d hd => absurd hd List.not_mem_nil⟩

end PassRule

end SukkalMsg
