import SukkalMsg.RegistryAgreement

/-!
# How long a pump lets its caller sleep

A pump that has nothing outstanding and sends nothing should let the caller sleep
until the first subscription in backoff is due or the first lease a worker waits
for lapses. It does so only while nothing waits at all: a subscription that waits
keeps the work flag up, and a pump whose flag stays up asks to be called at once.
-/

namespace SukkalMsg

open Std Names Binjson OrderedScan BoundedTable Store ActionRuns

/-- The times after now a subscription waits for: the end of its backoff, and the
lapse of a lease. -/
def Psub.waits (s : Psub) (now : ℕ) : List ℕ :=
  if s.gone || s.inflight then []
  else (if now < s.dueMs then [s.dueMs] else []) ++
    if s.cfg.group ≠ [] ∧ now < s.wakeMs then [s.wakeMs] else []

def Pusher.waits (p : Pusher) (now : ℕ) : List ℕ := p.subs.flatMap (·.waits now)

/-- The time until the first of them, and no longer than an idle broker sleeps. -/
def Pusher.sleep (p : Pusher) (now : ℕ) : ℕ :=
  match (p.waits now).min? with
  | none => PUSH_IDLE_MS
  | some d => min PUSH_IDLE_MS (d - now)

/-- The subscription is in backoff. -/
structure Psub.Backing (now : ℕ) (s : Psub) : Prop where
  here : s.gone = false
  idle : s.inflight = false
  due : now < s.dueMs

namespace Pusher

variable {p : Pusher} {now : ℕ}

theorem lt_of_mem_waits {d : ℕ} (h : d ∈ p.waits now) : now < d := by
  obtain ⟨s, -, hd⟩ := List.mem_flatMap.mp h
  simp only [Psub.waits] at hd
  split at hd
  · exact absurd hd List.not_mem_nil
  · rcases List.mem_append.mp hd with hd | hd
    · split at hd
      · obtain rfl := List.mem_singleton.mp hd
        assumption
      · exact absurd hd List.not_mem_nil
    · split at hd
      · rename_i hw
        obtain rfl := List.mem_singleton.mp hd
        exact hw.2
      · exact absurd hd List.not_mem_nil

theorem sleep_idle_iff : p.sleep now = PUSH_IDLE_MS ↔ ∀ d ∈ p.waits now, now + PUSH_IDLE_MS ≤ d := by
  simp only [sleep]
  split
  · rename_i hnone
    rw [List.min?_eq_none_iff] at hnone
    simp [hnone]
  · rename_i d hd
    obtain ⟨hmem, hle⟩ := List.min?_eq_some_iff.mp hd
    have hlt := lt_of_mem_waits hmem
    constructor
    · intro h e he
      have := hle e he
      omega
    · intro h
      have := h d hmem
      omega

end Pusher

namespace Scan

variable {V : Vendor} {clock : ℕ} {send : Psub → Bool} {a a' a'' : Scan}

/-- A scan tells the engine of channels at most, and changes of its subscription only
what describes a delivery. -/
structure Heeds (a a' : Scan) : Prop where
  push : a.push.Learnt a'.push
  sub : a.sub.Described a'.sub

theorem Heeds.refl : Heeds a a := ⟨.refl, .refl⟩

theorem Heeds.trans (h : Heeds a a') (h' : Heeds a' a'') : Heeds a a'' :=
  ⟨h.push.trans h'.push, h.sub.trans h'.sub⟩

theorem heeds_readBatch (i : ℕ) (name : Bytes) (acked : ℕ) :
    Heeds a (a.readBatch V i name acked).1 :=
  ⟨(searched_readBatch i name acked).push, (searched_readBatch i name acked).sub⟩

theorem heeds_offerBatch (i : ℕ) (name : Bytes) : Heeds a (a.offerBatch V i name).1 := by
  have hskip : ∀ acked base, Heeds a (a.skipTrimmed name acked base) := by
    intro acked base
    simp only [skipTrimmed]
    split
    · split <;> exact ⟨.refl, .refl⟩
    · exact .refl
  simp only [offerBatch]
  split
  · exact .refl
  split
  · exact .refl
  split
  · exact .refl
  split
  · exact hskip _ _
  · exact (hskip _ _).trans (heeds_readBatch _ _ _)

theorem heeds_loop (fuel n : ℕ) : Heeds a (loop V clock fuel n a).1 := by
  induction fuel generalizing a n with
  | zero => exact .refl
  | succ fuel ih =>
    have hoffer : ∀ i name, Heeds a (a.offer V clock i name).1 := by
      intro i name
      simp only [offer]
      split
      · have h := searched_offerJobs V clock (a := a) i name
        exact ⟨h.push, h.sub⟩
      · exact heeds_offerBatch i name
    simp only [loop]
    split
    · split
      · have h := hoffer ((a.sub.rr + n) % a.push.names.length)
          (a.push.names.getD ((a.sub.rr + n) % a.push.names.length) [])
        split
        · rename_i b hb
          rw [hb] at h
          exact h.trans (ih _)
        · rename_i b count hb
          rw [hb] at h
          exact h
      · exact ih _
    · exact .refl

variable (V clock) in
theorem heeds_search : Heeds a (a.search V clock).1 := by
  have h : Heeds a { a with sub := { a.sub with wakeMs := 0 } } := ⟨.refl, .of_fields ..⟩
  exact h.trans (heeds_loop _ _)

variable (V clock send) in
theorem startDelivery_fields : (a.startDelivery V clock send).2.sub.wakeMs =
      (a.search V clock).1.sub.wakeMs ∧
    a.sub.Asked (a.startDelivery V clock send).2.sub ∧
    (a.push.work = true → (a.startDelivery V clock send).2.push.work = true) := by
  have hsearch := heeds_search V clock (a := a)
  have hcases := startDelivery_cases V clock send (a := a)
  generalize a.search V clock = r at hsearch hcases
  obtain ⟨b, found⟩ := r
  dsimp only at hsearch hcases ⊢
  rcases hcases with ⟨heq, -⟩ | ⟨count, -, ⟨-, heq⟩ | ⟨-, heq⟩⟩ <;> rw [heq]
  · exact ⟨rfl, hsearch.sub.toAsked, hsearch.push.work⟩
  · exact ⟨rfl, hsearch.sub.toAsked.trans (Psub.asked_prepared _ _), hsearch.push.work⟩
  · exact ⟨rfl, (hsearch.sub.toAsked.trans (Psub.asked_prepared _ _)).trans (Psub.asked_flying _),
      hsearch.push.work⟩

end Scan

namespace Pass

variable {V : Vendor} {send : Psub → Bool} {now clock : ℕ}

/-- A turn that keeps the pass busy: an outstanding delivery, a backoff, or a lease
the search has come by. -/
def Detains (V : Vendor) (now clock : ℕ) (t : Pass) (s : Psub) : Prop :=
  s.gone = false ∧ (s.inflight = true ∨ s.Backing now ∨
    s.Eligible now ∧ ((Scan.search V clock ⟨t.store, t.push, s⟩).1.sub.wakeMs ≠ 0))

/-- What one turn of the pass does to its flags and counters. -/
structure Turned (V : Vendor) (now clock : ℕ) (t t' : Pass) (s s' : Psub) : Prop where
  busy : t'.busy = true ↔ t.busy = true ∨ Detains V now clock t s
  work : t.push.work = true → t'.push.work = true
  count : t'.started + t.sent.length = t.started + t'.sent.length
  due : t'.busy = false → t'.nextDue = t.nextDue
  asked : s.Asked s'
  wake : s.Eligible now → s'.wakeMs = (Scan.search V clock ⟨t.store, t.push, s⟩).1.sub.wakeMs
  skipped : ¬ s.Eligible now → s' = s

variable (V send now clock) in
theorem ask_turned (t : Pass) (s : Psub) :
    Turned V now clock t (t.ask V send now clock s).1 s (t.ask V send now clock s).2 := by
  have hfields := Scan.startDelivery_fields V clock send (a := ⟨t.store, t.push, s⟩)
  simp only [ask]
  split
  · -- gone
    rename_i hg
    have hnot : ¬ Detains V now clock t s := fun h => absurd (h.1.symm.trans hg) (by decide)
    exact ⟨by simp [hnot], fun h => h, rfl, fun _ => rfl, .refl,
      fun h => absurd (h.here.symm.trans hg) (by decide), fun _ => rfl⟩
  split
  · rename_i hg hf
    have hyes : Detains V now clock t s := ⟨by simpa using hg, .inl hf⟩
    exact ⟨by simp [hyes], fun h => h, rfl, (by intro h; contradiction), .refl,
      fun h => absurd (h.idle.symm.trans hf) (by decide), fun _ => rfl⟩
  split
  · rename_i hg hf hdue
    have hyes : Detains V now clock t s :=
      ⟨by simpa using hg, .inr (.inl ⟨by simpa using hg, by simpa using hf, hdue⟩)⟩
    exact ⟨by simp [hyes, waitFor], fun h => h, rfl, (by intro h; contradiction), .refl,
      fun h => absurd h.due (by omega), fun _ => rfl⟩
  rename_i hg hf hdue
  have helig : s.Eligible now := ⟨by simpa using hg, by simpa using hf, by omega⟩
  generalize hst : Scan.startDelivery V clock send ⟨t.store, t.push, s⟩ = r at hfields
  obtain ⟨started, a⟩ := r
  obtain ⟨hwake, hasked, hwork⟩ := hfields
  dsimp only at hwake hasked hwork
  have hdet : Detains V now clock t s ↔ a.sub.wakeMs ≠ 0 := by
    rw [hwake]
    constructor
    · rintro ⟨-, h | h | h⟩
      · simp [helig.idle] at h
      · exact absurd h.due hdue
      · exact h.2
    · exact fun h => ⟨helig.here, .inr (.inr ⟨helig, h⟩)⟩
  have hcount : (if started then t.started + 1 else t.started) + t.sent.length =
      t.started + (if started then t.sent ++ [⟨a.store, a.sub⟩] else t.sent).length := by
    cases started
    · rfl
    · simp only [if_true, List.length_append, List.length_singleton]
      omega
  dsimp only
  split
  · rename_i hw
    exact ⟨by simp [waitFor, hdet, hw], hwork, hcount, (by intro h; contradiction), hasked, fun _ => hwake,
      fun h => absurd helig h⟩
  · rename_i hw
    exact ⟨by simp [hdet, hw], hwork, hcount, fun _ => rfl, hasked, fun _ => hwake,
      fun h => absurd helig h⟩

def Detained (V : Vendor) (send : Psub → Bool) (now clock : ℕ) (t : Pass) (ss : List Psub) : Prop :=
  ∃ pre s suf, ss = pre ++ s :: suf ∧ Detains V now clock (askAll V send now clock t pre).1 s

theorem detained_cons {t : Pass} {s : Psub} {ss : List Psub} :
    Detained V send now clock t (s :: ss) ↔
      Detains V now clock t s ∨ Detained V send now clock (t.ask V send now clock s).1 ss := by
  constructor
  · rintro ⟨pre, u, suf, heq, hd⟩
    cases pre with
    | nil =>
      obtain ⟨rfl, rfl⟩ := List.cons.inj heq
      exact .inl hd
    | cons v pre =>
      obtain ⟨rfl, rfl⟩ := List.cons.inj heq
      exact .inr ⟨pre, u, suf, rfl, hd⟩
  · rintro (hd | ⟨pre, u, suf, rfl, hd⟩)
    · exact ⟨[], s, ss, rfl, hd⟩
    · exact ⟨s :: pre, u, suf, rfl, hd⟩

variable (V send now clock) in
theorem askAll_turned (t : Pass) (ss : List Psub) :
    let t' := (askAll V send now clock t ss).1
    (t'.busy = true ↔ t.busy = true ∨ Detained V send now clock t ss) ∧
      (t.push.work = true → t'.push.work = true) ∧
      t'.started + t.sent.length = t.started + t'.sent.length ∧
      (t'.busy = false → t'.nextDue = t.nextDue) := by
  induction ss generalizing t with
  | nil =>
    refine ⟨?_, fun h => h, rfl, fun _ => rfl⟩
    simp [askAll, Detained]
  | cons s ss ih =>
    have hturn := ask_turned V send now clock t s
    obtain ⟨hbusy, hwork, hcount, hdue⟩ := ih (t.ask V send now clock s).1
    have hcount₁ := hturn.count
    refine ⟨?_, fun h => hwork (hturn.work h), ?_, fun h => ?_⟩
    · simp only [askAll, hbusy, hturn.busy, detained_cons, or_assoc]
    · simp only [askAll]
      omega
    · simp only [askAll] at h ⊢
      have hfree : (t.ask V send now clock s).1.busy = false := by
        by_contra hb
        rw [Bool.not_eq_false] at hb
        rw [hbusy.mpr (.inl hb)] at h
        contradiction
      rw [hdue h, hturn.due hfree]

theorem askAll_waits {t : Pass} {ss : List Psub} (hfree : ¬ Detained V send now clock t ss) :
    ∀ s' ∈ (askAll V send now clock t ss).2, s'.waits now = [] := by
  induction ss generalizing t with
  | nil => exact fun s' hs' => absurd hs' List.not_mem_nil
  | cons s ss ih =>
    rw [detained_cons, not_or] at hfree
    have hturn := ask_turned V send now clock t s
    intro s' hs'
    rcases List.mem_cons.mp hs' with rfl | hs'
    · generalize (t.ask V send now clock s).2 = s' at hturn
      by_cases helig : s.Eligible now
      · have hwake : s'.wakeMs = 0 := by
          rw [hturn.wake helig]
          by_contra h
          exact hfree.1 ⟨helig.here, .inr (.inr ⟨helig, h⟩)⟩
        have hdue : ¬ now < s'.dueMs := by
          rw [hturn.asked.dueMs_eq]
          exact Nat.not_lt.mpr helig.due
        simp [Psub.waits, hwake, hdue]
      · obtain rfl := hturn.skipped helig
        cases hg : s'.gone with
        | true => simp [Psub.waits, hg]
        | false =>
          exfalso
          cases hf : s'.inflight with
          | true => exact hfree.1 ⟨hg, .inl hf⟩
          | false =>
            by_cases hdue : now < s'.dueMs
            · exact hfree.1 ⟨hg, .inr (.inl ⟨hg, hf, hdue⟩)⟩
            · exact helig ⟨hg, hf, by omega⟩
    · exact ih hfree.2 s' hs'

theorem askAll_inflight {t : Pass} {ss pre suf : List Psub} {s : Psub} (hss : ss = pre ++ s :: suf)
    (hf : s.inflight = true) : s ∈ (askAll V send now clock t ss).2 := by
  induction pre generalizing t ss with
  | nil =>
    subst hss
    have hturn := ask_turned V send now clock t s
    have hs := hturn.skipped fun h => absurd (h.idle.symm.trans hf) (by decide)
    exact List.mem_cons.mpr (.inl hs.symm)
  | cons u pre ih =>
    subst hss
    exact List.mem_cons_of_mem _ (ih rfl)

end Pass

def App.passStart (b : App) : Pass := ⟨b.store, b.push, 0, false, 0, []⟩

/-- A worker asked in the pass comes by a lease it has to wait for. -/
def App.MeetsLease (V : Vendor) (send : Psub → Bool) (now clock : ℕ) (b : App) : Prop :=
  ∃ pre s suf, b.push.subs = pre ++ s :: suf ∧ s.Eligible now ∧
    let t := (Pass.askAll V send now clock b.passStart pre).1
    (Scan.search V clock ⟨t.store, t.push, s⟩).1.sub.wakeMs ≠ 0

namespace App

variable {V : Vendor} {send : Psub → Bool} {now clock : ℕ} {b : App}

theorem busy_iff (hidle : ∀ s ∈ (b.pumpPass V send now clock).2, s.inflight = false) :
    (b.pumpPass V send now clock).1.busy = true ↔
      (∃ s ∈ b.push.subs, s.Backing now) ∨ b.MeetsLease V send now clock := by
  have hbusy := (Pass.askAll_turned V send now clock
    b.passStart b.push.subs).1
  have hstart : b.passStart.busy ≠ true := Bool.false_ne_true
  rw [pumpPass, ← passStart, hbusy]
  constructor
  · rintro (h | ⟨pre, s, suf, hss, hg, hf | hb | ⟨he, hw⟩⟩)
    · exact absurd h hstart
    · have := hidle s (Pass.askAll_inflight hss hf)
      rw [hf] at this
      contradiction
    · exact .inl ⟨s, by simp [hss], hb⟩
    · exact .inr ⟨pre, s, suf, hss, he, hw⟩
  · rintro (⟨s, hs, hb⟩ | ⟨pre, s, suf, hss, he, hw⟩)
    · obtain ⟨pre, suf, hss⟩ := List.append_of_mem hs
      exact .inr ⟨pre, s, suf, hss, hb.here, .inr (.inl hb)⟩
    · exact .inr ⟨pre, s, suf, hss, he.here, .inr (.inr ⟨he, hw⟩)⟩

variable (V send now clock) in
theorem waits_of_free (h : (b.pumpPass V send now clock).1.busy = false) :
    (b.pumpPass V send now clock).1.nextDue = 0 ∧
      ∀ s ∈ (b.pumpPass V send now clock).2, s.waits now = [] := by
  obtain ⟨hbusy, -, -, hdue⟩ := Pass.askAll_turned V send now clock b.passStart b.push.subs
  refine ⟨hdue h, Pass.askAll_waits fun hd => ?_⟩
  rw [pumpPass, ← passStart, hbusy.mpr (.inr hd)] at h
  contradiction

variable (V send now clock) in
theorem pumpPass_work (h : b.push.work = true) :
    (b.pumpPass V send now clock).1.push.work = true :=
  (Pass.askAll_turned V send now clock b.passStart
    b.push.subs).2.1 h

variable (V send now clock) in
theorem pumpPass_started :
    (b.pumpPass V send now clock).1.started = (b.pumpPass V send now clock).1.sent.length := by
  have h := (Pass.askAll_turned V send now clock b.passStart
    b.push.subs).2.2.1
  have h₀ : b.passStart.started = 0 ∧ b.passStart.sent.length = 0 := ⟨rfl, rfl⟩
  rw [h₀.1, h₀.2, Nat.add_zero, Nat.zero_add] at h
  exact h

end App

/-- A pump with nothing outstanding that sends nothing lets its caller sleep until the
first deadline exactly when its flag was down and no deadline comes before the longest
sleep, or its flag was up and nothing waits at all. -/
theorem pump_sleeps_iff (V : Vendor) (send : Psub → Bool) (now clock : ℕ) (b : App)
    (hcount : (b.pump V send now clock).app.push.inflight = 0)
    (hidle : ∀ s ∈ (b.pump V send now clock).app.push.subs, s.inflight = false)
    (hsent : (b.pump V send now clock).sent = []) :
    ((b.pump V send now clock).wait = (b.pump V send now clock).app.push.sleep now ∧
        0 < (b.pump V send now clock).wait) ↔
      (b.push.work = false → ∀ d ∈ b.push.waits now, now + PUSH_IDLE_MS ≤ d) ∧
      (b.push.work = true →
        (∀ s ∈ b.push.subs, ¬ s.Backing now) ∧ ¬ b.MeetsLease V send now clock) := by
  cases hwork : b.push.work with
  | false =>
    have heq : b.pump V send now clock = ⟨App.pumpWait b.push 0 now, [], b⟩ := by
      simp [App.pump, hwork]
    rw [heq] at hcount ⊢
    have hwait : App.pumpWait b.push 0 now = PUSH_IDLE_MS := by
      have hzero : b.push.inflight = 0 := hcount
      simp [App.pumpWait, hzero, hwork]
    dsimp only
    rw [hwait, eq_comm, Pusher.sleep_idle_iff]
    simp [PUSH_IDLE_MS]
  | true =>
    have hup := App.pumpPass_work V send now clock hwork
    have hstarted := App.pumpPass_started V send now clock (b := b)
    have hfree := App.waits_of_free V send now clock (b := b)
    simp only [App.pump, hwork, if_true] at hcount hidle hsent ⊢
    have hbusy := App.busy_iff hidle
    rw [hsent, List.length_nil] at hstarted
    have hnone : (∀ s ∈ b.push.subs, ¬ s.Backing now) ∧ ¬ b.MeetsLease V send now clock ↔
        (b.pumpPass V send now clock).1.busy = false := by
      rw [← Bool.not_eq_true, hbusy]
      push Not
      rfl
    simp only [Bool.true_eq_false, false_implies, true_and, true_implies, hnone, hstarted]
    cases ht : (b.pumpPass V send now clock).1.busy with
    | false =>
      obtain ⟨hdue, hwaits⟩ := hfree ht
      have hsleep : ∀ p : Pusher, p.subs = (b.pumpPass V send now clock).2 →
          p.sleep now = PUSH_IDLE_MS := by
        intro p hp
        rw [Pusher.sleep_idle_iff]
        intro d hd
        obtain ⟨s, hs, hds⟩ := List.mem_flatMap.mp hd
        rw [hwaits s (hp ▸ hs)] at hds
        exact absurd hds List.not_mem_nil
      have hpos : 0 < PUSH_IDLE_MS := by decide
      simp only [if_true, iff_true, App.pumpWait, hcount, hdue, ne_eq, hpos,
        not_true_eq_false, if_false, Bool.false_eq_true, and_true]
      exact (hsleep _ rfl).symm
    | true =>
      -- the flag stays up, and the caller is told not to sleep
      simp only [Bool.true_eq_false, and_false, if_false, App.pumpWait, hcount, ne_eq,
        not_true_eq_false, hup, if_true, Nat.lt_irrefl]

theorem Pusher.idle_of_all {p : Pusher} (h : (p.subs.all fun s => !s.inflight) = true) :
    ∀ s ∈ p.subs, s.inflight = false := by
  simpa using h

/-- A subscriber that could not be reached waits until 503 for the next attempt. -/
def unreachedBilling : App :=
  (run (pushExec .packing) (App.start .empty [] 0)
    (plainRun.take 3 ++ [.delivered 3 0 ⟨false, 0, none, [], []⟩ 3])).2

/-- Its broker should sleep 493 ms at 10, and is told to pump again at once. -/
theorem unreachedBilling_spins :
    (unreachedBilling.pump .packing (fun _ => true) 10 10).app.push.inflight = 0 ∧
    (∀ s ∈ (unreachedBilling.pump .packing (fun _ => true) 10 10).app.push.subs,
      s.inflight = false) ∧
    (unreachedBilling.pump .packing (fun _ => true) 10 10).sent = [] ∧
    (unreachedBilling.pump .packing (fun _ => true) 10 10).app.push.sleep 10 = 493 ∧
    (unreachedBilling.pump .packing (fun _ => true) 10 10).wait = 0 ∧
    ¬ ((unreachedBilling.pump .packing (fun _ => true) 10 10).wait =
        (unreachedBilling.pump .packing (fun _ => true) 10 10).app.push.sleep 10 ∧
      0 < (unreachedBilling.pump .packing (fun _ => true) 10 10).wait) := by
  refine ⟨?_, Pusher.idle_of_all ?_, List.isEmpty_iff.mp ?_, ?_, ?_, ?_⟩ <;> decide +kernel

/-- After a batch that was acknowledged nothing is left to send, nor to wait for. -/
theorem drainedBilling_sleeps_iff :
    let b := (run (pushExec .packing) (App.start .empty [] 0) plainRun).2
    let r := b.pump .packing (fun _ => true) 10 10
    (r.wait = r.app.push.sleep 10 ∧ 0 < r.wait) ↔
      (b.push.work = false → ∀ d ∈ b.push.waits 10, 10 + PUSH_IDLE_MS ≤ d) ∧
      (b.push.work = true →
        (∀ s ∈ b.push.subs, ¬ s.Backing 10) ∧ ¬ b.MeetsLease .packing (fun _ => true) 10 10) := by
  refine pump_sleeps_iff .packing (fun _ => true) 10 10 _ ?_ (Pusher.idle_of_all ?_)
    (List.isEmpty_iff.mp ?_) <;> decide +kernel

end SukkalMsg
