import SukkalMsg.FairTurns
import SukkalMsg.PushStart

/-!
# Runs in which every subject has its turn

The engine learns of every subject that gets a message, a subscription keeps its
round-robin cursor from one turn to the next, and the names only grow at their end.
So along a whole run a subject with something to deliver waits for each of the others
once at most, and a turn that starts nothing has nothing to start.
-/

namespace SukkalMsg

open Std Names Binjson OrderedScan BoundedTable Store ActionRuns

/-- What a step leaves of the engine's names: they grow, without repetition, and hold
every subject that was published to. -/
structure App.Told (b b' : App) : Prop where
  longer : b.push.names <+: b'.push.names
  nodup : b.push.names.Nodup → b'.push.names.Nodup
  told : ∀ x, (b'.store.logOf x).last ≠ (b.store.logOf x).last → x ∈ b'.push.names

namespace App.Told

variable {b b' b'' : App}

theorem refl : Told b b := ⟨List.prefix_rfl, fun h => h, fun _ h => absurd rfl h⟩

theorem trans (h : Told b b') (h' : Told b' b'') : Told b b'' := by
  refine ⟨h.longer.trans h'.longer, fun hn => h'.nodup (h.nodup hn), fun x hx => ?_⟩
  by_cases hsame : (b''.store.logOf x).last = (b'.store.logOf x).last
  · exact h'.longer.subset (h.told x (hsame ▸ hx))
  · exact h'.told x hsame

theorem of_same (hn : b'.push.names = b.push.names)
    (hl : ∀ x, (b'.store.logOf x).last = (b.store.logOf x).last) : Told b b' := by
  refine ⟨?_, fun h => ?_, fun x hx => absurd (hl x) hx⟩
  · exact hn ▸ List.prefix_rfl
  · rwa [hn]

theorem of_logs (hn : b'.push.names = b.push.names) (hl : b'.store.logs = b.store.logs) :
    Told b b' :=
  .of_same hn fun x => by simp only [logOf, hl]

theorem of_take {V : Vendor} {again : Store → Bytes} {now : ℕ} {s g : Bytes} {max : ℤ}
    {lease : ℕ} {t : Taken} (h : b.store.bjmTakeVia V again now s g max lease = .ok t) :
    Told b ⟨t.store, b.push.notifyDead b.store s t.dead⟩ :=
  have htells := b.push.tells_notifyDead b.store s t.dead
  ⟨htells.longer, htells.nodup, take_told h b.push⟩

theorem known (h : Told b b') (hk : ∀ x, 0 < (b.store.logOf x).last → x ∈ b.push.names) :
    ∀ x, 0 < (b'.store.logOf x).last → x ∈ b'.push.names := by
  intro x hx
  by_cases hsame : (b'.store.logOf x).last = (b.store.logOf x).last
  · exact h.longer.subset (hk x (hsame ▸ hx))
  · exact h.told x hsame

end App.Told

/-- The store and the engine of a scan. -/
def Scan.app (a : Scan) : App := ⟨a.store, a.push⟩

/-- The store and the engine of a pass. -/
def Pass.app (t : Pass) : App := ⟨t.store, t.push⟩

namespace Scan

variable {V : Vendor} {clock : ℕ} {a a' : Scan}

variable (V clock) in
theorem told_takeBatch (a : Scan) (name : Bytes) : a.app.Told (a.takeBatch V clock name).1.app := by
  simp only [takeBatch]
  split
  · exact .refl
  · rename_i t ht
    have htold : a.app.Told ⟨t.store, a.push.notifyDead a.store name t.dead⟩ := .of_take ht
    split
    · exact htold
    · split <;> exact htold

variable (V clock) in
theorem told_offer (a : Scan) (i : ℕ) (name : Bytes) :
    a.app.Told (a.offer V clock i name).1.app := by
  simp only [offer]
  split
  · have htake := told_takeBatch V clock a name
    simp only [offerJobs]
    split
    · rename_i b hb
      rw [hb] at htake
      obtain ⟨hpush, hstore, -⟩ := noteWake_fields b (a.reread V b name)
      simp only [app, hpush, hstore]
      exact htake
    · rename_i b count hb
      rw [hb] at htake
      exact htake
  · obtain ⟨hpush, hstore, -⟩ := offerBatch_fields V a i name
    refine .of_logs (congrArg Pusher.names hpush) ?_
    simp only [app]
    rw [hstore]

theorem told_loop (ha : a.Sound) (fuel n : ℕ) :
    a.app.Told (loop V clock fuel n a).1.app ∧
      ((loop V clock fuel n a).1.sub.rr = a.sub.rr ∨
        (loop V clock fuel n a).1.sub.rr < (loop V clock fuel n a).1.push.names.length) := by
  induction fuel generalizing a n with
  | zero => exact ⟨.refl, .inl rfl⟩
  | succ fuel ih =>
    simp only [loop]
    split
    · rename_i hn
      have hname := names_getD ha.names ((a.sub.rr + n) % a.push.names.length)
      have htold := told_offer V clock a ((a.sub.rr + n) % a.push.names.length)
        (a.push.names.getD ((a.sub.rr + n) % a.push.names.length) [])
      have hsearched := searched_offer V clock ha ((a.sub.rr + n) % a.push.names.length) hname
      have hsteers := offer_steers V clock a ((a.sub.rr + n) % a.push.names.length)
        (a.push.names.getD ((a.sub.rr + n) % a.push.names.length) [])
      split
      · split
        · rename_i b hb
          rw [hb] at htold hsearched hsteers
          obtain ⟨htold', hrr⟩ := ih (hsearched.sound ha) (n + 1)
          have hsame : b.sub.rr = a.sub.rr := hsteers.1 rfl
          exact ⟨htold.trans htold', hsame ▸ hrr⟩
        · rename_i b count hb
          rw [hb] at htold hsteers
          have hslot : b.sub.rr = _ % b.push.names.length := hsteers.2 (by simp)
          have hlen := htold.longer.length_le
          simp only [app] at hlen
          exact ⟨htold, .inr (hslot ▸ Nat.mod_lt _ (by omega))⟩
      · exact ih ha _
    · exact ⟨.refl, .inl rfl⟩

variable (V clock) in
theorem told_startDelivery (ha : a.Sound) (send : Psub → Bool) :
    a.app.Told (a.startDelivery V clock send).2.app ∧
      ((a.startDelivery V clock send).2.sub.rr = a.sub.rr ∨
        (a.startDelivery V clock send).2.sub.rr <
          (a.startDelivery V clock send).2.push.names.length) := by
  obtain ⟨htold, hrr⟩ : a.app.Told (a.search V clock).1.app ∧
      ((a.search V clock).1.sub.rr = a.sub.rr ∨
        (a.search V clock).1.sub.rr < (a.search V clock).1.push.names.length) :=
    told_loop (a := { a with sub.wakeMs := 0 }) ⟨ha.names, ha.base⟩ _ 0
  rcases startDelivery_cases V clock send (a := a) with
    ⟨hstart, -⟩ | ⟨count, -, ⟨-, hstart⟩ | ⟨-, hstart⟩⟩ <;> rw [hstart]
  · exact ⟨htold, hrr⟩
  · exact ⟨htold, hrr⟩
  · exact ⟨htold.trans (.of_logs rfl rfl), hrr⟩

end Scan

instance Psub.decidableEligible (s : Psub) (now : ℕ) : Decidable (s.Eligible now) :=
  decidable_of_iff (s.gone = false ∧ s.inflight = false ∧ s.dueMs ≤ now)
    ⟨fun h => ⟨h.1, h.2.1, h.2.2⟩, fun h => ⟨h.here, h.idle, h.due⟩⟩

namespace Pass

variable (V : Vendor) (send : Psub → Bool) (now clock : ℕ)

/-- The turns of a pass: one for each subscription it may start a delivery for. -/
def turns : Pass → List Psub → List PassTurn
  | _, [] => []
  | t, s :: ss =>
    (if s.Eligible now then [⟨⟨t.store, t.push, s⟩, clock, send⟩] else []) ++
      turns (t.ask V send now clock s).1 ss

end Pass

namespace Pass

variable {V : Vendor} {send : Psub → Bool} {now clock : ℕ}

/-- The cursor is at the start, or at a slot of the table. -/
def Placed (names : List Bytes) (s : Psub) : Prop := s.rr = 0 ∨ s.rr < names.length

theorem Placed.longer {names names' : List Bytes} {s : Psub} (h : Placed names s)
    (hl : names <+: names') : Placed names' s :=
  h.imp id fun h => Nat.lt_of_lt_of_le h hl.length_le

/-- The engine knows every subject with messages, and no name twice. -/
structure Informed (b : App) : Prop where
  nodup : b.push.names.Nodup
  known : ∀ x, 0 < (b.store.logOf x).last → x ∈ b.push.names

theorem Informed.told {b b' : App} (h : Informed b) (ht : b.Told b') : Informed b' :=
  ⟨ht.nodup h.nodup, ht.known h.known⟩

variable (V send now clock) in
theorem ask_told {t : Pass} (ht : t.Sound) (s : Psub) :
    t.app.Told (t.ask V send now clock s).1.app ∧
      (¬ s.Eligible now → (t.ask V send now clock s).2 = s) ∧
      (s.Eligible now → (t.ask V send now clock s).2 =
          (PassTurn.after V ⟨⟨t.store, t.push, s⟩, clock, send⟩).sub ∧
        (t.ask V send now clock s).1.app =
          (PassTurn.after V ⟨⟨t.store, t.push, s⟩, clock, send⟩).app) ∧
      ((t.ask V send now clock s).2.rr = s.rr ∨
        (t.ask V send now clock s).2.rr < (t.ask V send now clock s).1.push.names.length) := by
  by_cases helig : s.Eligible now
  · have hsound : Scan.Sound ⟨t.store, t.push, s⟩ := ⟨ht.names, ht.base⟩
    obtain ⟨htold, hrr⟩ := Scan.told_startDelivery V clock hsound send
    generalize hstart : Scan.startDelivery V clock send ⟨t.store, t.push, s⟩ = r at htold hrr
    obtain ⟨started, a⟩ := r
    have hafter : PassTurn.after V ⟨⟨t.store, t.push, s⟩, clock, send⟩ = a := by
      simp only [PassTurn.after, hstart]
    obtain ⟨h₁, h₂, h₃, -⟩ := ask_of_start helig hstart
    simp only [app, h₁, h₂, h₃, hafter]
    exact ⟨htold, fun h => absurd helig h, fun _ => ⟨trivial, rfl⟩, hrr⟩
  · obtain ⟨h₁, h₂, h₃, -⟩ := ask_of_not_eligible V send clock (t := t) helig
    simp only [app, h₁, h₂, h₃]
    exact ⟨.refl, fun _ => trivial, fun h => absurd h helig, .inl trivial⟩

variable (V send now clock) in
theorem ask_sound {t : Pass} (ht : t.Sound) (s : Psub) :
    (t.ask V send now clock s).1.Sound ∧ (t.ask V send now clock s).2.id = s.id := by
  obtain ⟨ds, -, hturn, hstore, hpush, -⟩ := ask_pumpTurn V send now clock ht s
  exact ⟨ht.passed hstore hpush, hturn.toAsked.id_eq⟩

variable (V send now clock) in
theorem told_askAll {t : Pass} (ht : t.Sound) (ss : List Psub) :
    t.app.Told (askAll V send now clock t ss).1.app := by
  induction ss generalizing t with
  | nil => exact .refl
  | cons s ss ih =>
    exact (ask_told V send now clock ht s).1.trans (ih (ask_sound V send now clock ht s).1)

variable (V send now clock) in
theorem askAll_turns {t : Pass} (ht : t.Sound) (hi : Informed t.app) (ss : List Psub)
    (hp : ∀ s ∈ ss, Placed t.push.names s) :
    (∀ s' ∈ (askAll V send now clock t ss).2,
        Placed (askAll V send now clock t ss).1.push.names s') ∧
      ∀ u ∈ turns V send now clock t ss, u.Ready ∧
        (u.after V).push.names <+: (askAll V send now clock t ss).1.push.names := by
  induction ss generalizing t with
  | nil =>
    exact ⟨fun s' hs' => absurd hs' List.not_mem_nil, fun u hu => absurd hu List.not_mem_nil⟩
  | cons s ss ih =>
    obtain ⟨htold, -, hasked, hrr⟩ := ask_told V send now clock ht s
    have hsound := (ask_sound V send now clock ht s).1
    have htold' := told_askAll V send now clock hsound ss
    have hplaced := hp s List.mem_cons_self
    have hrest := fun u (hu : u ∈ ss) => (hp u (List.mem_cons_of_mem s hu)).longer htold.longer
    obtain ⟨hplaced', hturns⟩ := ih hsound (hi.told htold) hrest
    refine ⟨fun s' hs' => ?_, fun u hu => ?_⟩
    · rcases List.mem_cons.mp hs' with rfl | hs'
      · refine Placed.longer ?_ htold'.longer
        rcases hrr with hrr | hrr
        · exact (hplaced.longer htold.longer).imp hrr.trans fun h => hrr ▸ h
        · exact .inr hrr
      · exact hplaced' s' hs'
    · rcases List.mem_append.mp hu with hu | hu
      · split at hu
        · rename_i helig
          obtain rfl := List.mem_singleton.mp hu
          refine ⟨⟨⟨ht.names, ht.base⟩, hi.nodup, fun hsome => ?_, hi.known⟩, ?_⟩
          · have hpos := List.length_pos_of_ne_nil hsome
            rcases hplaced with h | h
            · exact Nat.lt_of_le_of_lt (Nat.le_of_eq h) hpos
            · exact h
          · have hafter := congrArg (fun b : App => b.push.names) (hasked helig).2
            exact hafter ▸ htold'.longer
        · exact absurd hu List.not_mem_nil
      · exact hturns u hu

variable (V send now clock) in
/-- A subscription has one turn in a pass at most, and keeps its cursor elsewhere. -/
theorem turns_of_id {t : Pass} (ht : t.Sound) (ss : List Psub) (hids : (ss.map Psub.id).Nodup)
    (k : ℕ) :
    ((turns V send now clock t ss).filter (·.scan.sub.id == k) = [] ∧
        ∀ s' ∈ (askAll V send now clock t ss).2, s'.id = k → s' ∈ ss) ∨
      ∃ u, (turns V send now clock t ss).filter (·.scan.sub.id == k) = [u] ∧ u.scan.sub ∈ ss ∧
        ∀ s' ∈ (askAll V send now clock t ss).2, s'.id = k → s'.rr = (u.after V).sub.rr := by
  induction ss generalizing t with
  | nil => exact .inl ⟨rfl, fun s' hs' => absurd hs' List.not_mem_nil⟩
  | cons s ss ih =>
    obtain ⟨-, hskip, hasked, -⟩ := ask_told V send now clock ht s
    obtain ⟨hsound, hid⟩ := ask_sound V send now clock ht s
    rw [List.map_cons, List.nodup_cons] at hids
    have htail := ih hsound hids.2
    simp only [turns, askAll, List.filter_append]
    by_cases hk : s.id = k
    · -- the other rows have other ids
      have hnone : (turns V send now clock (t.ask V send now clock s).1 ss).filter
            (·.scan.sub.id == k) = [] ∧
          ∀ s' ∈ (askAll V send now clock (t.ask V send now clock s).1 ss).2, s'.id ≠ k := by
        have hfresh : ∀ u ∈ ss, u.id ≠ k := fun u hu he =>
          hids.1 (List.mem_map.mpr ⟨u, hu, he.trans hk.symm⟩)
        rcases htail with ⟨hturns, hrows⟩ | ⟨u, hturns, hu, -⟩
        · exact ⟨hturns, fun s' hs' he => hfresh s' (hrows s' hs' he) he⟩
        · have hmem : u ∈ [u] := List.mem_singleton_self u
          rw [← hturns, List.mem_filter] at hmem
          exact absurd (by simpa using hmem.2) (hfresh _ hu)
      rw [hnone.1, List.append_nil]
      by_cases he : s.Eligible now
      · refine .inr ⟨⟨⟨t.store, t.push, s⟩, clock, send⟩, by simp [he, hk], List.mem_cons_self,
          fun s' hs' hid' => ?_⟩
        rcases List.mem_cons.mp hs' with rfl | hs'
        · rw [(hasked he).1]
        · exact absurd hid' (hnone.2 s' hs')
      · refine .inl ⟨by simp [he], fun s' hs' hid' => ?_⟩
        rcases List.mem_cons.mp hs' with rfl | hs'
        · rw [hskip he]
          exact List.mem_cons_self
        · exact absurd hid' (hnone.2 s' hs')
    · have hhead : (if s.Eligible now then [(⟨⟨t.store, t.push, s⟩, clock, send⟩ : PassTurn)]
          else []).filter (·.scan.sub.id == k) = [] := by
        split <;> simp [hk]
      rw [hhead, List.nil_append]
      have hrow : ∀ {s' : Psub}, s' ∈ (t.ask V send now clock s).2 ::
          (askAll V send now clock (t.ask V send now clock s).1 ss).2 → s'.id = k →
            s' ∈ (askAll V send now clock (t.ask V send now clock s).1 ss).2 := by
        intro s' hs' hid'
        rcases List.mem_cons.mp hs' with rfl | hs'
        · exact absurd (hid.symm.trans hid') hk
        · exact hs'
      rcases htail with ⟨hturns, hrows⟩ | ⟨u, hturns, hu, hrows⟩
      · exact .inl ⟨hturns, fun s' hs' hid' =>
          List.mem_cons_of_mem s (hrows s' (hrow hs' hid') hid')⟩
      · exact .inr ⟨u, hturns, List.mem_cons_of_mem s hu, fun s' hs' hid' =>
          hrows s' (hrow hs' hid') hid'⟩

end Pass

/-- The turns of a step: a pump whose work flag is up gives one to each subscription that
may start a delivery. -/
def PushStep.turns (V : Vendor) (x : PushStep) : List PassTurn :=
  match x.op with
  | .pump send now clock =>
    if x.before.push.work then
      Pass.turns V send now clock ⟨x.before.store, x.before.push, 0, false, 0, []⟩
        x.before.push.subs
    else []
  | _ => []

/-- The turns of one subscription along a history. -/
def turnsOf (V : Vendor) (id : ℕ) (h : List PushStep) : List PassTurn :=
  (h.flatMap (PushStep.turns V)).filter (·.scan.sub.id == id)

theorem turnsOf_snoc (V : Vendor) (id : ℕ) (h : List PushStep) (x : PushStep) :
    turnsOf V id (h ++ [x]) =
      turnsOf V id h ++ (x.turns V).filter (·.scan.sub.id == id) := by
  simp [turnsOf]

/-- A step other than a pump makes no turns. -/
def PushOp.Quiet : PushOp → Prop
  | .pump .. => False
  | _ => True

theorem PushStep.turns_of_quiet {V : Vendor} {x : PushStep} (h : x.op.Quiet) : x.turns V = [] := by
  simp only [turns]
  split
  · rename_i hop
    rw [hop] at h
    exact h.elim
  · rfl

namespace Pusher

variable {p : Pusher}

theorem namesAdd_grows (p : Pusher) (name : Bytes) :
    p.names <+: (p.namesAdd name).names ∧ (p.names.Nodup → (p.namesAdd name).names.Nodup) := by
  simp only [namesAdd]
  split
  · exact ⟨List.prefix_rfl, fun hn => hn⟩
  · rename_i hnew
    refine ⟨List.prefix_append _ _, fun hn => ?_⟩
    simp only [List.nodup_append, hn, List.nodup_singleton, List.mem_singleton, true_and]
    rintro y hy z rfl rfl
    exact hnew hy

theorem add_names (p : Pusher) (c : Bytes) (cfg : PushSub) : (p.add c cfg).names = p.names := by
  rcases p.add_cases c cfg with ⟨pre, s, suf, -, -, -, hadd⟩ | ⟨-, hadd⟩ <;> rw [hadd]

theorem remove_names (p : Pusher) (c : Bytes) : (p.remove c).names = p.names := by
  rcases p.remove_cases c with ⟨heq, -⟩ | ⟨pre, s, suf, -, -, -, ⟨-, heq⟩ | ⟨-, suf', -, heq⟩⟩ <;>
    rw [heq]

end Pusher

namespace App

variable {V : Vendor} {b : App}

theorem names_apply {op : PushOp} (hq : ¬ op.Logging) :
    (b.apply V op).2.push.names = b.push.names := by
  cases op with
  | publish => exact absurd trivial hq
  | take => exact absurd trivial hq
  | trim => exact absurd trivial hq
  | pump => exact absurd trivial hq
  | ack => simp only [apply, stored_push]
  | unsubscribe => simp only [apply, stored_push]
  | done => simp only [apply, stored_push]
  | fail => simp only [apply, stored_push]
  | put req =>
    simp only [apply]
    rcases b.hPushPut_push req with heq | ⟨r, found, -, -, heq⟩
    · rw [heq]
    · rw [heq]
      simp only [register, Pusher.add_names]
      split
      · rw [seedFor_push]
        split <;> rfl
      · rfl
  | delete req =>
    simp only [apply]
    rcases b.hPushDelete_push req with heq | ⟨c, -, heq, -⟩
    · rw [heq]
    · rw [heq, Pusher.remove_names]
  | delivered clock id r now =>
    simp only [apply]
    rcases b.delivered_cases clock id r now with ⟨heq, -⟩ | ⟨pre, t, suf, -, -,
      ⟨-, suf', -, heq⟩ | ⟨-, x, rfl, heq⟩⟩ <;> rw [heq]

/-- Every step tells the engine of the subjects it publishes to. -/
theorem told_apply (hn : ∀ name ∈ b.push.names, slash ∉ name) (hw : b.store.Words) {op : PushOp}
    (hop : op.Named) : b.Told (b.apply V op).2 := by
  by_cases hq : op.Logging
  · cases op with
    | publish now subject e =>
      simp only [apply, publish]
      split
      · exact .refl
      · rename_i index st hpub
        obtain ⟨-, hlogs, -⟩ := bjmPublish_eq hpub
        obtain ⟨hlonger, hnodup⟩ := b.push.namesAdd_grows subject
        refine ⟨hlonger, hnodup, fun x hx => ?_⟩
        rw [logOf_insert hlogs] at hx
        split at hx
        · rename_i he
          exact he ▸ b.push.mem_namesAdd hop
        · exact absurd rfl hx
    | take now subject group max lease =>
      simp only [apply, take]
      split
      · exact .refl
      · exact .of_take ‹_›
    | trim subject before force =>
      simp only [apply]
      cases hr : b.store.bjmTrim subject before force with
      | error e => exact .refl
      | ok r =>
        refine .of_same rfl fun x => ?_
        by_cases hx : x = subject
        · rw [hx]
          exact (bjmTrim_log hr).2.1
        · exact congrArg Elog.last (bjmTrim_others hr hx)
    | pump send now clock =>
      simp only [apply, pump]
      split
      · have hsound : Pass.Sound ⟨b.store, b.push, 0, false, 0, []⟩ :=
          ⟨hn, fun s => base_lt_of_words hw s⟩
        have htold := Pass.told_askAll V send now clock hsound b.push.subs
        exact ⟨htold.longer, htold.nodup, htold.told⟩
      · exact .refl
    | ack => exact hq.elim
    | unsubscribe => exact hq.elim
    | done => exact hq.elim
    | fail => exact hq.elim
    | put => exact hq.elim
    | delete => exact hq.elim
    | delivered => exact hq.elim
  · exact .of_logs (names_apply hq) (logs_apply hq)

end App

end SukkalMsg
