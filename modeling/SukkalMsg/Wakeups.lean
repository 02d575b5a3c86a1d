import SukkalMsg.Fairness
import SukkalMsg.PumpSleep

/-!
# No wakeup is lost

The engine looks at its subscriptions only while the work flag is up, and lowers it when
a pass was busy with nothing and started nothing. Whatever gives a subscriber something
to be sent raises the flag again, so while it is down nothing waits.
-/

namespace SukkalMsg

open Std Names Binjson OrderedScan BoundedTable Store ActionRuns

/-- The logs hold nothing above the receipts of the subscriber. -/
def Psub.CaughtUp (st : Store) (t : Psub) : Prop :=
  ∀ x, slash ∉ x → t.isMatch x = true →
    (st.logOf x).last ≤ max (st.receiptOf x t.consumer) (st.logOf x).base

/-- No delivery is outstanding, and no subscriber has anything to be sent. -/
structure App.Resting (b : App) : Prop where
  idle : ∀ t ∈ b.push.subs, t.gone = false → t.inflight = false
  caughtUp : ∀ t ∈ b.push.subs, t.gone = false → t.cfg.group = [] → t.CaughtUp b.store

/-- While the work flag is down there is nothing to do. -/
def App.Watchful (b : App) : Prop := b.push.work = false → b.Resting

/-- Nothing was published, and no receipt of the subscriber was taken back. -/
structure Psub.Unstirred (t : Psub) (st st' : Store) : Prop where
  last : ∀ x, (st'.logOf x).last = (st.logOf x).last
  base : ∀ x, (st.logOf x).base ≤ (st'.logOf x).base
  receipt : ∀ x, slash ∉ x → t.isMatch x = true →
    st.receiptOf x t.consumer ≤ st'.receiptOf x t.consumer

namespace Psub.Unstirred

variable {t : Psub} {st st' : Store}

theorem of_same (hl : st'.logs = st.logs) (hc : st'.cursors = st.cursors) : t.Unstirred st st' where
  last x := by simp only [logOf, hl]
  base x := by simp only [logOf, hl, Nat.le_refl]
  receipt x _ _ := Nat.le_of_eq (receiptOf_congr hc x t.consumer).symm

theorem refl : t.Unstirred st st := .of_same rfl rfl

theorem of_cursorSet {s c : Bytes} {n : ℕ} (hn : n < 2 ^ 64)
    (h : st.bjmCursorSet s c n = .ok st') : t.Unstirred st st' := by
  have hsame := bjmCursorSet_same h
  refine ⟨fun x => ?_, fun x => ?_, fun x _ _ => ?_⟩
  · rw [hsame]
    rfl
  · rw [hsame]
    exact Nat.le_refl _
  · rcases bjmCursorSet_eq h with ⟨rfl, -⟩ | ⟨rfl, hold⟩
    · exact Nat.le_refl _
    · rw [receiptOf_insert hn]
      split
      · rename_i hkey
        have hown : st.receiptOf x t.consumer = st.receiptOf s c := by simp only [receiptOf, hkey]
        rw [hown]
        rcases hold with hold | ⟨-, hold⟩
        · rw [receiptOf_of_get_none hold]
          exact Nat.zero_le _
        · exact Nat.le_of_lt hold
      · exact Nat.le_refl _

theorem of_cursorDelete {s c : Bytes} {r : Bool × Store} (h : st.bjmCursorDelete s c = .ok r)
    (hk : ∀ x, t.isMatch x = true → pairKey s c ≠ pairKey x t.consumer) : t.Unstirred st r.2 := by
  simp only [bjmCursorDelete] at h
  split at h
  · contradiction
  rename_i key hkey
  obtain rfl := boundedKey_eq hkey
  split at h
  · obtain rfl := Except.ok.inj h
    refine ⟨fun _ => rfl, fun _ => Nat.le_refl _, fun x _ hm => ?_⟩
    simp only [receiptOf, getElem?_erase, if_neg (hk x hm), Nat.le_refl]
  · obtain rfl := Except.ok.inj h
    exact refl

theorem of_trim {s : Bytes} {before base removed : ℕ} {force : Bool}
    (h : st.bjmTrim s before force = .ok (base, removed, st')) : t.Unstirred st st' := by
  obtain ⟨hbase, hlast, hle, -, -⟩ := bjmTrim_log h
  refine ⟨fun x => ?_, (Onward.of_trim h).base, fun x _ _ => ?_⟩
  · by_cases hx : x = s
    · rw [hx, hlast]
    · rw [bjmTrim_others h hx]
  · rcases bjmTrim_store h with rfl | hm
    · exact Nat.le_refl _
    · exact Nat.le_of_eq (receiptOf_congr hm.cursors_eq x t.consumer).symm

end Psub.Unstirred

theorem Psub.CaughtUp.unstirred {st st' : Store} {t t' : Psub} (h : t.CaughtUp st)
    (hu : t.Unstirred st st') (hcfg : t'.cfg = t.cfg) (hc : t'.consumer = t.consumer) :
    t'.CaughtUp st' := by
  intro x hx hm
  have hmatch : t.isMatch x = true := by
    rw [← hm]
    simp only [isMatch, hcfg]
  have hold := h x hx hmatch
  have hbase := hu.base x
  have hreceipt := hu.receipt x hx hmatch
  rw [hu.last, hc]
  omega

theorem App.Resting.unstirred {b : App} {st : Store} {p : Pusher} (h : b.Resting)
    (hsubs : ∀ t' ∈ p.subs, t'.gone = false → ∃ t ∈ b.push.subs, t.gone = false ∧
      t'.cfg = t.cfg ∧ t'.consumer = t.consumer ∧ t'.inflight = t.inflight ∧
      (t.cfg.group = [] → t.Unstirred b.store st)) : Resting ⟨st, p⟩ := by
  constructor
  · intro t' ht' hg'
    obtain ⟨t, ht, hg, -, -, hf, -⟩ := hsubs t' ht' hg'
    rw [hf]
    exact h.idle t ht hg
  · intro t' ht' hg' hb'
    obtain ⟨t, ht, hg, hcfg, hc, -, hu⟩ := hsubs t' ht' hg'
    rw [hcfg] at hb'
    exact (h.caughtUp t ht hg hb').unstirred (hu hb') hcfg hc

namespace Pass

variable {V : Vendor} {send : Psub → Bool} {now clock : ℕ}

/-- What a turn that found nothing leaves of the subscription, and the state it was
asked in. -/
structure Spent (V : Vendor) (t t' : Pass) (ts : List PassTurn) (s' : Psub) : Prop where
  idle : s'.inflight = false
  asked : ∃ u ∈ ts, u.delivered V = none ∧ s'.cfg = u.scan.sub.cfg ∧
    s'.consumer = u.scan.sub.consumer ∧ Passed (fun _ => True) t.store u.scan.store ∧
    Passed (fun _ => True) u.scan.store t'.store

/-- A turn that leaves the pass idle is of a subscription that is gone, or had nothing
to be sent. -/
theorem ask_spent {t : Pass} (ht : t.Sound) {s : Psub} (hg : s.gone = false)
    (hbusy : (t.ask V send now clock s).1.busy = false)
    (hstarted : (t.ask V send now clock s).1.started = t.started) :
    s.Eligible now ∧ Spent V t (t.ask V send now clock s).1
      [⟨⟨t.store, t.push, s⟩, clock, send⟩] (t.ask V send now clock s).2 := by
  have hfree : ¬ Detains V now clock t s := fun hd => by
    rw [(ask_turned V send now clock t s).busy.mpr (.inr hd)] at hbusy
    contradiction
  have hidle : s.inflight = false := by
    by_contra hf
    exact hfree ⟨hg, .inl (by simpa using hf)⟩
  have helig : s.Eligible now := by
    refine ⟨hg, hidle, ?_⟩
    by_contra hdue
    exact hfree ⟨hg, .inr (.inl ⟨hg, hidle, by omega⟩)⟩
  obtain ⟨ds, -, hturn, hstore, -, hcount, -⟩ := ask_pumpTurn V send now clock ht s
  have hnil : ds = [] := List.length_eq_zero_iff.mp (by omega)
  subst hnil
  have hasked := hturn.toAsked
  refine ⟨helig, ?_, _, List.mem_singleton_self _, ?_, hasked.cfg_eq, hasked.consumer_eq, .refl,
    hstore.mono fun _ _ => trivial⟩
  · generalize (t.ask V send now clock s).2 = s' at hturn
    cases hturn with
    | skipped h => exact absurd helig h
    | asked _ _ hf => exact hf
  · generalize hs : Scan.startDelivery V clock send ⟨t.store, t.push, s⟩ = r
    obtain ⟨started, a⟩ := r
    have hnew := (ask_of_start helig hs).2.2.2.1
    cases started with
    | true =>
      simp only [if_true] at hnew
      omega
    | false => simp [PassTurn.delivered, hs]

theorem askAll_spent {t : Pass} (ht : t.Sound) {ss : List Psub}
    (hbusy : (askAll V send now clock t ss).1.busy = false)
    (hstarted : (askAll V send now clock t ss).1.started = t.started) :
    ∀ s' ∈ (askAll V send now clock t ss).2, s'.gone = false →
      Spent V t (askAll V send now clock t ss).1 (turns V send now clock t ss) s' := by
  induction ss generalizing t with
  | nil => exact fun s' hs' => absurd hs' List.not_mem_nil
  | cons s ss ih =>
    obtain ⟨hsound, -⟩ := ask_sound V send now clock ht s
    obtain ⟨ds, -, hturn, hstore, -, hcount, -⟩ := ask_pumpTurn V send now clock ht s
    obtain ⟨ds', -, -, hstore', -, hcount', -⟩ := askAll_pumpTurns V send now clock hsound ss
    simp only [askAll] at hbusy hstarted
    have hfree : (t.ask V send now clock s).1.busy = false := by
      by_contra hb
      have hmore := (askAll_turned V send now clock (t.ask V send now clock s).1 ss).1.mpr
        (.inl (by simpa using hb))
      rw [hmore] at hbusy
      contradiction
    have htail := ih hsound hbusy (by omega)
    intro s' hs' hg
    rcases List.mem_cons.mp hs' with rfl | hs'
    · have hlive : s.gone = false := hturn.toAsked.gone_eq.symm.trans hg
      obtain ⟨helig, hidle, u, hu, hnone, hcfg, hc, hpass, hpass'⟩ :=
        ask_spent ht hlive hfree (by omega)
      refine ⟨hidle, u, ?_, hnone, hcfg, hc, hpass, hpass'.trans (hstore'.mono fun _ _ => trivial)⟩
      simp only [turns, helig, if_true]
      exact List.mem_append_left _ hu
    · obtain ⟨hidle, u, hu, hnone, hcfg, hc, hpass, hpass'⟩ := htail s' hs' hg
      exact ⟨hidle, u, List.mem_append_right _ hu, hnone, hcfg, hc,
        (hstore.mono fun _ _ => trivial).trans hpass, hpass'⟩

end Pass

/-- The step takes no receipt of a live subscriber away; the reads, the takes and the sends
of a pass succeed, and its takes bury nothing; an answer is one to an outstanding delivery. -/
def PushOp.Attended (V : Vendor) (b : App) : PushOp → Prop
  | .ack _ _ index => index < 2 ^ 64
  | .unsubscribe s c => ∀ t ∈ b.push.subs, t.gone = false → t.cfg.group = [] →
    ∀ x, t.isMatch x = true → pairKey s c ≠ pairKey x t.consumer
  | .delete req => App.purges req = true → ∀ c, App.unregistration req = .ok c →
    ∀ t ∈ (b.push.remove c).subs, t.gone = false → t.cfg.group = [] →
      ∀ x, t.isMatch x = true → heldBy c (pairKey x t.consumer) = false
  | .pump send now clock => b.push.work = true →
    (∀ u ∈ Pass.turns V send now clock b.passStart b.push.subs, u.succeeds V = true) ∧
      ∀ x, ((b.pump V send now clock).app.store.logOf x).last = (b.store.logOf x).last
  | .delivered _ id _ _ => ∀ t ∈ b.push.subs, t.id = id → t.inflight = true
  | _ => True

namespace App.Watchful

variable {V : Vendor} {b : App}

theorem stored (h : b.Watchful) {st : Store}
    (hu : ∀ t ∈ b.push.subs, t.gone = false → t.cfg.group = [] → t.Unstirred b.store st) :
    Watchful ⟨st, b.push⟩ := fun hw =>
  (h hw).unstirred fun t ht hg => ⟨t, ht, hg, rfl, rfl, rfl, hu t ht hg⟩

theorem release (h : b.Watchful) {now : ℕ} {s g : Bytes} {i delay : ℕ} {drop : Bool} :
    Watchful (b.stored ((b.store.queueRelease now s g i drop delay).map Released.store)) := by
  cases hr : b.store.queueRelease now s g i drop delay with
  | error e => exact h
  | ok r =>
    refine h.stored fun t _ _ _ => ?_
    obtain ⟨q, existed, -, ⟨hst, -⟩ | ⟨pre, e, suf, q', -, -, -, -, hst, -⟩⟩ := queueRelease_eq hr
    · rw [hst]
      exact .refl
    · rw [hst]
      exact .of_same rfl rfl

theorem take (h : b.Watchful) (now : ℕ) (s g : Bytes) (max : ℤ) (lease : ℕ) :
    (b.take V now s g max lease).Watchful := by
  simp only [App.take]
  split
  · exact h
  · rename_i t ht
    intro hw
    have hquiet : ∀ p : Pusher, p.notifyDead b.store s t.dead = p := by
      intro p
      simp only [Pusher.notifyDead] at hw ⊢
      cases hd : deadSubjectOf s with
      | none => rfl
      | some channel =>
        cases hany : t.dead.any fun d => ((b.store.logOf s).get d.1).isSome with
        | false => rfl
        | true =>
          simp only [hd, hany, if_true, Pusher.notify] at hw
          contradiction
    have hpass := passed_take ht
    rw [hquiet] at hw ⊢
    refine h.stored (fun u _ _ _ => ?_) hw
    refine ⟨fun x => ?_, fun x => ?_, fun x hx _ => hpass.receipt_le hx⟩
    · by_contra hx
      have htold := take_told ht (Pusher.blank 0) x hx
      rw [hquiet] at htold
      exact absurd htold List.not_mem_nil
    · exact Nat.le_of_eq (hpass.base x).symm

theorem put (h : b.Watchful) (req : Request) : (b.hPushPut req).2.Watchful := by
  rcases b.hPushPut_push req with heq | ⟨r, found, -, -, heq⟩
  · rw [heq]
    exact h
  · rw [heq]
    intro hw
    simp only [App.register] at hw
    generalize (if found.isNone then b.seedFor req r else b).push = p at hw
    rcases p.add_cases r.consumer r.cfg with ⟨_, _, _, -, -, -, hadd⟩ | ⟨-, hadd⟩ <;>
      · rw [hadd] at hw
        contradiction

theorem delete (h : b.Watchful) {req : Request} (ha : (PushOp.delete req).Attended V b) :
    (b.hPushDelete req).2.Watchful := by
  rcases b.hPushDelete_push req with heq | ⟨c, hc, hpush, hstore⟩
  · rw [heq]
    exact h
  · intro hw
    have hwork : b.push.work = false := by
      rw [hpush] at hw
      rcases b.push.remove_cases c with ⟨heq, -⟩ | ⟨_, _, _, -, -, -, ⟨-, heq⟩ | ⟨-, _, -, heq⟩⟩ <;>
        · rw [heq] at hw
          exact hw
    refine (h hwork).unstirred fun t ht hg => ?_
    rw [hpush] at ht
    refine ⟨t, ?_, hg, rfl, rfl, rfl, fun hb => ?_⟩
    · rcases b.push.remove_cases c with ⟨heq, -⟩ | ⟨pre, s, suf, hsubs, -, -, ⟨-, heq⟩ |
        ⟨-, suf', hperm, heq⟩⟩
      · rwa [heq] at ht
      · rw [heq] at ht
        rcases List.mem_append.mp ht with hm | hm
        · simp [hsubs, hm]
        · rcases List.mem_cons.mp hm with rfl | hm
          · contradiction
          · simp [hsubs, hm]
      · rw [heq] at ht
        rcases List.mem_append.mp ht with hm | hm
        · simp [hsubs, hm]
        · simp [hsubs, hperm.mem_iff.mp hm]
    · rw [hstore]
      split
      · rename_i hpurge
        refine ⟨fun _ => rfl, fun _ => Nat.le_refl _, fun x hx hm => ?_⟩
        have hheld := ha hpurge c hc t ht hg hb x hm
        have hkept : (b.store.bjmCursorDeleteConsumer c).2.cursors[pairKey x t.consumer]? =
            b.store.cursors[pairKey x t.consumer]? := by
          simp only [bjmCursorDeleteConsumer, ExtTreeMap.getElem?_filter', hheld, Bool.not_false]
          cases b.store.cursors[pairKey x t.consumer]? <;> rfl
        have hsame : (b.store.bjmCursorDeleteConsumer c).2.receiptOf x t.consumer =
            b.store.receiptOf x t.consumer := by
          simp only [receiptOf, hkept]
        exact Nat.le_of_eq hsame.symm
      · exact .of_same rfl rfl

theorem delivered (h : b.Watchful) {clock id now : ℕ} {r : Reply}
    (hout : ∀ t ∈ b.push.subs, t.id = id → t.inflight = true) :
    (b.delivered clock id r now).Watchful := by
  rcases b.delivered_cases clock id r now with ⟨heq, -⟩ | ⟨pre, t, suf, hsubs, hid,
    ⟨-, suf', hperm, heq⟩ | ⟨hg, x, -, heq⟩⟩
  · rw [heq]
    exact h
  · rw [heq]
    intro hw
    refine (h hw).unstirred fun u hu hg => ⟨u, ?_, hg, rfl, rfl, rfl, fun _ => .refl⟩
    rcases List.mem_append.mp hu with hm | hm
    · simp [hsubs, hm]
    · simp [hsubs, hperm.mem_iff.mp hm]
  · rw [heq]
    intro hw
    have hwork : b.push.work = false := (Bool.or_eq_false_iff.mp hw).2
    have ht : t ∈ b.push.subs := by simp [hsubs]
    have hidle := (h hwork).idle t ht hg
    rw [hout t ht hid] at hidle
    contradiction

theorem pump {h : List PushStep} (hr : Rotating V h b) (hwords : b.store.Words) (hb : b.Watchful)
    {send : Psub → Bool} {now clock : ℕ} (ha : (PushOp.pump send now clock).Attended V b) :
    (b.pump V send now clock).app.Watchful := by
  cases hwork : b.push.work with
  | false =>
    have heq : (b.pump V send now clock).app = b := by simp [App.pump, hwork]
    rw [heq]
    exact hb
  | true =>
    obtain ⟨hsucceeds, hlast⟩ := ha hwork
    have hsound : b.passStart.Sound := ⟨hr.outstanding.names, fun s => base_lt_of_words hwords s⟩
    obtain ⟨-, hturned, -⟩ := Pass.askAll_turned V send now clock b.passStart b.push.subs
    obtain ⟨-, hready⟩ :=
      Pass.askAll_turns V send now clock hsound hr.informed b.push.subs hr.placed
    simp only [App.pump, hwork, if_true, App.pumpPass] at hlast ⊢
    intro hw
    have hfree : (Pass.askAll V send now clock b.passStart b.push.subs).1.started = 0 ∧
        (Pass.askAll V send now clock b.passStart b.push.subs).1.busy = false := by
      by_contra hnot
      simp only [App.passStart] at hnot hturned
      simp only [hnot, if_false] at hw
      rw [hturned hwork] at hw
      contradiction
    have hspent := Pass.askAll_spent hsound hfree.2 hfree.1
    refine ⟨fun t ht hg => (hspent t ht hg).idle, fun t ht hg hgroup x hx hm => ?_⟩
    obtain ⟨u, hu, hnone, hcfg, hc, hbefore, hafter⟩ := (hspent t ht hg).asked
    have hnothing := PassTurn.nothing_of_idle (hready u hu).1 (hsucceeds u hu) hnone x
    have hmatch : u.scan.sub.isMatch x = true := by
      rw [← hm]
      simp only [Psub.isMatch, hcfg]
    have hplain : u.scan.sub.cfg.group = [] := hcfg ▸ hgroup
    have hcaught : ¬ max (u.scan.store.receiptOf x u.scan.sub.consumer)
        (u.scan.store.logOf x).base < (u.scan.store.logOf x).last := by
      have hiff : u.scan.deliverable V u.clock x = true ↔ _ := Scan.deliverable_plain hplain
      rw [← hiff]
      simpa [PassTurn.deliverable, hmatch] using hnothing
    have hend := hlast x
    have hup := hafter.last_le x
    have hlow := hbefore.last_le x
    have hbase := hafter.base x
    have hreceipt := hafter.receipt_le (c := u.scan.sub.consumer) hx
    rw [← hc] at hreceipt hcaught
    simp only [App.passStart] at hend hup hlow hbase hreceipt
    dsimp only at hend ⊢
    omega

theorem step {h : List PushStep} (hr : Rotating V h b) (hwords : b.store.Words) (hb : b.Watchful)
    {op : PushOp} (ha : op.Attended V b) : (b.apply V op).2.Watchful := by
  cases op with
  | publish now s e =>
    simp only [apply, publish]
    split
    · exact hb
    · exact fun hw => absurd hw (by simp [Pusher.notify])
  | ack s c n =>
    simp only [apply]
    cases hset : b.store.bjmCursorSet s c n with
    | error e => exact hb
    | ok st => exact hb.stored fun t _ _ _ => .of_cursorSet ha hset
  | unsubscribe s c =>
    simp only [apply]
    cases hdel : b.store.bjmCursorDelete s c with
    | error e => exact hb
    | ok r => exact hb.stored fun t ht hg hgroup => .of_cursorDelete hdel (ha t ht hg hgroup)
  | take now s g max lease => exact hb.take now s g max lease
  | done now s g i => exact hb.release
  | fail now s g i delay => exact hb.release
  | trim s before force =>
    simp only [apply]
    cases htrim : b.store.bjmTrim s before force with
    | error e => exact hb
    | ok r => exact hb.stored fun t _ _ _ => .of_trim htrim
  | put req => exact hb.put req
  | delete req => exact hb.delete ha
  | pump send now clock => exact hb.pump hr hwords ha
  | delivered clock id r now => exact hb.delivered ha

end App.Watchful

/-- No wakeup is lost: whenever the work flag is down, no delivery of a live subscription is
outstanding, and no subscriber matches a subject with a message above its receipt. -/
theorem no_wakeup_lost {V : Vendor} {st : Store} {listing : List Bytes} (n : ℕ) {ops : List PushOp}
    (hl : st.ListedLogs listing) (hv : st.Enlisted)
    (ha : Along (pushExec V) (fun _ b op => b.store.Words ∧ op.Named ∧ op.Attended V b) []
      (App.start st listing n) ops) :
    (run (pushExec V) (App.start st listing n) ops).2.Watchful := by
  have hup : (App.start st listing n).push.work = true := rfl
  have hinv := invariant (I := fun h b => Rotating V h b ∧ App.Watchful b)
    ⟨Rotating.start hl hv n, fun hw => absurd (hw.symm.trans hup) Bool.false_ne_true⟩ ha
    fun h b op hg hi => ⟨hi.1.step hg.1 hg.2.1, hi.2.step hi.1 hg.1 hg.2.2⟩
  exact hinv.2

theorem buries_nothing {V : Vendor} {b : App} {send : Psub → Bool} {now clock : ℕ}
    (hn : ∀ name ∈ b.push.names, slash ∉ name) (hw : b.store.Words)
    (h : ∀ x ∈ (b.pump V send now clock).app.push.names,
      ((b.pump V send now clock).app.store.logOf x).last = (b.store.logOf x).last) (x : Bytes) :
    ((b.pump V send now clock).app.store.logOf x).last = (b.store.logOf x).last := by
  by_contra hx
  have htold : b.Told (b.apply V (.pump send now clock)).2 := App.told_apply hn hw trivial
  exact hx (h x (htold.told x hx))

theorem attended_delivered {V : Vendor} {b : App} {clock id now : ℕ} {r : Reply}
    (h : ∀ t ∈ b.push.subs, t.id = id → t.inflight = true) :
    (PushOp.delivered clock id r now).Attended V b := h

/-- `billing` subscribes, one order is delivered to it, and a pass finds no other. -/
def drainedOrders : List PushOp :=
  [.put (.plain (ascii "/push/*") [(ascii "consumer", ascii "billing"),
      (ascii "callback", ascii "http://billing/")]),
    .publish 1 (ascii "orders") ⟨BJM_ENTRY_PLAIN, [7]⟩, .pump (fun _ => true) 2 2,
    .delivered 3 0 ⟨true, 200, none, [], []⟩ 3, .pump (fun _ => true) 4 4]

theorem drainedOrders_watchful :
    (run (pushExec .packing) (App.start .empty [] 0) drainedOrders).2.push.work = false ∧
      (run (pushExec .packing) (App.start .empty [] 0) drainedOrders).2.Watchful := by
  have hlisted : Store.empty.ListedLogs [] := ⟨by simp, fun x hx => absurd hx (Nat.lt_irrefl 0)⟩
  refine ⟨by decide +kernel, no_wakeup_lost 0 hlisted ?_ ?_⟩
  · intro k r hr
    simp [Store.empty] at hr
  · have horders : bjmSubjectValid (ascii "orders") = true := by decide
    refine ⟨⟨words_of_logs ?_, trivial, trivial⟩, ⟨words_of_logs ?_, horders, trivial⟩,
      ⟨words_of_logs ?_, trivial, fun _ => ⟨List.all_eq_true.mp ?_,
        buries_nothing ?_ (words_of_logs ?_) ?_⟩⟩,
      ⟨words_of_logs ?_, trivial, attended_delivered ?_⟩,
      ⟨words_of_logs ?_, trivial, fun _ => ⟨List.all_eq_true.mp ?_,
        buries_nothing ?_ (words_of_logs ?_) ?_⟩⟩, trivial⟩
    all_goals decide +kernel

end SukkalMsg
