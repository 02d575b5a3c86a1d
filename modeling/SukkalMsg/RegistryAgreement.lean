import SukkalMsg.PushProgress

/-!
# The engine and the registry agree

Registering and unregistering change the registry and the table together, and
nothing else changes either. The one way out of step is a deletion that meets a
subscription which is gone already: it is found first, and the live one behind it
stays.
-/

namespace SukkalMsg

open Std Names Binjson OrderedScan BoundedTable Store ActionRuns

def Pusher.Lists (p : Pusher) (c : Bytes) (cfg : PushSub) : Prop :=
  ∃ s ∈ p.subs, s.gone = false ∧ s.consumer = c ∧ s.cfg = cfg

structure App.Agrees (b : App) : Prop where
  distinct : ((b.push.subs.filter fun s => !s.gone).map Psub.consumer).Nodup
  registry : ∀ (c : Bytes) (r : Record), b.store.push[c]? = some r ↔
    ∃ cfg, b.push.Lists c cfg ∧ r = pushRecord cfg

def PushOp.Registers (op : PushOp) (c : Bytes) : Prop :=
  ∃ req r, op = .put req ∧ registration req = .ok r ∧ r.consumer = c

/-- The step unregisters `c`, and is answered so. -/
def PushOp.Unregisters (op : PushOp) (c : Bytes) : Prop :=
  ∃ req, op = .delete req ∧ App.unregistration req = .ok c

/-- `c` has been unregistered, and has not registered since. -/
def Unregistered (h : List PushStep) (c : Bytes) : Prop :=
  ∃ pre x post, h = pre ++ x :: post ∧ x.op.Unregisters c ∧ ∀ y ∈ post, ¬ y.op.Registers c

/-- The engine sends nothing to a consumer that is unregistered, and writes none of
its receipts. -/
def Silences (h : List PushStep) (x : PushStep) : Prop :=
  ∀ c, Unregistered h c → (∀ d ∈ x.sent, d.sub.consumer ≠ c) ∧
    (((∃ send now clock, x.op = .pump send now clock) ∨
        ∃ clock id r now, x.op = .delivered clock id r now) →
      ∀ s, slash ∉ s →
        x.after.store.cursors[pairKey s c]? = x.before.store.cursors[pairKey s c]?)

/-- A deletion does not meet a subscription that is gone already while a live one has
the same name. -/
def RemovesLive (b : App) (op : PushOp) : Prop :=
  ∀ c, op.Unregisters c → ∀ s, b.push.subs.find? (·.consumer == c) = some s → s.gone = true →
    ∀ t ∈ b.push.subs, t.consumer = c → t.gone = true

namespace Pusher

variable {p p' : Pusher} {c : Bytes} {cfg : PushSub}

theorem Learnt.lists (h : p.Learnt p') : p'.Lists c cfg ↔ p.Lists c cfg := by
  simp only [Lists, h.subs_eq]

/-- After a removal no live subscription has the name, when the first one of the name
is live or none is. -/
theorem remove_ne (hids : (p.subs.map Psub.id).Nodup) (hone : p.OneLive)
    (hcond : ∀ s, p.subs.find? (·.consumer == c) = some s → s.gone = true →
      ∀ t ∈ p.subs, t.consumer = c → t.gone = true) :
    ∀ t ∈ (p.remove c).subs, t.gone = false → t.consumer ≠ c := by
  by_cases hfirst : ∀ s, p.subs.find? (·.consumer == c) = some s → s.gone = false
  · exact remove_live_ne hids hone hfirst
  · push Not at hfirst
    obtain ⟨s, hs, hsg⟩ := hfirst
    have hgone := hcond s hs (by simpa using hsg)
    intro t ht hg hc
    have hback : t ∈ p.subs := by
      rcases p.remove_cases c with ⟨heq, -⟩ | ⟨pre, u, suf, hsubs, -, -, ⟨-, heq⟩ | ⟨-, suf', hperm,
        heq⟩⟩
      · rwa [heq] at ht
      · rw [heq] at ht
        rw [hsubs]
        rcases List.mem_append.mp ht with ht | ht
        · exact List.mem_append_left _ ht
        · rcases List.mem_cons.mp ht with rfl | ht
          · simp at hg
          · exact List.mem_append_right _ (List.mem_cons_of_mem _ ht)
      · rw [heq] at ht
        rw [hsubs]
        simp only [List.mem_append, List.mem_cons, hperm.mem_iff] at ht ⊢
        tauto
    rw [hgone t hback hc] at hg
    contradiction

theorem mem_remove_of_ne {t : Psub} (ht : t ∈ p.subs) (hne : t.consumer ≠ c) :
    t ∈ (p.remove c).subs := by
  rcases p.remove_cases c with ⟨heq, -⟩ | ⟨pre, s, suf, hsubs, hsc, -, ⟨-, heq⟩ | ⟨-, suf', hperm,
    heq⟩⟩
  · rwa [heq]
  all_goals
    rw [heq]
    rw [hsubs] at ht
    have hts : t ≠ s := fun he => hne (he ▸ hsc)
    simp only [List.mem_append, List.mem_cons] at ht ⊢
  · tauto
  · rw [hperm.mem_iff]
    tauto

theorem lists_remove (hids : (p.subs.map Psub.id).Nodup) (hone : p.OneLive) {c' : Bytes}
    (hcond : ∀ s, p.subs.find? (·.consumer == c) = some s → s.gone = true →
      ∀ t ∈ p.subs, t.consumer = c → t.gone = true) :
    (p.remove c).Lists c' cfg ↔ c' ≠ c ∧ p.Lists c' cfg := by
  constructor
  · rintro ⟨t, ht, hg, rfl, hcfg⟩
    refine ⟨remove_ne hids hone hcond t ht hg, t, ?_, hg, rfl, hcfg⟩
    rcases p.remove_cases c with ⟨heq, -⟩ | ⟨pre, s, suf, hsubs, -, -, ⟨-, heq⟩ | ⟨-, suf', hperm,
      heq⟩⟩
    · rwa [heq] at ht
    · rw [heq] at ht
      rw [hsubs]
      rcases List.mem_append.mp ht with ht | ht
      · exact List.mem_append_left _ ht
      · rcases List.mem_cons.mp ht with rfl | ht
        · simp at hg
        · exact List.mem_append_right _ (List.mem_cons_of_mem _ ht)
    · rw [heq] at ht
      rw [hsubs]
      simp only [List.mem_append, List.mem_cons, hperm.mem_iff] at ht ⊢
      tauto
  · rintro ⟨hne, t, ht, hg, rfl, hcfg⟩
    exact ⟨t, mem_remove_of_ne ht hne, hg, rfl, hcfg⟩

theorem lists_add (hids : (p.subs.map Psub.id).Nodup) (hone : p.OneLive) {c' : Bytes}
    {cfg' : PushSub} :
    (p.add c cfg).Lists c' cfg' ↔ c' = c ∧ cfg' = cfg ∨ c' ≠ c ∧ p.Lists c' cfg' := by
  rcases p.add_cases c cfg with ⟨pre, s, suf, hsubs, hg, hc, hadd⟩ | ⟨hnone, hadd⟩
  · have hs : s ∈ p.subs := by simp [hsubs]
    rw [hsubs] at hids
    obtain ⟨hpre, hsuf⟩ := alone_of_ids hids
    -- any other live subscription has another name
    have hother : ∀ t, t ∈ pre ∨ t ∈ suf → t.gone = false → t ∈ p.subs ∧ t.consumer ≠ c := by
      intro t ht htg
      have htm : t ∈ p.subs := by
        rw [hsubs, List.mem_append, List.mem_cons]
        tauto
      refine ⟨htm, fun htc => ?_⟩
      obtain rfl := hone s hs t htm hg htg (hc.trans htc.symm)
      exact ht.elim hpre hsuf
    have hmem : ∀ t, t ∈ (p.add c cfg).subs ↔
        t ∈ pre ∨ t = { s with cfg := cfg } ∨ t ∈ suf := by
      intro t
      rw [hadd, List.mem_append, List.mem_cons]
    constructor
    · rintro ⟨t, ht, htg, rfl, rfl⟩
      rcases (hmem t).mp ht with ht | rfl | ht
      · obtain ⟨htm, htc⟩ := hother t (.inl ht) htg
        exact .inr ⟨htc, t, htm, htg, rfl, rfl⟩
      · exact .inl ⟨hc, rfl⟩
      · obtain ⟨htm, htc⟩ := hother t (.inr ht) htg
        exact .inr ⟨htc, t, htm, htg, rfl, rfl⟩
    · rintro (⟨rfl, rfl⟩ | ⟨hne, t, ht, htg, rfl, rfl⟩)
      · exact ⟨_, (hmem _).mpr (.inr (.inl rfl)), hg, hc, rfl⟩
      · refine ⟨t, (hmem t).mpr ?_, htg, rfl, rfl⟩
        rw [hsubs, List.mem_append, List.mem_cons] at ht
        rcases ht with ht | rfl | ht
        · exact .inl ht
        · exact absurd hc hne
        · exact .inr (.inr ht)
  · have hmem : ∀ t, t ∈ (p.add c cfg).subs ↔ t ∈ p.subs ∨ t = p.psubNew c cfg := by
      intro t
      rw [hadd, List.mem_append, List.mem_singleton]
    constructor
    · rintro ⟨t, ht, htg, rfl, rfl⟩
      rcases (hmem t).mp ht with ht | rfl
      · exact .inr ⟨hnone t ht htg, t, ht, htg, rfl, rfl⟩
      · exact .inl ⟨rfl, rfl⟩
    · rintro (⟨rfl, rfl⟩ | ⟨hne, t, ht, htg, rfl, rfl⟩)
      · exact ⟨_, (hmem _).mpr (.inr rfl), rfl, rfl, rfl⟩
      · exact ⟨t, (hmem t).mpr (.inl ht), htg, rfl, rfl⟩

end Pusher

namespace PumpTurns

variable {V : Vendor} {now : ℕ} {p p' : Pusher} {ds : List Sent} {c : Bytes} {cfg : PushSub}

theorem lists (h : PumpTurns V now p.subs p'.subs ds) : p'.Lists c cfg ↔ p.Lists c cfg := by
  constructor
  · rintro ⟨t', ht', hg, hc, hcfg⟩
    obtain ⟨t, ht, l, hturn, -⟩ := h.turn_of_mem ht'
    have ha := hturn.toAsked
    exact ⟨t, ht, ha.gone_eq ▸ hg, ha.consumer_eq ▸ hc, ha.cfg_eq ▸ hcfg⟩
  · rintro ⟨t, ht, hg, hc, hcfg⟩
    obtain ⟨t', ht', l, hturn, -⟩ := h.turn_of_mem_left ht
    have ha := hturn.toAsked
    exact ⟨t', ht', ha.gone_eq.trans hg, ha.consumer_eq.trans hc, ha.cfg_eq.trans hcfg⟩

end PumpTurns

namespace App

variable {V : Vendor} {b : App}

theorem delivered_lists (b : App) (clock id : ℕ) (r : Reply) (now : ℕ) :
    (∀ c cfg, (b.delivered clock id r now).push.Lists c cfg ↔ b.push.Lists c cfg) ∧
      (b.delivered clock id r now).store.push = b.store.push := by
  rcases b.delivered_cases clock id r now with ⟨heq, -⟩ | ⟨pre, s, suf, hsubs, -,
    ⟨hg, suf', hperm, heq⟩ | ⟨hg, x, rfl, heq⟩⟩
  · rw [heq]
    exact ⟨fun _ _ => Iff.rfl, rfl⟩
  · rw [heq]
    refine ⟨fun c cfg => ?_, rfl⟩
    simp only [Pusher.Lists, hsubs, List.mem_append, List.mem_cons, hperm.mem_iff]
    constructor
    · rintro ⟨t, ht, h⟩
      exact ⟨t, by tauto, h⟩
    · rintro ⟨t, ht, h⟩
      refine ⟨t, ?_, h⟩
      rcases ht with ht | rfl | ht
      · exact .inl ht
      · rw [hg] at h
        simp at h
      · exact .inr ht
  · rw [heq]
    have hrep := Psub.replied_settle clock b.store s r now
    refine ⟨fun c cfg => ?_, ?_⟩
    · simp only [Pusher.Lists, hsubs, List.mem_append, List.mem_cons]
      constructor
      · rintro ⟨t, ht | rfl | ht, htg, htc, htcfg⟩
        · exact ⟨t, .inl ht, htg, htc, htcfg⟩
        · exact ⟨s, .inr (.inl rfl), hg, hrep.consumer_eq ▸ htc, hrep.cfg_eq ▸ htcfg⟩
        · exact ⟨t, .inr (.inr ht), htg, htc, htcfg⟩
      · rintro ⟨t, ht | rfl | ht, htg, htc, htcfg⟩
        · exact ⟨t, .inl ht, htg, htc, htcfg⟩
        · exact ⟨_, .inr (.inl rfl), hrep.gone_eq.trans htg, hrep.consumer_eq.trans htc,
            hrep.cfg_eq.trans htcfg⟩
        · exact ⟨t, .inr (.inr ht), htg, htc, htcfg⟩
    · dsimp only
      rcases Psub.settle_cases clock b.store ({ s.hear r with inflight := false } : Psub) r now with
        hsame | ⟨-, -, -, hset⟩ | ⟨-, hset⟩
      · rw [hsame]
      · rw [bjmCursorSet_same hset]
      · rw [hset.same]

theorem registry_elsewhere {op : PushOp} (he : op.Elsewhere) :
    (b.apply V op).2.store.push = b.store.push := by
  have hrelease : ∀ {now : ℕ} {s g : Bytes} {i delay : ℕ} {drop : Bool},
      (b.stored ((b.store.queueRelease now s g i drop delay).map Released.store)).store.push =
        b.store.push := by
    intro now s g i delay drop
    cases hr : b.store.queueRelease now s g i drop delay with
    | error e => rfl
    | ok r =>
      obtain ⟨q, existed, -, ⟨rfl, -⟩ | ⟨pre, e, suf, q', -, -, -, -, hst, -⟩⟩ := queueRelease_eq hr
      · rfl
      · simp only [Except.map, stored, hst]
  cases op with
  | publish now subject e =>
    simp only [apply, publish]
    split
    · rfl
    · exact (bjmPublish_eq ‹_›).2.2.push_eq
  | ack subject consumer index =>
    simp only [apply]
    cases hset : b.store.bjmCursorSet subject consumer index with
    | error e => rfl
    | ok st =>
      simp only [stored]
      rw [bjmCursorSet_same hset]
  | unsubscribe subject consumer =>
    simp only [apply, bjmCursorDelete]
    split
    · rfl
    · split <;> rfl
  | take now subject group max lease =>
    simp only [apply, take]
    split
    · rfl
    · exact (passed_take ‹_›).push_eq
  | done now subject group index => exact hrelease
  | fail now subject group index delay => exact hrelease
  | trim subject before force =>
    simp only [apply]
    cases hr : b.store.bjmTrim subject before force with
    | error e => rfl
    | ok r => exact (bjmTrim_trees hr).2.2
  | put req => exact he.elim
  | delete req => exact he.elim
  | pump send now clock => exact he.elim
  | delivered clock id r now => exact he.elim

theorem Agrees.step {h : List PushStep} {op : PushOp} (hagree : b.Agrees)
    (ho : Outstanding V h b.push) (ha : Answered b op) (hr : RemovesLive b op)
    (ho' : Outstanding V (h ++ (pushExec V b op).1) (pushExec V b op).2.push) :
    (pushExec V b op).2.Agrees := by
  refine ⟨?_, ?_⟩
  · have hsub : ((pushExec V b op).2.push.subs.filter fun s => !s.gone).Sublist
        (pushExec V b op).2.push.subs := List.filter_sublist
    refine List.Nodup.map_on (fun s hs t ht hc => ?_) ((ho'.ids.of_map).sublist hsub)
    rw [List.mem_filter] at hs ht
    exact ho'.one s hs.1 t ht.1 (by simpa using hs.2) (by simpa using ht.2) hc
  have hsame : ∀ b' : App, (∀ c cfg, b'.push.Lists c cfg ↔ b.push.Lists c cfg) →
      b'.store.push = b.store.push → ∀ (c : Bytes) (r : Record), b'.store.push[c]? = some r ↔
        ∃ cfg, b'.push.Lists c cfg ∧ r = pushRecord cfg := by
    intro b' hl hp c r
    rw [hp, hagree.registry c r]
    simp only [hl]
  by_cases he : op.Elsewhere
  · exact hsame _ (fun c cfg => (apply_elsewhere (V := V) ha.named he).2.lists)
      (registry_elsewhere he)
  cases op with
  | put req =>
    simp only [pushExec, apply]
    rcases b.hPushPut_push req with heq | ⟨r, found, -, -, heq⟩
    · rw [heq]
      exact hagree.registry
    intro c rec
    obtain ⟨b₁, hb, hsubs, hpush⟩ : ∃ b₁, b₁ = (if found.isNone then b.seedFor req r else b) ∧
        b₁.push.subs = b.push.subs ∧ b₁.store.push = b.store.push := by
      refine ⟨_, rfl, ?_, ?_⟩ <;> split
      · exact b.subs_seedFor req r
      · rfl
      · rw [(b.seeded_seedFor req r).same]
      · rfl
    rw [← hb] at heq
    have hlists : ∀ c cfg, b₁.push.Lists c cfg ↔ b.push.Lists c cfg := fun c cfg => by
      simp only [Pusher.Lists, hsubs]
    rw [heq]
    simp only [register, bjmPushSet, getElem?_insert, hpush, hlists,
      Pusher.lists_add (hsubs ▸ ho.ids) (show b₁.push.OneLive by
        rw [Pusher.OneLive, hsubs]; exact ho.one)]
    split
    · rename_i hc
      subst hc
      simp [eq_comm]
    · rename_i hc
      rw [hagree.registry c rec]
      simp [Ne.symm hc]
  | delete req =>
    simp only [pushExec, apply]
    rcases b.hPushDelete_push req with heq | ⟨c₀, hreq, hpush, hstore⟩
    · rw [heq]
      exact hagree.registry
    intro c rec
    have herase : (b.hPushDelete req).2.store.push = b.store.push.erase c₀ := by
      rw [hstore]
      split <;> rfl
    rw [herase, hpush, getElem?_erase]
    simp only [Pusher.lists_remove ho.ids ho.one (hr c₀ ⟨req, rfl, hreq⟩)]
    split
    · rename_i hc
      simp [hc]
    · rename_i hc
      rw [hagree.registry c rec]
      simp [Ne.symm hc]
  | pump send now clock =>
    rcases b.pump_cases V send now clock ho.names ha.words with
      ⟨-, heq⟩ | ⟨-, ss', ds, st, p', w, -, happ, hturns, hpass, -, -⟩
    · simp only [pushExec, apply, heq]
      exact hagree.registry
    · simp only [pushExec, apply, happ]
      have hl : ∀ c cfg, Pusher.Lists { p' with subs := ss', work := w } c cfg ↔
          b.push.Lists c cfg := fun c cfg => PumpTurns.lists hturns
      exact hsame ⟨st, { p' with subs := ss', work := w }⟩ hl hpass.push_eq
  | delivered clock id r now =>
    obtain ⟨hl, hp⟩ := b.delivered_lists clock id r now
    exact hsame _ hl hp
  | publish => exact absurd trivial he
  | ack => exact absurd trivial he
  | unsubscribe => exact absurd trivial he
  | take => exact absurd trivial he
  | done => exact absurd trivial he
  | fail => exact absurd trivial he
  | trim => exact absurd trivial he

end App

theorem unregistered_snoc {h : List PushStep} {x : PushStep} {c : Bytes} :
    Unregistered (h ++ [x]) c ↔
      x.op.Unregisters c ∨ Unregistered h c ∧ ¬ x.op.Registers c := by
  constructor
  · rintro ⟨pre, y, post, heq, hy, hpost⟩
    rcases List.eq_nil_or_concat post with rfl | ⟨post', z, rfl⟩
    · obtain ⟨-, hxy⟩ := List.append_inj' heq rfl
      obtain rfl := List.singleton_inj.mp hxy
      exact .inl hy
    · rw [List.concat_eq_append, ← List.cons_append, ← List.append_assoc] at heq
      obtain ⟨hh, hxz⟩ := List.append_inj' heq rfl
      obtain rfl := List.singleton_inj.mp hxz
      refine .inr ⟨⟨pre, y, post', hh, hy, fun u hu => hpost u (by simp [hu])⟩, hpost x (by simp)⟩
  · rintro (hx | ⟨⟨pre, y, post, rfl, hy, hpost⟩, hx⟩)
    · exact ⟨h, x, [], rfl, hx, by simp⟩
    · refine ⟨pre, y, post ++ [x], by simp, hy, fun u hu => ?_⟩
      rcases List.mem_append.mp hu with hu | hu
      · exact hpost u hu
      · exact List.mem_singleton.mp hu ▸ hx

def Deserted (h : List PushStep) (b : App) : Prop :=
  ∀ c, Unregistered h c → ∀ t ∈ b.push.subs, t.gone = false → t.consumer ≠ c

namespace Deserted

variable {V : Vendor} {h : List PushStep} {b : App} {op : PushOp}

theorem step (hd : Deserted h b) (ho : Outstanding V h b.push) (ha : Answered b op)
    (hr : RemovesLive b op) : Deserted (h ++ (pushExec V b op).1) (pushExec V b op).2 := by
  intro c hun t' ht' hg hc
  rcases unregistered_snoc.mp hun with ⟨req, hop, hreq⟩ | ⟨hun, hreg⟩
  · dsimp only at hop
    subst hop
    have hpush : (b.hPushDelete req).2.push = b.push.remove c := by
      simp only [App.hPushDelete, hreq]
      split <;> rfl
    simp only [pushExec, App.apply, hpush] at ht'
    exact Pusher.remove_ne ho.ids ho.one (hr c ⟨req, rfl, hreq⟩) t' ht' hg hc
  · have hlive := hd c hun
    cases App.became_apply (V := V) op ho.names ha.words ha.named ht' with
    | registered hop hr' _ => exact hreg ⟨_, _, hop, hr', hc⟩
    | reregistered hop hr' ht hg' hc' => exact hreg ⟨_, _, hop, hr', hc'.symm.trans hc⟩
    | kept ht hsame _ => exact hlive _ ht (hsame.live hg) (hsame.consumer_eq ▸ hc)
    | turned hop ht hturn _ =>
      exact hlive _ ht (hturn.toAsked.gone_eq ▸ hg) (hturn.toAsked.consumer_eq ▸ hc)
    | replied hop ht hid hg' hrep => exact hlive _ ht hg' (hrep.consumer_eq ▸ hc)

theorem silences (hd : Deserted h b) (ho : Outstanding V h b.push) (ha : Answered b op) :
    ∀ x ∈ (pushExec V b op).1, Silences h x := by
  intro x hx c hun
  obtain rfl := List.mem_singleton.mp hx
  have hlive := hd c hun
  refine ⟨fun d hds hdc => ?_, fun hop s hs => ?_⟩
  · obtain ⟨send, now, clock, -, -, ⟨t, ht, hturn⟩, -⟩ := App.sent_apply ho.names ha.words hds
    obtain ⟨helig, hasked, -⟩ := hturn.sent_inv (List.mem_singleton_self d)
    exact hlive t ht helig.here (hasked.consumer_eq ▸ hdc)
  · dsimp only at hop ⊢
    rcases hop with ⟨send, now, clock, rfl⟩ | ⟨clock, id, r, now, rfl⟩
    · rcases b.pump_cases V send now clock ho.names ha.words
        with ⟨-, heq⟩ | ⟨-, ss', ds, st, p', w, -, happ, -, hpass, -, -⟩
      · simp only [App.apply, heq]
      · simp only [App.apply, happ]
        refine hpass.others _ ?_
        rintro s' c' ⟨t, ht, hg, rfl⟩ hs' hkey
        exact hlive t ht hg (pairKey_injective hs hs' hkey).2.symm
    · simp only [App.apply]
      rcases App.delivered_store ho clock id now r
        (ha.outstanding _ _ _ _ rfl) with heq | ⟨t, ht, d, -, hg, -, -, hcar, ⟨-, -, -, hset⟩ | ⟨-,
          hset⟩⟩
      · rw [heq]
      · obtain ⟨-, y, -, -, ⟨req, -, hreq⟩, -⟩ := hun
        have hplain := slash_notMem_of_nameValid (unregistration_valid hreq)
        rcases bjmCursorSet_eq hset with ⟨heq, -⟩ | ⟨heq, -⟩
        · rw [heq]
        · rw [heq, getElem?_insert, if_neg]
          exact fun hkey => hlive t ht hg (hcar.consumer.trans (pairKey_plain hs hplain hkey).2)
      · rw [hset.same]

end Deserted

structure Store.Registry (st : Store) : Prop where
  enlisted : st.Enlisted
  written : ∀ (k : Bytes) (r : Record), st.push[k]? = some r →
    ∃ cfg, r = pushRecord cfg ∧ pushDecode r = .ok cfg

theorem App.start_agrees {st : Store} {listing : List Bytes} {n : ℕ}
    (hl : ∀ e ∈ listing, slash ∉ e) (hst : st.Registry) : (App.start st listing n).Agrees := by
  have hpairs := App.start_pairs st n hl
  have hrest := App.start_rested st n hl
  have hlists : ∀ c cfg, (App.start st listing n).push.Lists c cfg ↔ (c, cfg) ∈ st.bjmPushEach := by
    intro c cfg
    rw [← hpairs]
    simp only [List.mem_map, Prod.mk.injEq]
    constructor
    · rintro ⟨s, hs, -, hc, hcfg⟩
      exact ⟨s, hs, hc, hcfg⟩
    · rintro ⟨s, hs, hc, hcfg⟩
      exact ⟨s, hs, hrest.here s hs, hc, hcfg⟩
  refine ⟨?_, fun c r => ?_⟩
  · have hmap : (App.start st listing n).push.subs.map Psub.consumer = st.bjmPushEach.map Prod.fst := by
      rw [← hpairs, List.map_map]
      rfl
    have hsub : ((App.start st listing n).push.subs.filter fun s => !s.gone).Sublist
        (App.start st listing n).push.subs := List.filter_sublist
    refine List.Nodup.sublist (hsub.map _) ?_
    rw [hmap]
    exact bjmPushEach_nodup hst.enlisted
  · simp only [hlists, mem_bjmPushEach hst.enlisted]
    constructor
    · intro hr
      obtain ⟨cfg, rfl, hd⟩ := hst.written c r hr
      exact ⟨cfg, ⟨_, hr, hd⟩, rfl⟩
    · rintro ⟨cfg, ⟨r', hr', hd⟩, rfl⟩
      obtain ⟨cfg', rfl, hd'⟩ := hst.written c r' hr'
      rw [hd] at hd'
      rw [Except.ok.inj hd']
      exact hr'

/-- In every run the live subscriptions are the registry, and an unregistered consumer
is left alone until it registers again, as long as no deletion meets a subscription
that is gone while a live one has its name. -/
theorem engine_agrees {V : Vendor} {st : Store} {listing : List Bytes} {n : ℕ} {ops : List PushOp}
    (hl : ∀ e ∈ listing, slash ∉ e) (hst : st.Registry)
    (hrun : Along (pushExec V) (fun _ b op => Answered b op ∧ RemovesLive b op) []
      (App.start st listing n) ops) :
    (run (pushExec V) (App.start st listing n) ops).2.Agrees ∧
      Each Silences (run (pushExec V) (App.start st listing n) ops).1 := by
  have hstart : Deserted [] (App.start st listing n) := by
    rintro c ⟨pre, x, post, heq, -⟩
    simp at heq
  have hinv := invariant (I := fun h b => (Outstanding V h b.push ∧ Deserted h b) ∧ b.Agrees ∧
      Each Silences h)
    ⟨⟨App.start_outstanding hl hst.enlisted, hstart⟩, App.start_agrees hl hst, each_nil⟩ hrun
    fun h b op hg hi => by
      obtain ⟨⟨ho, hd⟩, hagree, he⟩ := hi
      have ho' := ho.step (V := V) hg.1.words hg.1.named
      exact ⟨⟨ho', hd.step ho hg.1 hg.2⟩, hagree.step ho hg.1 hg.2 ho',
        he.snoc (hd.silences ho hg.1 _ (List.mem_singleton_self _))⟩
  simpa using hinv.2

/-- `billing` is deleted during a delivery, registers again, and is deleted again. -/
def deletedTwins : List PushOp :=
  [.publish 1 (ascii "orders") ⟨BJM_ENTRY_PLAIN, [7]⟩, .put (putBilling []),
    .pump (fun _ => true) 2 2, .delete (deleteBilling []), .put (putBilling []),
    .delete (deleteBilling [])]

theorem App.Agrees.contains {b : App} {c : Bytes} (h : b.Agrees)
    (hlive : (b.push.subs.any fun s => !s.gone && s.consumer == c) = true) :
    b.store.push.contains c = true := by
  obtain ⟨s, hs, hlive⟩ := List.any_eq_true.mp hlive
  simp only [Bool.and_eq_true, Bool.not_eq_true', beq_iff_eq] at hlive
  have hr := (h.registry c _).mpr ⟨s.cfg, ⟨s, hs, hlive.1, hlive.2, rfl⟩, rfl⟩
  rw [ExtTreeMap.contains_eq_isSome_getElem?, hr]
  rfl

theorem answered_of_other {b : App} {op : PushOp} (hn : op.Named) (hw : b.store.Words)
    (hdel : ∀ clock id r now, op ≠ .delivered clock id r now) : Answered b op :=
  ⟨hn, hw, fun _ _ _ _ h => absurd h (hdel _ _ _ _)⟩

/-- The second subscription stays live, though the registry is empty. -/
theorem deletedTwins_disagree :
    Along (pushExec .packing) (fun _ b op => Answered b op) [] (App.start .empty [] 0)
      deletedTwins ∧
    (run (pushExec .packing) (App.start .empty [] 0) deletedTwins).2.store.push.toList = [] ∧
    ¬ (run (pushExec .packing) (App.start .empty [] 0) deletedTwins).2.Agrees := by
  refine ⟨⟨answered_of_other ?_ (words_of_logs ?_) (by simp),
    answered_of_other trivial (words_of_logs ?_) (by simp),
    answered_of_other trivial (words_of_logs ?_) (by simp),
    answered_of_other trivial (words_of_logs ?_) (by simp),
    answered_of_other trivial (words_of_logs ?_) (by simp),
    answered_of_other trivial (words_of_logs ?_) (by simp), trivial⟩, ?_, fun h => ?_⟩
  · exact (by decide : bjmSubjectValid (ascii "orders") = true)
  · decide +kernel
  · decide +kernel
  · decide +kernel
  · decide +kernel
  · decide +kernel
  · decide +kernel
  · decide +kernel
  · have hin := h.contains (c := ascii "billing") (by decide +kernel)
    revert hin
    decide +kernel

/-- A subscription deleted during its delivery, and registered again. -/
theorem firstTwin_agrees :
    (run (pushExec .packing) (App.start .empty [] 0) (deletedTwins.take 5)).2.Agrees := by
  have hregistry : Store.empty.Registry :=
    ⟨fun k r h => by simp [Store.empty] at h, fun k r h => by simp [Store.empty] at h⟩
  have hrun : Along (pushExec .packing) (fun _ b op => Answered b op ∧ RemovesLive b op) []
      (App.start .empty [] 0) (deletedTwins.take 5) := by
    refine ⟨⟨answered_of_other ?_ (words_of_logs ?_) (by simp), ?_⟩,
      ⟨answered_of_other trivial (words_of_logs ?_) (by simp), ?_⟩,
      ⟨answered_of_other trivial (words_of_logs ?_) (by simp), ?_⟩,
      ⟨answered_of_other trivial (words_of_logs ?_) (by simp), ?_⟩,
      ⟨answered_of_other trivial (words_of_logs ?_) (by simp), ?_⟩, trivial⟩
    · exact (by decide : bjmSubjectValid (ascii "orders") = true)
    · decide +kernel
    · rintro c ⟨req, hop, -⟩
      contradiction
    · decide +kernel
    · rintro c ⟨req, hop, -⟩
      contradiction
    · decide +kernel
    · rintro c ⟨req, hop, -⟩
      contradiction
    · decide +kernel
    · -- the one subscription there is has not been deleted yet
      intro c _ s hs hg
      have hall : ((run (pushExec .packing) (App.start .empty [] 0)
          (deletedTwins.take 3)).2.push.subs.all fun s => !s.gone) = true := by decide +kernel
      have hs := List.all_eq_true.mp hall s (List.mem_of_find?_eq_some hs)
      rw [hg] at hs
      contradiction
    · decide +kernel
    · rintro c ⟨req, hop, -⟩
      contradiction
  exact (engine_agrees (by simp) hregistry hrun).1

end SukkalMsg
