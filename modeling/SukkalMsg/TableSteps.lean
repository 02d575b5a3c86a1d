import SukkalMsg.StoreSteps

/-!
# What a step does to the table of subscriptions

Every subscription a step leaves was there before, or is what the step registers.
What was there has had its turn in a pass, has had its reply, has taken a new
registration, or is the same, marked at most.
-/

namespace SukkalMsg

open Std Names Binjson OrderedScan BoundedTable Store ActionRuns

/-- What a subscription of the table after a step stems from. -/
inductive App.Became (V : Vendor) (b : App) (op : PushOp) (sent : List Sent) : Psub → Prop
  | registered {req : Request} {r : Registration} (hop : op = .put req)
    (hr : registration req = .ok r) (hnone : ∀ s ∈ b.push.subs, s.gone = false → s.consumer ≠ r.consumer) :
    Became V b op sent (b.push.psubNew r.consumer r.cfg)
  | reregistered {req : Request} {r : Registration} {t : Psub} (hop : op = .put req)
    (hr : registration req = .ok r) (ht : t ∈ b.push.subs) (hg : t.gone = false)
    (hc : t.consumer = r.consumer) : Became V b op sent { t with cfg := r.cfg }
  | kept {t t' : Psub} (ht : t ∈ b.push.subs) (h : t.SameDelivery t') (hcfg : t'.cfg = t.cfg) :
    Became V b op sent t'
  | turned {send : Psub → Bool} {now clock : ℕ} {t t' : Psub} {l : List Sent}
    (hop : op = .pump send now clock) (ht : t ∈ b.push.subs) (hturn : PumpTurn V now t t' l)
    (hl : l ⊆ sent) : Became V b op sent t'
  | replied {clock id now : ℕ} {r : Reply} {t t' : Psub} (hop : op = .delivered clock id r now)
    (ht : t ∈ b.push.subs) (hid : t.id = id) (hg : t.gone = false) (hrep : t.Replied t') :
    Became V b op sent t'

namespace App

variable {V : Vendor} {b : App}

theorem psubNew_seedFor (b : App) (req : Request) (r : Registration) (c : Bytes) (cfg : PushSub) :
    (b.seedFor req r).push.psubNew c cfg = b.push.psubNew c cfg := by
  rw [seedFor_push]
  split <;> rfl

theorem subs_seedFor (b : App) (req : Request) (r : Registration) :
    (b.seedFor req r).push.subs = b.push.subs := by
  rw [seedFor_push]
  split <;> rfl

theorem became_put {req : Request} {sent : List Sent} {t' : Psub}
    (h : t' ∈ (b.hPushPut req).2.push.subs) : b.Became V (.put req) sent t' := by
  rcases b.hPushPut_push req with heq | ⟨r, found, hr, -, heq⟩
  · rw [heq] at h
    exact .kept h .refl rfl
  rw [heq] at h
  obtain ⟨p, hp, hsubs, hnew⟩ : ∃ p, p = (if found.isNone then b.seedFor req r else b).push ∧
      p.subs = b.push.subs ∧ p.psubNew r.consumer r.cfg = b.push.psubNew r.consumer r.cfg := by
    refine ⟨_, rfl, ?_, ?_⟩ <;> split
    · exact b.subs_seedFor req r
    · rfl
    · exact b.psubNew_seedFor req r _ _
    · rfl
  simp only [register, ← hp] at h
  rcases p.add_cases r.consumer r.cfg with ⟨pre, s, suf, hsplit, hg, hc, hadd⟩ | ⟨hnone, hadd⟩
  · rw [hadd] at h
    rw [hsubs] at hsplit
    rcases List.mem_append.mp h with h | h
    · exact .kept (hsplit ▸ List.mem_append_left _ h) .refl rfl
    · rcases List.mem_cons.mp h with rfl | h
      · exact .reregistered rfl hr (by simp [hsplit]) hg hc
      · exact .kept (hsplit ▸ List.mem_append_right _ (List.mem_cons_of_mem _ h)) .refl rfl
  · rw [hadd] at h
    rw [hsubs] at hnone
    rcases List.mem_append.mp h with h | h
    · exact .kept (hsubs ▸ h) .refl rfl
    · rw [List.mem_singleton.mp h, hnew]
      exact .registered rfl hr hnone

theorem became_delete {req : Request} {sent : List Sent} {t' : Psub}
    (h : t' ∈ (b.hPushDelete req).2.push.subs) : b.Became V (.delete req) sent t' := by
  rcases b.hPushDelete_push req with heq | ⟨c, -, hpush, -⟩
  · rw [heq] at h
    exact .kept h .refl rfl
  rw [hpush] at h
  rcases b.push.remove_cases c with ⟨heq, -⟩ | ⟨pre, s, suf, hsubs, -, -, ⟨hf, heq⟩ | ⟨-, suf', hperm,
    heq⟩⟩
  · rw [heq] at h
    exact .kept h .refl rfl
  · rw [heq] at h
    rcases List.mem_append.mp h with h | h
    · exact .kept (hsubs ▸ List.mem_append_left _ h) .refl rfl
    · rcases List.mem_cons.mp h with rfl | h
      · exact .kept (t := s) (by simp [hsubs]) (.setGone hf) rfl
      · exact .kept (hsubs ▸ List.mem_append_right _ (List.mem_cons_of_mem _ h)) .refl rfl
  · rw [heq] at h
    refine .kept (t := t') ?_ .refl rfl
    rw [hsubs]
    simp only [List.mem_append, List.mem_cons, hperm.mem_iff] at h ⊢
    tauto

theorem became_delivered {clock id now : ℕ} {r : Reply} {sent : List Sent} {t' : Psub}
    (h : t' ∈ (b.delivered clock id r now).push.subs) :
    b.Became V (.delivered clock id r now) sent t' := by
  rcases b.delivered_cases clock id r now with ⟨heq, -⟩ | ⟨pre, s, suf, hsubs, hid,
    ⟨-, suf', hperm, heq⟩ | ⟨hg, y, rfl, heq⟩⟩
  · rw [heq] at h
    exact .kept h .refl rfl
  · rw [heq] at h
    refine .kept (t := t') ?_ .refl rfl
    rw [hsubs]
    simp only [List.mem_append, List.mem_cons, hperm.mem_iff] at h ⊢
    tauto
  · rw [heq] at h
    rcases List.mem_append.mp h with h | h
    · exact .kept (hsubs ▸ List.mem_append_left _ h) .refl rfl
    · rcases List.mem_cons.mp h with rfl | h
      · exact .replied rfl (by simp [hsubs]) hid hg (Psub.replied_settle clock b.store s r now)
      · exact .kept (hsubs ▸ List.mem_append_right _ (List.mem_cons_of_mem _ h)) .refl rfl

/-- What a step leaves in the table stems from what was there. -/
theorem became_apply (op : PushOp) (hnames : ∀ name ∈ b.push.names, slash ∉ name)
    (hw : b.store.Words) (hn : op.Named) {t' : Psub} (h : t' ∈ (b.apply V op).2.push.subs) :
    b.Became V op (b.apply V op).1 t' := by
  by_cases he : op.Elsewhere
  · obtain ⟨-, hl⟩ := apply_elsewhere (V := V) (b := b) hn he
    rw [hl.subs_eq] at h
    exact .kept h .refl rfl
  cases op with
  | put req => exact became_put h
  | delete req => exact became_delete h
  | delivered clock id r now => exact became_delivered h
  | pump send now clock =>
    simp only [apply] at h ⊢
    rcases b.pump_cases V send now clock hnames hw with
      ⟨-, heq⟩ | ⟨-, ss', ds, st, p', w, hsent, happ, hturns, -, -, -⟩
    · rw [heq] at h
      exact .kept h .refl rfl
    · rw [happ] at h
      rw [hsent]
      obtain ⟨t, ht, l, hturn, hl⟩ := hturns.turn_of_mem h
      exact .turned rfl ht hturn hl
  | publish => exact absurd trivial he
  | ack => exact absurd trivial he
  | unsubscribe => exact absurd trivial he
  | take => exact absurd trivial he
  | done => exact absurd trivial he
  | fail => exact absurd trivial he
  | trim => exact absurd trivial he

/-- Only a pass sends, for a subscription it asks, from a store it comes through. -/
theorem sent_apply {op : PushOp} (hnames : ∀ name ∈ b.push.names, slash ∉ name)
    (hw : b.store.Words) {d : Sent} (hd : d ∈ (b.apply V op).1) :
    ∃ send now clock, op = .pump send now clock ∧ d.sub ∈ (b.apply V op).2.push.subs ∧
      (∃ s ∈ b.push.subs, PumpTurn V now s d.sub [d]) ∧
      Passed (Pass.Live b.push.subs) b.store d.store ∧
      Passed (Pass.Live b.push.subs) d.store (b.apply V op).2.store := by
  cases op with
  | pump send now clock =>
    simp only [apply] at hd ⊢
    rcases b.pump_cases V send now clock hnames hw with
      ⟨-, heq⟩ | ⟨-, ss', ds, st, p', w, hsent, happ, hturns, -, -, hpassed⟩
    · rw [heq] at hd
      exact absurd hd List.not_mem_nil
    · rw [hsent] at hd
      obtain ⟨hmem, s, hs, hturn⟩ := hturns.turn_of_sent hd
      rw [happ]
      exact ⟨send, now, clock, rfl, hmem, ⟨s, hs, hturn⟩, hpassed d hd⟩
  | publish => exact absurd hd List.not_mem_nil
  | ack => exact absurd hd List.not_mem_nil
  | unsubscribe => exact absurd hd List.not_mem_nil
  | take => exact absurd hd List.not_mem_nil
  | done => exact absurd hd List.not_mem_nil
  | fail => exact absurd hd List.not_mem_nil
  | trim => exact absurd hd List.not_mem_nil
  | put => exact absurd hd List.not_mem_nil
  | delete => exact absurd hd List.not_mem_nil
  | delivered => exact absurd hd List.not_mem_nil

end App

end SukkalMsg
