import SukkalMsg.ActionRuns
import SukkalMsg.Deliveries
import SukkalMsg.Retention

/-!
# Runs of the store and the delivery engine

What requests, pumps, replies and trims do to a store and its engine, one step at
a time, with what each step has sent. A requeue is a publish. Whatever a step
does, the table of subscriptions keeps its order of business: every outstanding
delivery is the last one sent for its subscription, and is described there.
-/

namespace SukkalMsg

open Std Names Binjson OrderedScan BoundedTable Store ActionRuns

inductive PushOp where
  | publish (now : ℕ) (subject : Bytes) (e : Entry)
  | ack (subject consumer : Bytes) (index : ℕ)
  | unsubscribe (subject consumer : Bytes)
  | take (now : ℕ) (subject group : Bytes) (max : ℤ) (lease : ℕ)
  | done (now : ℕ) (subject group : Bytes) (index : ℕ)
  | fail (now : ℕ) (subject group : Bytes) (index delay : ℕ)
  | trim (subject : Bytes) (before : ℕ) (force : Bool)
  | put (req : Request)
  | delete (req : Request)
  | pump (send : Psub → Bool) (now clock : ℕ)
  | delivered (clock id : ℕ) (reply : Reply) (now : ℕ)

namespace App

/-- Replace the store, unless the call has failed. -/
def stored {ε : Type*} (b : App) : Except ε Store → App
  | .error _ => b
  | .ok st => { b with store := st }

def publish (b : App) (now : ℕ) (subject : Bytes) (e : Entry) : App :=
  match b.store.bjmPublish now subject e with
  | .error _ => b
  | .ok (_, st) => ⟨st, b.push.notify subject⟩

/-- A take over HTTP; the channel it may publish to is told to the engine. -/
def take (V : Vendor) (b : App) (now : ℕ) (subject group : Bytes) (max : ℤ) (lease : ℕ) : App :=
  match b.store.bjmTake V now subject group max lease with
  | .error _ => b
  | .ok t => ⟨t.store, b.push.notifyDead b.store subject t.dead⟩

/-- One step, and what it has sent. -/
def apply (V : Vendor) (b : App) : PushOp → List Sent × App
  | .publish now subject e => ([], b.publish now subject e)
  | .ack subject consumer index => ([], b.stored (b.store.bjmCursorSet subject consumer index))
  | .unsubscribe subject consumer =>
    ([], b.stored ((b.store.bjmCursorDelete subject consumer).map Prod.snd))
  | .take now subject group max lease => ([], b.take V now subject group max lease)
  | .done now subject group index =>
    ([], b.stored ((b.store.bjmDone now subject group index).map Released.store))
  | .fail now subject group index delay =>
    ([], b.stored ((b.store.bjmFail now subject group index delay).map Released.store))
  | .trim subject before force =>
    ([], b.stored ((b.store.bjmTrim subject before force).map fun r => r.2.2))
  | .put req => ([], (b.hPushPut req).2)
  | .delete req => ([], (b.hPushDelete req).2)
  | .pump send now clock => ((b.pump V send now clock).sent, (b.pump V send now clock).app)
  | .delivered clock id reply now => ([], b.delivered clock id reply now)

end App

/-- A step with the state before and after it, and what it has sent. -/
structure PushStep where
  op : PushOp
  before : App
  after : App
  sent : List Sent

def pushExec (V : Vendor) (b : App) (op : PushOp) : List PushStep × App :=
  ([⟨op, b, (b.apply V op).2, (b.apply V op).1⟩], (b.apply V op).2)

/-- The last delivery sent for a subscription. -/
def lastSent (h : List PushStep) (id : ℕ) : Option Sent :=
  (h.flatMap PushStep.sent).reverse.find? (·.sub.id == id)

theorem lastSent_snoc (h : List PushStep) (x : PushStep) (id : ℕ) :
    lastSent (h ++ [x]) id = (x.sent.reverse.find? (·.sub.id == id)).or (lastSent h id) := by
  simp [lastSent, List.find?_append]

theorem lastSent_snoc_of_silent {h : List PushStep} {x : PushStep} (hx : x.sent = []) (id : ℕ) :
    lastSent (h ++ [x]) id = lastSent h id := by
  simp [lastSent_snoc, hx]

/-- The delivery is the one the subscription describes; its reply has not begun. -/
structure Psub.Carries (s : Psub) (d : Sent) : Prop where
  consumer : s.consumer = d.sub.consumer
  subject : s.subject = d.sub.subject
  first : s.first = d.sub.first
  last : s.last = d.sub.last
  jobs : s.jobs = d.sub.jobs
  hint : s.ackHint = none
  unlisted : s.doneList = none

/-- No two live subscriptions have one name. -/
def Pusher.OneLive (p : Pusher) : Prop :=
  ∀ s ∈ p.subs, ∀ t ∈ p.subs, s.gone = false → t.gone = false → s.consumer = t.consumer → s = t

theorem Pusher.OneLive.of_back {p p' : Pusher} (h : p.OneLive)
    (hids : (p'.subs.map Psub.id).Nodup)
    (back : ∀ s' ∈ p'.subs, s'.gone = false →
      ∃ s ∈ p.subs, s.gone = false ∧ s.id = s'.id ∧ s.consumer = s'.consumer) : p'.OneLive := by
  intro s' hs' t' ht' hsg htg hc
  obtain ⟨s, hs, hsg₀, hsid, hsc⟩ := back s' hs' hsg
  obtain ⟨t, ht, htg₀, htid, htc⟩ := back t' ht' htg
  obtain rfl := h s hs t ht hsg₀ htg₀ (hsc.trans (hc.trans htc.symm))
  exact List.inj_on_of_nodup_map hids hs' ht' (hsid.symm.trans htid)

/-- What holds of the engine's table after every run. -/
structure Outstanding (V : Vendor) (h : List PushStep) (p : Pusher) : Prop where
  ids : (p.subs.map Psub.id).Nodup
  fresh : ∀ s ∈ p.subs, s.id < p.nextId
  gone : ∀ s ∈ p.subs, s.gone = true → s.inflight = true
  names : ∀ name ∈ p.names, slash ∉ name
  one : p.OneLive
  carried : ∀ s ∈ p.subs, s.inflight = true → ∃ d, lastSent h s.id = some d ∧ s.Carries d
  described : ∀ x ∈ h, ∀ d ∈ x.sent, d.store.Describes V d.sub

/-- The delivery is still the same one; only an outstanding one may be marked. -/
structure Psub.SameDelivery (s s' : Psub) : Prop where
  id_eq : s'.id = s.id
  inflight_eq : s'.inflight = s.inflight
  consumer_eq : s'.consumer = s.consumer
  subject_eq : s'.subject = s.subject
  first_eq : s'.first = s.first
  last_eq : s'.last = s.last
  jobs_eq : s'.jobs = s.jobs
  hint_eq : s'.ackHint = s.ackHint
  doneList_eq : s'.doneList = s.doneList
  marked : s'.gone = true → s.gone = true ∨ s.inflight = true
  live : s'.gone = false → s.gone = false

namespace Psub.SameDelivery

variable {s s' : Psub} {d : Sent}

theorem refl : s.SameDelivery s :=
  ⟨rfl, rfl, rfl, rfl, rfl, rfl, rfl, rfl, rfl, .inl, fun h => h⟩

theorem carries (h : s.SameDelivery s') (hd : s.Carries d) : s'.Carries d :=
  ⟨h.consumer_eq.trans hd.consumer, h.subject_eq.trans hd.subject, h.first_eq.trans hd.first,
    h.last_eq.trans hd.last, h.jobs_eq.trans hd.jobs, h.hint_eq.trans hd.hint,
    h.doneList_eq.trans hd.unlisted⟩

theorem setCfg (s : Psub) (cfg : PushSub) : s.SameDelivery { s with cfg := cfg } :=
  ⟨rfl, rfl, rfl, rfl, rfl, rfl, rfl, rfl, rfl, .inl, fun h => h⟩

theorem setGone (hf : s.inflight = true) : s.SameDelivery { s with gone := true } :=
  ⟨rfl, rfl, rfl, rfl, rfl, rfl, rfl, rfl, rfl, fun _ => .inr hf, nofun⟩

end Psub.SameDelivery

/-- Everything of a subscription that a reply leaves as it is. -/
structure Psub.Replied (s s' : Psub) : Prop where
  id_eq : s'.id = s.id
  consumer_eq : s'.consumer = s.consumer
  cfg_eq : s'.cfg = s.cfg
  gone_eq : s'.gone = s.gone
  inflight_eq : s'.inflight = false

namespace Psub

theorem hear_same (s : Psub) (r : Reply) :
    s.hear r = { s with
      ackHint := (s.hear r).ackHint
      resp := (s.hear r).resp
      doneList := (s.hear r).doneList } := by
  have hbody : ∀ (l : List Bytes) (t : Psub), l.foldl onBody t =
      { t with resp := (l.foldl onBody t).resp } := by
    intro l
    induction l with
    | nil => exact fun _ => rfl
    | cons x l ih =>
      intro t
      rw [List.foldl_cons, ih]
      rfl
  have hhdr : ∀ (l : List Bytes) (t : Psub), l.foldl onHdr t =
      { t with ackHint := (l.foldl onHdr t).ackHint, doneList := (l.foldl onHdr t).doneList } := by
    intro l
    induction l with
    | nil => exact fun _ => rfl
    | cons x l ih =>
      intro t
      rw [List.foldl_cons, ih]
      simp only [onHdr]
      split
      · rfl
      · split <;> rfl
  rw [hear, hbody, hhdr]

theorem replied_finishJobs (clock : ℕ) (st : Store) (s : Psub) (r : Reply) (now : ℕ)
    (hs : s.inflight = false) : s.Replied (s.finishJobs clock st r now).sub := by
  simp only [finishJobs]
  split
  · exact ⟨rfl, rfl, rfl, rfl, hs⟩
  split
  · exact ⟨rfl, rfl, rfl, rfl, hs⟩
  · simp only [recovered]
    split <;> exact ⟨rfl, rfl, rfl, rfl, hs⟩

theorem replied_finishBatch (st : Store) (s : Psub) (r : Reply) (now : ℕ)
    (hs : s.inflight = false) : s.Replied (s.finishBatch st r now).sub := by
  simp only [finishBatch]
  split
  · exact ⟨rfl, rfl, rfl, rfl, hs⟩
  split
  · simp only [recovered]
    split <;> exact ⟨rfl, rfl, rfl, rfl, hs⟩
  · exact ⟨rfl, rfl, rfl, rfl, hs⟩

theorem replied_settle (clock : ℕ) (st : Store) (s : Psub) (r : Reply) (now : ℕ) :
    s.Replied (({ s.hear r with inflight := false } : Psub).settle clock st r now).sub := by
  have hheard : ∀ t, ({ s.hear r with inflight := false } : Psub).Replied t → s.Replied t := by
    intro t h
    have hs := hear_same s r
    exact ⟨h.id_eq.trans (by rw [hs]), h.consumer_eq.trans (by rw [hs]),
      h.cfg_eq.trans (by rw [hs]), h.gone_eq.trans (by rw [hs]), h.inflight_eq⟩
  simp only [settle]
  split
  · exact hheard _ (replied_finishJobs _ _ _ _ _ rfl)
  · exact hheard _ (replied_finishBatch _ _ _ _ rfl)

end Psub

theorem findIdx?_split {α : Type*} {l : List α} {p : α → Bool} {i : ℕ}
    (h : l.findIdx? p = some i) :
    ∃ pre x suf, l = pre ++ x :: suf ∧ i = pre.length ∧ p x = true ∧ ∀ y ∈ pre, p y = false := by
  obtain ⟨hlt, hp, hmin⟩ := List.findIdx?_eq_some_iff_getElem.mp h
  refine ⟨l.take i, l[i], l.drop (i + 1), ?_, ?_, hp, fun y hy => ?_⟩
  · rw [← List.drop_eq_getElem_cons hlt, List.take_append_drop]
  · rw [List.length_take]
    omega
  · obtain ⟨j, hj, rfl⟩ := List.getElem_of_mem hy
    rw [List.length_take] at hj
    rw [List.getElem_take]
    simpa using hmin j (by omega)

namespace App

/-- What a reply does: nothing without its subscription, and the end of a deleted
one; the others are settled. -/
theorem delivered_cases (clock : ℕ) (b : App) (id : ℕ) (r : Reply) (now : ℕ) :
    (b.delivered clock id r now = b ∧ ∀ s ∈ b.push.subs, s.id ≠ id) ∨
      ∃ pre s suf, b.push.subs = pre ++ s :: suf ∧ s.id = id ∧
        ((s.gone = true ∧ ∃ suf', suf'.Perm suf ∧ b.delivered clock id r now =
            ⟨b.store, { b.push with subs := pre ++ suf', inflight := b.push.inflight - 1 }⟩) ∨
          (s.gone = false ∧ ∃ x,
            x = ({ s.hear r with inflight := false } : Psub).settle clock b.store r now ∧
            b.delivered clock id r now = ⟨x.store, { b.push with
              subs := pre ++ x.sub :: suf
              inflight := b.push.inflight - 1
              work := x.work || b.push.work }⟩)) := by
  simp only [delivered]
  cases hfind : b.push.subs.findIdx? (·.id == id) with
  | none =>
    refine .inl ⟨rfl, fun s hs => ?_⟩
    simpa using List.findIdx?_eq_none_iff.mp hfind s hs
  | some i =>
    obtain ⟨pre, s, suf, hsubs, rfl, hid, -⟩ := findIdx?_split hfind
    refine .inr ⟨pre, s, suf, hsubs, by simpa using hid, ?_⟩
    have hget : b.push.subs[pre.length]? = some s := by simp [hsubs]
    simp only [hget]
    cases hg : s.gone with
    | true =>
      obtain ⟨suf', hrow, hperm⟩ := removeRow_split pre suf s
      exact .inl ⟨rfl, suf', hperm, by simp [hsubs, hrow]⟩
    | false =>
      refine .inr ⟨rfl, _, rfl, ?_⟩
      simp only [hsubs, Bool.false_eq_true, if_false]
      congr 2
      · simp
      · cases ({ s.hear r with inflight := false } : Psub).settle clock b.store r now |>.work <;> rfl

end App

namespace Pusher

theorem find_eq_some {p : Pusher} {c : Bytes} {s : Psub} (h : p.find c = some s) :
    s ∈ p.subs ∧ s.gone = false ∧ s.consumer = c := by
  have hs := List.find?_some h
  simp only [Bool.and_eq_true, Bool.not_eq_true', beq_iff_eq] at hs
  exact ⟨List.mem_of_find?_eq_some h, hs⟩

theorem find_eq_none {p : Pusher} {c : Bytes} (h : p.find c = none) :
    ∀ s ∈ p.subs, s.gone = false → s.consumer ≠ c := by
  intro s hs hg hc
  have := List.find?_eq_none.mp h s hs
  simp [hg, hc] at this

theorem setCfg_split {c : Bytes} (cfg : PushSub) {ss : List Psub}
    (h : ∃ s ∈ ss, s.gone = false ∧ s.consumer = c) :
    ∃ pre s suf, ss = pre ++ s :: suf ∧ s.gone = false ∧ s.consumer = c ∧
      setCfg c cfg ss = pre ++ { s with cfg := cfg } :: suf := by
  induction ss with
  | nil => simp at h
  | cons t ss ih =>
    by_cases ht : t.gone = false ∧ t.consumer = c
    · exact ⟨[], t, ss, rfl, ht.1, ht.2, by simp [setCfg, ht.1, ht.2]⟩
    · have hmore : ∃ s ∈ ss, s.gone = false ∧ s.consumer = c := by
        obtain ⟨s, hs, hg, hc⟩ := h
        rcases List.mem_cons.mp hs with rfl | hs
        · exact absurd ⟨hg, hc⟩ ht
        · exact ⟨s, hs, hg, hc⟩
      obtain ⟨pre, s, suf, rfl, hg, hc, hset⟩ := ih hmore
      refine ⟨t :: pre, s, suf, rfl, hg, hc, ?_⟩
      have hcond : (!t.gone && t.consumer == c) = false := by
        cases hg' : t.gone
        · simpa [hg'] using ht
        · rfl
      simp only [setCfg, hcond, Bool.false_eq_true, if_false, hset, List.cons_append]

/-- What adding does: a live subscription of that name takes the registration, or
one is added at the end. -/
theorem add_cases (p : Pusher) (c : Bytes) (cfg : PushSub) :
    (∃ pre s suf, p.subs = pre ++ s :: suf ∧ s.gone = false ∧ s.consumer = c ∧
        p.add c cfg = { p with subs := pre ++ { s with cfg := cfg } :: suf, work := true }) ∨
      ((∀ s ∈ p.subs, s.gone = false → s.consumer ≠ c) ∧
        p.add c cfg = { p with
          subs := p.subs ++ [p.psubNew c cfg]
          nextId := p.nextId + 1
          work := true }) := by
  cases h : p.find c with
  | some s =>
    obtain ⟨hs, hg, hc⟩ := find_eq_some h
    obtain ⟨pre, t, suf, hsubs, htg, htc, hset⟩ :=
      setCfg_split cfg ⟨s, hs, hg, hc⟩
    exact .inl ⟨pre, t, suf, hsubs, htg, htc, by simp only [add, h, hset]⟩
  | none => exact .inr ⟨find_eq_none h, by simp only [add, h, loadOne]⟩

/-- What removing does: the first of that name goes, or is marked when its delivery
is outstanding. -/
theorem remove_cases (p : Pusher) (c : Bytes) :
    (p.remove c = p ∧ ∀ s ∈ p.subs, s.consumer ≠ c) ∨
      ∃ pre s suf, p.subs = pre ++ s :: suf ∧ s.consumer = c ∧ (∀ t ∈ pre, t.consumer ≠ c) ∧
        ((s.inflight = true ∧
            p.remove c = { p with subs := pre ++ { s with gone := true } :: suf }) ∨
          (s.inflight = false ∧ ∃ suf', suf'.Perm suf ∧
            p.remove c = { p with subs := pre ++ suf' })) := by
  simp only [remove]
  cases hfind : p.subs.findIdx? (·.consumer == c) with
  | none =>
    refine .inl ⟨rfl, fun s hs => ?_⟩
    simpa using List.findIdx?_eq_none_iff.mp hfind s hs
  | some i =>
    obtain ⟨pre, s, suf, hsubs, rfl, hc, hpre⟩ := findIdx?_split hfind
    refine .inr ⟨pre, s, suf, hsubs, by simpa using hc, fun t ht => by simpa using hpre t ht, ?_⟩
    have hget : p.subs[pre.length]? = some s := by simp [hsubs]
    simp only [hget]
    cases hf : s.inflight with
    | true => exact .inl ⟨rfl, by simp [hsubs]⟩
    | false =>
      obtain ⟨suf', hrow, hperm⟩ := removeRow_split pre suf s
      exact .inr ⟨rfl, suf', hperm, by simp [hsubs, hrow]⟩

end Pusher

/-- A publish names a subject a log file can have. -/
def PushOp.Named : PushOp → Prop
  | .publish _ subject _ => bjmSubjectValid subject = true
  | _ => True

/-- The steps that leave the table of subscriptions alone. -/
def PushOp.Elsewhere : PushOp → Prop
  | .put _ | .delete _ | .pump .. | .delivered .. => False
  | _ => True

namespace App

variable {V : Vendor} {b : App}

@[simp] theorem stored_push {ε : Type*} (b : App) (r : Except ε Store) :
    (b.stored r).push = b.push := by
  cases r <;> rfl

theorem apply_elsewhere {op : PushOp} (hn : op.Named) (he : op.Elsewhere) :
    (b.apply V op).1 = [] ∧ b.push.Learnt (b.apply V op).2.push := by
  cases op with
  | publish now subject e =>
    refine ⟨rfl, ?_⟩
    simp only [apply, publish]
    split
    · exact .refl
    · exact b.push.learnt_notify (slash_notMem_of_nameValid hn)
  | take now subject group max lease =>
    refine ⟨rfl, ?_⟩
    simp only [apply, take]
    split
    · exact .refl
    · exact b.push.learnt_notifyDead _ _ _
  | ack subject consumer index => exact ⟨rfl, by simp only [apply, stored_push]; exact .refl⟩
  | unsubscribe subject consumer => exact ⟨rfl, by simp only [apply, stored_push]; exact .refl⟩
  | done now subject group index => exact ⟨rfl, by simp only [apply, stored_push]; exact .refl⟩
  | fail now subject group index delay =>
    exact ⟨rfl, by simp only [apply, stored_push]; exact .refl⟩
  | trim subject before force => exact ⟨rfl, by simp only [apply, stored_push]; exact .refl⟩
  | put req => exact he.elim
  | delete req => exact he.elim
  | pump send now clock => exact he.elim
  | delivered clock id reply now => exact he.elim

@[simp] theorem seedFor_push (b : App) (req : Request) (r : Registration) :
    (b.seedFor req r).push = if r.cfg.group = [] then { b.push with work := true } else b.push := by
  simp only [seedFor]
  split <;> rfl

theorem hPushPut_push (b : App) (req : Request) :
    (b.hPushPut req).2 = b ∨ ∃ r found, registration req = .ok r ∧
      b.store.bjmPushGet r.consumer = .ok found ∧
      (b.hPushPut req).2 = (if found.isNone then b.seedFor req r else b).register r := by
  simp only [hPushPut]
  split
  · exact .inl rfl
  · rename_i r hr
    split
    · exact .inl rfl
    · rename_i found hf
      exact .inr ⟨r, found, hr, hf, rfl⟩

theorem hPushDelete_push (b : App) (req : Request) :
    (b.hPushDelete req).2 = b ∨ ∃ consumer, unregistration req = .ok consumer ∧
      (b.hPushDelete req).2.push = b.push.remove consumer ∧
      (b.hPushDelete req).2.store = if purges req then
        ((b.unregister consumer).store.bjmCursorDeleteConsumer consumer).2
        else (b.unregister consumer).store := by
  simp only [hPushDelete]
  split
  · exact .inl rfl
  · rename_i consumer hc
    refine .inr ⟨consumer, hc, ?_, ?_⟩ <;> cases hp : purges req <;> rfl

end App

namespace Outstanding

variable {V : Vendor} {h : List PushStep} {p p' : Pusher} {x : PushStep}

theorem silent (ho : Outstanding V h p) (hx : x.sent = [])
    (ids : (p'.subs.map Psub.id).Nodup) (fresh : ∀ s ∈ p'.subs, s.id < p'.nextId)
    (names : ∀ name ∈ p'.names, slash ∉ name) (one : p'.OneLive)
    (each : ∀ s' ∈ p'.subs, (s'.inflight = false ∧ s'.gone = false) ∨
      ∃ s ∈ p.subs, s.SameDelivery s') : Outstanding V (h ++ [x]) p' where
  ids := ids
  fresh := fresh
  names := names
  one := one
  gone := by
    intro s' hs' hg
    rcases each s' hs' with ⟨-, hg'⟩ | ⟨s, hs, hsame⟩
    · rw [hg'] at hg
      contradiction
    · rw [hsame.inflight_eq]
      rcases hsame.marked hg with hgs | hf
      · exact ho.gone s hs hgs
      · exact hf
  carried := by
    intro s' hs' hf'
    rcases each s' hs' with ⟨hi, -⟩ | ⟨s, hs, hsame⟩
    · rw [hi] at hf'
      contradiction
    · obtain ⟨d, hd, hcar⟩ := ho.carried s hs (hsame.inflight_eq ▸ hf')
      exact ⟨d, by rw [lastSent_snoc_of_silent hx, hsame.id_eq, hd], hsame.carries hcar⟩
  described := by
    intro y hy d hd
    rcases List.mem_append.mp hy with hy | hy
    · exact ho.described y hy d hd
    · obtain rfl := List.mem_singleton.mp hy
      rw [hx] at hd
      exact absurd hd List.not_mem_nil

theorem learnt (ho : Outstanding V h p) (hx : x.sent = []) (hl : p.Learnt p') :
    Outstanding V (h ++ [x]) p' :=
  ho.silent hx (hl.subs_eq ▸ ho.ids) (by rw [hl.subs_eq, hl.nextId_eq]; exact ho.fresh)
    (hl.slash_notMem ho.names) (by rw [Pusher.OneLive, hl.subs_eq]; exact ho.one)
    fun s hs => .inr ⟨s, hl.subs_eq ▸ hs, .refl⟩

theorem exchange (ho : Outstanding V h p) (hx : x.sent = []) {pre suf : List Psub} {s s' : Psub}
    (hsubs : p.subs = pre ++ s :: suf) (hid : s'.id = s.id) (hc : s'.consumer = s.consumer)
    {inflight : ℕ} {work : Bool}
    (hs' : (s'.inflight = false ∧ s'.gone = false ∧ s.gone = false) ∨ s.SameDelivery s') :
    Outstanding V (h ++ [x])
      { p with subs := pre ++ s' :: suf, inflight := inflight, work := work } := by
  have hids := ho.ids
  have hmem : ∀ t ∈ pre ++ s' :: suf, t = s' ∨ t ∈ p.subs := by
    intro t ht
    rw [hsubs]
    simp only [List.mem_append, List.mem_cons] at ht ⊢
    tauto
  have hs : s ∈ p.subs := by simp [hsubs]
  rw [hsubs] at hids
  have hids' : ((pre ++ s' :: suf).map Psub.id).Nodup := by simpa [hid] using hids
  refine ho.silent hx hids' ?_ ho.names (ho.one.of_back hids' fun t ht hg => ?_) fun t ht => ?_
  · intro t ht
    rcases hmem t ht with rfl | ht
    · exact hid ▸ ho.fresh s hs
    · exact ho.fresh t ht
  · rcases hmem t ht with rfl | ht
    · refine ⟨s, hs, ?_, hid.symm, hc.symm⟩
      rcases hs' with ⟨-, -, h⟩ | h
      · exact h
      · exact h.live hg
    · exact ⟨t, ht, hg, rfl, rfl⟩
  · rcases hmem t ht with rfl | ht
    · exact hs'.imp (fun h => ⟨h.1, h.2.1⟩) fun h => ⟨s, hs, h⟩
    · exact .inr ⟨t, ht, .refl⟩

theorem drop (ho : Outstanding V h p) (hx : x.sent = []) {pre suf suf' : List Psub} {s : Psub}
    (hsubs : p.subs = pre ++ s :: suf) (hperm : suf'.Perm suf) {inflight : ℕ} :
    Outstanding V (h ++ [x]) { p with subs := pre ++ suf', inflight := inflight } := by
  have hmem : ∀ t ∈ pre ++ suf', t ∈ p.subs := by
    intro t ht
    rw [hsubs]
    simp only [List.mem_append, List.mem_cons, hperm.mem_iff] at ht ⊢
    tauto
  have hids := ho.ids
  rw [hsubs] at hids
  have hsub : (pre ++ suf).Sublist (pre ++ s :: suf) :=
    List.Sublist.append_left (List.sublist_cons_self _ _) _
  have hids' : ((pre ++ suf').map Psub.id).Nodup :=
    (((hperm.append_left pre).map _).nodup_iff).mpr (hids.sublist (hsub.map _))
  exact ho.silent hx hids' (fun t ht => ho.fresh t (hmem t ht)) ho.names
    (ho.one.of_back hids' fun t ht hg => ⟨t, hmem t ht, hg, rfl, rfl⟩)
    fun t ht => .inr ⟨t, hmem t ht, .refl⟩

theorem add (ho : Outstanding V h p) (hx : x.sent = []) (c : Bytes) (cfg : PushSub) :
    Outstanding V (h ++ [x]) (p.add c cfg) := by
  rcases p.add_cases c cfg with ⟨pre, s, suf, hsubs, -, -, hadd⟩ | ⟨hnone, hadd⟩
  · rw [hadd]
    exact ho.exchange hx hsubs (Psub.SameDelivery.setCfg s cfg).id_eq rfl (.inr (.setCfg s cfg))
  · rw [hadd]
    have hnew : p.nextId ∉ p.subs.map Psub.id := by
      intro hm
      obtain ⟨s, hs, he⟩ := List.mem_map.mp hm
      have := ho.fresh s hs
      omega
    refine ho.silent hx ?_ ?_ ho.names ?_ fun s' hs' => ?_
    · rw [List.map_append, List.nodup_append]
      refine ⟨ho.ids, by simp, fun i hi j hj => ?_⟩
      obtain rfl := List.mem_singleton.mp hj
      rintro rfl
      exact hnew hi
    · intro t ht
      rcases List.mem_append.mp ht with ht | ht
      · exact Nat.lt_succ_of_lt (ho.fresh t ht)
      · obtain rfl := List.mem_singleton.mp ht
        exact Nat.lt_succ_self _
    · intro s hs t ht hsg htg hc
      rcases List.mem_append.mp hs with hs | hs <;> rcases List.mem_append.mp ht with ht | ht
      · exact ho.one s hs t ht hsg htg hc
      · obtain rfl := List.mem_singleton.mp ht
        exact absurd hc (hnone s hs hsg)
      · obtain rfl := List.mem_singleton.mp hs
        exact absurd hc.symm (hnone t ht htg)
      · rw [List.mem_singleton.mp hs, List.mem_singleton.mp ht]
    · rcases List.mem_append.mp hs' with ht | ht
      · exact .inr ⟨s', ht, .refl⟩
      · obtain rfl := List.mem_singleton.mp ht
        exact .inl ⟨rfl, rfl⟩

theorem remove (ho : Outstanding V h p) (hx : x.sent = []) (c : Bytes) :
    Outstanding V (h ++ [x]) (p.remove c) := by
  rcases p.remove_cases c with ⟨heq, -⟩ | ⟨pre, s, suf, hsubs, -, -, ⟨hf, heq⟩ | ⟨-, suf', hperm,
    heq⟩⟩
  · rw [heq]
    exact ho.learnt hx .refl
  · rw [heq]
    exact ho.exchange hx hsubs (Psub.SameDelivery.setGone hf).id_eq rfl (.inr (.setGone hf))
  · rw [heq]
    exact ho.drop hx hsubs hperm

theorem delivered (ho : Outstanding V h p) (hx : x.sent = []) {b : App} (hb : b.push = p)
    (clock id : ℕ) (r : Reply) (now : ℕ) :
    Outstanding V (h ++ [x]) (b.delivered clock id r now).push := by
  subst hb
  rcases b.delivered_cases clock id r now with ⟨heq, -⟩ | ⟨pre, s, suf, hsubs, -,
    ⟨-, suf', hperm, heq⟩ | ⟨hg, y, rfl, heq⟩⟩
  · rw [heq]
    exact ho.learnt hx .refl
  · rw [heq]
    exact ho.drop hx hsubs hperm
  · rw [heq]
    have hrep := Psub.replied_settle clock b.store s r now
    exact ho.exchange hx hsubs hrep.id_eq hrep.consumer_eq
      (.inl ⟨hrep.inflight_eq, hrep.gone_eq.trans hg, hg⟩)

/-- After a pass each outstanding delivery is the last one sent, also the new ones. -/
theorem pumped (ho : Outstanding V h p) {now : ℕ} {ss' : List Psub} {ds : List Sent}
    (hx : x.sent = ds) (hturns : PumpTurns V now p.subs ss' ds) (hsubs : p'.subs = ss')
    (hnext : p'.nextId = p.nextId) (hnames : ∀ name ∈ p'.names, slash ∉ name) :
    Outstanding V (h ++ [x]) p' where
  ids := by rw [hsubs, hturns.ids]; exact ho.ids
  names := hnames
  one := by
    refine ho.one.of_back (by rw [hsubs, hturns.ids]; exact ho.ids) ?_
    rw [hsubs]
    intro s' hs' hg
    obtain ⟨s, hs, l, hturn, -⟩ := hturns.turn_of_mem hs'
    exact ⟨s, hs, by rw [← hturn.toAsked.gone_eq]; exact hg, hturn.toAsked.id_eq.symm,
      hturn.toAsked.consumer_eq.symm⟩
  fresh := by
    rw [hsubs, hnext]
    intro s' hs'
    obtain ⟨s, hs, l, hturn, -⟩ := hturns.turn_of_mem hs'
    rw [hturn.toAsked.id_eq]
    exact ho.fresh s hs
  gone := by
    rw [hsubs]
    intro s' hs' hg
    obtain ⟨s, hs, l, hturn, -⟩ := hturns.turn_of_mem hs'
    cases hturn with
    | skipped _ => exact ho.gone s' hs hg
    | asked he ha _ =>
      rw [ha.gone_eq, he.here] at hg
      contradiction
    | sent _ _ hf _ _ _ => exact hf
  carried := by
    rw [hsubs]
    intro s' hs' hf
    obtain ⟨s, hs, l, hturn, hl⟩ := hturns.turn_of_mem hs'
    rw [lastSent_snoc, hx]
    cases hturn with
    | asked _ _ hf' =>
      rw [hf'] at hf
      contradiction
    | skipped he =>
      -- a delivery of its id would have been sent for the subscription itself
      have hnone : ds.reverse.find? (·.sub.id == s'.id) = none := by
        rw [List.find?_eq_none]
        intro d hd hid
        obtain ⟨-, u, hu, ht⟩ := hturns.turn_of_sent (List.mem_reverse.mp hd)
        have hus : u = s' := List.inj_on_of_nodup_map ho.ids hu hs
          (ht.toAsked.id_eq.symm.trans (by simpa using hid))
        exact he (hus ▸ (ht.sent_inv (List.mem_singleton_self d)).1)
      rw [hnone, Option.none_or]
      exact ho.carried s' hs hf
    | @sent d _ _ _ hint hdone _ =>
      refine ⟨d, ?_, rfl, rfl, rfl, rfl, rfl, hint, hdone⟩
      rw [hturns.find_sent ho.ids (hl (List.mem_singleton_self d)), Option.some_or]
  described := by
    intro y hy d hd
    rcases List.mem_append.mp hy with hy | hy
    · exact ho.described y hy d hd
    · obtain rfl := List.mem_singleton.mp hy
      rw [hx] at hd
      obtain ⟨-, s, -, ht⟩ := hturns.turn_of_sent hd
      exact (ht.sent_inv (List.mem_singleton_self d)).2.2.2.2.2.2

theorem pump {b : App} (ho : Outstanding V h b.push) (hw : b.store.Words) (send : Psub → Bool)
    (now clock : ℕ) : Outstanding V (h ++ (pushExec V b (.pump send now clock)).1)
      (pushExec V b (.pump send now clock)).2.push := by
  rcases b.pump_cases V send now clock ho.names hw with
    ⟨-, heq⟩ | ⟨-, ss', ds, st, p', w, hsent, happ, hturns, -, hpush, -⟩
  · simp only [pushExec, App.apply, heq]
    exact ho.learnt rfl .refl
  · simp only [pushExec, App.apply, happ]
    exact ho.pumped hsent hturns rfl (by rw [hpush.same]) (hpush.slash_notMem ho.names)

end Outstanding

theorem Outstanding.step {V : Vendor} {h : List PushStep} {b : App} {op : PushOp}
    (ho : Outstanding V h b.push) (hw : b.store.Words) (hn : op.Named) :
    Outstanding V (h ++ (pushExec V b op).1) (pushExec V b op).2.push := by
  by_cases he : op.Elsewhere
  · obtain ⟨hsent, hl⟩ := App.apply_elsewhere (V := V) (b := b) hn he
    exact ho.learnt hsent hl
  cases op with
  | put req =>
    rcases b.hPushPut_push req with heq | ⟨r, found, -, -, heq⟩
    · simp only [pushExec, App.apply, heq]
      exact ho.learnt rfl .refl
    · simp only [pushExec, App.apply, heq]
      have hseed : Outstanding V h (if found.isNone then b.seedFor req r else b).push := by
        split
        · rw [App.seedFor_push]
          split
          · exact ⟨ho.ids, ho.fresh, ho.gone, ho.names, ho.one, ho.carried, ho.described⟩
          · exact ho
        · exact ho
      exact hseed.add rfl _ _
  | delete req =>
    rcases b.hPushDelete_push req with heq | ⟨c, -, hpush, -⟩
    · simp only [pushExec, App.apply, heq]
      exact ho.learnt rfl .refl
    · simp only [pushExec, App.apply, hpush]
      exact ho.remove rfl c
  | pump send now clock => exact ho.pump hw send now clock
  | delivered clock id reply now => exact ho.delivered rfl rfl clock id reply now
  | publish => exact absurd trivial he
  | ack => exact absurd trivial he
  | unsubscribe => exact absurd trivial he
  | take => exact absurd trivial he
  | done => exact absurd trivial he
  | fail => exact absurd trivial he
  | trim => exact absurd trivial he

end SukkalMsg
