import SukkalMsg.PushRestart

/-!
# A delivery the transport refuses

A send that is not taken has not reached the subscriber. `send_batch` passes that on,
and nobody counts it: the subscription keeps its failures, its error and its due time,
and the pass may drop the work flag. What should be left is what a delivery leaves that
was started and then reported as unreached.
-/

namespace SukkalMsg

open Std Names Binjson OrderedScan BoundedTable Store ActionRuns

/-- The transport takes what the one subscription is sent; of the others it takes what
it would have taken. -/
def taking (xfer : Bool) (send : Psub → Bool) (id : ℕ) (s : Psub) : Bool :=
  s.id == id || (xfer && send s)

def Pusher.joined (k : ℕ) (p : Pusher) : Pusher :=
  { p with xfer := true, inflight := p.inflight + k }

def Psub.flying (s : Psub) : Psub := { s with inflight := true }

def Psub.failed (s : Psub) (r : Reply) (now : ℕ) : Psub :=
  ({ s.hear r with lastError := Psub.unreachable r.error } : Psub).backoff now

namespace App

def pumpTaking (V : Vendor) (send : Psub → Bool) (now clock id : ℕ) (b : App) : Pumped :=
  ({ b with push := b.push.joined 0 } : App).pump V (taking b.push.xfer send id) now clock

/-- The delivery has been started and is reported; the transport is what it was. -/
def reported (V : Vendor) (send : Psub → Bool) (now clock id : ℕ) (r : Reply) (b : App) : App :=
  let a := (b.pumpTaking V send now clock id).app.delivered clock id r now
  { a with push := { a.push with xfer := b.push.xfer } }

/-- One subscription's delivery counts as failed, and there is work. -/
def counted (b : App) (id : ℕ) (r : Reply) (now : ℕ) : App :=
  { b with push := { b.push with
      subs := b.push.subs.map fun s => if s.id = id then s.failed r now else s
      work := true } }

end App

namespace Psub

theorem hear_landed {s : Psub} (hs : s.inflight = false) (r : Reply) :
    ({ s.flying.hear r with inflight := false } : Psub) = s.hear r := by
  have hbody : ∀ (l : List Bytes) (t : Psub), l.foldl onBody t.flying =
      (l.foldl onBody t).flying := by
    intro l
    induction l with
    | nil => exact fun _ => rfl
    | cons x l ih => exact fun t => ih (t.onBody x)
  have hhdr : ∀ (l : List Bytes) (t : Psub), l.foldl onHdr t.flying =
      (l.foldl onHdr t).flying := by
    intro l
    induction l with
    | nil => exact fun _ => rfl
    | cons x l ih =>
      intro t
      have hline : t.flying.onHdr x = (t.onHdr x).flying := by
        simp only [onHdr]
        split
        · rfl
        · split <;> rfl
      rw [List.foldl_cons, List.foldl_cons, hline, ih]
  have hflight : (s.hear r).inflight = false := by
    rw [hear_same]
    exact hs
  have hheard : s.flying.hear r = (s.hear r).flying := by
    simp only [hear, hhdr, hbody]
  rw [hheard]
  have hback : ∀ (t : Psub) (v : Bool), t.inflight = v → ({ t with inflight := v } : Psub) = t := by
    rintro t v rfl
    rfl
  exact hback _ _ hflight

theorem settle_unreached {r : Reply} (hr : r.reached = false) (clock : ℕ) (st : Store) (s : Psub)
    (now : ℕ) : s.settle clock st r now =
      ⟨st, ({ s with lastError := unreachable r.error } : Psub).backoff now, false⟩ := by
  simp only [settle, finishJobs, finishBatch, Reply.ok, hr]
  split <;> rfl

theorem failed_failures (s : Psub) (r : Reply) (now : ℕ) :
    (s.failed r now).failures = s.failures + 1 := by
  rw [failed, hear_same]
  rfl

end Psub

namespace Pass

variable {V : Vendor} {send : Psub → Bool} {now clock id : ℕ} {x : Bool}

/-- A pass beside another one that has taken `k` deliveries more. -/
structure Beside (x : Bool) (k : ℕ) (t u : Pass) : Prop where
  store : u.store = t.store
  push : u.push = t.push.joined k
  started : u.started = t.started + k
  xfer : t.push.xfer = x

theorem joined_view (k : ℕ) : Pusher.View (Pusher.joined k) := by
  refine ⟨fun p => rfl, fun p => rfl, fun p name => ?_⟩
  by_cases hm : cut (BJM_SUBJECT_MAX + 1) name ∈ p.names
  · simp only [Pusher.notify, Pusher.namesAdd, Pusher.joined, hm, if_true]
  · simp only [Pusher.notify, Pusher.namesAdd, Pusher.joined, hm, if_false]

variable (V clock) in
theorem Beside.search {k : ℕ} {t u : Pass} (h : Beside x k t u) (s : Psub) :
    ∃ a found, Scan.search V clock ⟨t.store, t.push, s⟩ = (a, found) ∧
      Scan.search V clock ⟨u.store, u.push, s⟩ = (⟨a.store, a.push.joined k, a.sub⟩, found) ∧
      s.Described a.sub ∧ a.push.xfer = x := by
  have hview := Scan.search_viewed V clock (joined_view k) s.conn ⟨t.store, t.push, s⟩
  have hscan : (⟨t.store, t.push, s⟩ : Scan).viewed (Pusher.joined k) s.conn =
      ⟨u.store, u.push, s⟩ := by
    rw [h.store, h.push]
    rfl
  have hheeds := Scan.heeds_search V clock (a := ⟨t.store, t.push, s⟩)
  rw [hscan] at hview
  refine ⟨(Scan.search V clock ⟨t.store, t.push, s⟩).1, (Scan.search V clock ⟨t.store, t.push, s⟩).2,
    rfl, ?_, hheeds.sub, hheeds.push.xfer_eq.trans h.xfer⟩
  have hconn := hheeds.sub.conn_eq
  rw [hview]
  generalize (Scan.search V clock ⟨t.store, t.push, s⟩).1 = a at hconn
  have hsub : a.sub.withConn s.conn = a.sub := by
    rw [← hconn]
    rfl
  simp only [Scan.viewed, hsub]

variable (V send clock) in
theorem Beside.start_alike {k : ℕ} {t u : Pass} (h : Beside x k t u) {s : Psub} (hs : s.id ≠ id) :
    ∃ started a, Scan.startDelivery V clock send ⟨t.store, t.push, s⟩ = (started, a) ∧
      Scan.startDelivery V clock (taking x send id) ⟨u.store, u.push, s⟩ =
        (started, ⟨a.store, a.push.joined k, a.sub⟩) ∧
      s.Asked a.sub ∧ a.push.xfer = x := by
  obtain ⟨a, found, ha, ha', hsub, hxfer⟩ := h.search V clock s
  simp only [Scan.startDelivery, ha, ha']
  cases found with
  | none => exact ⟨false, a, rfl, rfl, hsub.toAsked, hxfer⟩
  | some count =>
    have hanswer : taking x send id (a.sub.prepared count) =
        (a.push.xfer && send (a.sub.prepared count)) := by
      have hid : (a.sub.prepared count).id ≠ id := by
        rw [(Psub.asked_prepared a.sub count).id_eq, hsub.id_eq]
        exact hs
      simp [taking, hid, hxfer]
    have hthere : (a.push.joined k).xfer = true := rfl
    have hprep := hsub.toAsked.trans (Psub.asked_prepared a.sub count)
    simp only [Scan.sendBatch, hthere, Bool.true_and, hanswer]
    cases hsend : a.push.xfer && send (a.sub.prepared count) with
    | false => exact ⟨false, _, rfl, rfl, hprep, hxfer⟩
    | true =>
      refine ⟨true, _, rfl, ?_, hprep.trans (Psub.asked_flying _), hxfer⟩
      simp only [if_true, Pusher.joined, Nat.add_right_comm]

variable (V send now clock) in
theorem Beside.ask_other {k : ℕ} {t u : Pass} (h : Beside x k t u) {s : Psub} (hs : s.id ≠ id) :
    Beside x k (t.ask V send now clock s).1 (u.ask V (taking x send id) now clock s).1 ∧
      (u.ask V (taking x send id) now clock s).2 = (t.ask V send now clock s).2 ∧
      ∀ d ∈ (u.ask V (taking x send id) now clock s).1.sent, d.sub.id = id → d ∈ u.sent := by
  by_cases helig : s.Eligible now
  · obtain ⟨started, a, hstart, hstart', hasked, hxfer⟩ := h.start_alike V send clock hs
    obtain ⟨hs₁, hst₁, hp₁, hn₁, hd₁⟩ := ask_of_start helig hstart
    obtain ⟨hs₂, hst₂, hp₂, hn₂, hd₂⟩ := ask_of_start helig hstart'
    refine ⟨⟨hst₂.trans hst₁.symm, by rw [hp₂, hp₁], ?_, by rw [hp₁, hxfer]⟩,
      hs₂.trans hs₁.symm, ?_⟩
    · rw [hn₂, hn₁, h.started]
      split <;> omega
    · intro d hd hdid
      rw [hd₂] at hd
      split at hd
      · rcases List.mem_append.mp hd with hd | hd
        · exact hd
        · obtain rfl := List.mem_singleton.mp hd
          exact absurd (hasked.id_eq.symm.trans hdid) hs
      · exact hd
  · obtain ⟨hs₁, hst₁, hp₁, hn₁, hd₁⟩ := ask_of_not_eligible V send clock (t := t) helig
    obtain ⟨hs₂, hst₂, hp₂, hn₂, hd₂⟩ := ask_of_not_eligible V (taking x send id) clock (t := u) helig
    refine ⟨⟨?_, ?_, ?_, ?_⟩, hs₂.trans hs₁.symm, fun d hd _ => by rwa [hd₂] at hd⟩
    · rw [hst₂, hst₁, h.store]
    · rw [hp₂, hp₁, h.push]
    · rw [hn₂, hn₁, h.started]
    · rw [hp₁, h.xfer]

/-- How the two turns of the subscription itself differ: the delivery is started, and the
subscription otherwise left alike. -/
structure Started (now : ℕ) (s s₁ s₂ : Psub) : Prop where
  here : s₁.gone = false
  idle : s₁.inflight = false
  due : s₁.dueMs ≤ now
  asked : s.Asked s₁
  taken : s₂ = s₁.flying

variable (V send now clock) in
/-- The subscription's own turn: nothing is sent, or one transport refuses what the
other takes. -/
theorem Beside.ask_one {t u : Pass} (h : Beside x 0 t u)
    (hrefuse : ∀ s : Psub, s.id = id → (x && send s) = false) {s : Psub} (hs : s.id = id) :
    (Beside x 0 (t.ask V send now clock s).1 (u.ask V (taking x send id) now clock s).1 ∧
        (u.ask V (taking x send id) now clock s).1.sent = u.sent) ∨
      (Beside x 1 (t.ask V send now clock s).1 (u.ask V (taking x send id) now clock s).1 ∧
        Started now s (t.ask V send now clock s).2 (u.ask V (taking x send id) now clock s).2) := by
  by_cases helig : s.Eligible now
  · obtain ⟨a, found, ha, ha', hsub, hxfer⟩ := h.search V clock s
    cases found with
    | none =>
      have hstart : Scan.startDelivery V clock send ⟨t.store, t.push, s⟩ = (false, a) := by
        simp only [Scan.startDelivery, ha]
      have hstart' : Scan.startDelivery V clock (taking x send id) ⟨u.store, u.push, s⟩ =
          (false, ⟨a.store, a.push.joined 0, a.sub⟩) := by
        simp only [Scan.startDelivery, ha']
      obtain ⟨hs₁, hst₁, hp₁, hn₁, hd₁⟩ := ask_of_start helig hstart
      obtain ⟨hs₂, hst₂, hp₂, hn₂, hd₂⟩ := ask_of_start helig hstart'
      refine .inl ⟨⟨hst₂.trans hst₁.symm, by rw [hp₂, hp₁], ?_, by rw [hp₁, hxfer]⟩, hd₂⟩
      rw [hn₂, hn₁]
      exact h.started
    | some count =>
      have hid : (a.sub.prepared count).id = id := by
        rw [(Psub.asked_prepared a.sub count).id_eq, hsub.id_eq, hs]
      have hno : (a.push.xfer && send (a.sub.prepared count)) = false := by
        rw [hxfer]
        exact hrefuse _ hid
      have hyes : taking x send id (a.sub.prepared count) = true := by
        simp [taking, hid]
      have hstart : Scan.startDelivery V clock send ⟨t.store, t.push, s⟩ =
          (false, { a with sub := a.sub.prepared count }) := by
        simp [Scan.startDelivery, ha, Scan.sendBatch, hno]
      have hstart' : Scan.startDelivery V clock (taking x send id) ⟨u.store, u.push, s⟩ =
          (true, ⟨a.store, a.push.joined 1, (a.sub.prepared count).flying⟩) := by
        simp [Scan.startDelivery, ha', Scan.sendBatch, hyes, Pusher.joined, Psub.flying]
      obtain ⟨hs₁, hst₁, hp₁, hn₁, -⟩ := ask_of_start helig hstart
      obtain ⟨hs₂, hst₂, hp₂, hn₂, -⟩ := ask_of_start helig hstart'
      have hasked := hsub.toAsked.trans (Psub.asked_prepared a.sub count)
      refine .inr ⟨⟨hst₂.trans hst₁.symm, by rw [hp₂, hp₁], ?_, by rw [hp₁, hxfer]⟩, ?_⟩
      · rw [hn₂, hn₁, h.started]
        rfl
      · rw [hs₁, hs₂]
        exact ⟨hasked.gone_eq.trans helig.here, hsub.inflight_eq.trans helig.idle,
          hasked.dueMs_eq.trans_le helig.due, hasked, rfl⟩
  · obtain ⟨-, hst₁, hp₁, hn₁, -⟩ := ask_of_not_eligible V send clock (t := t) helig
    obtain ⟨-, hst₂, hp₂, hn₂, hd₂⟩ := ask_of_not_eligible V (taking x send id) clock (t := u) helig
    refine .inl ⟨⟨?_, ?_, ?_, ?_⟩, hd₂⟩
    · rw [hst₂, hst₁, h.store]
    · rw [hp₂, hp₁, h.push]
    · rw [hn₂, hn₁, h.started]
    · rw [hp₁, h.xfer]

variable (V send now clock) in
theorem askAll_append (t : Pass) (l l' : List Psub) : askAll V send now clock t (l ++ l') =
    ((askAll V send now clock (askAll V send now clock t l).1 l').1,
      (askAll V send now clock t l).2 ++
        (askAll V send now clock (askAll V send now clock t l).1 l').2) := by
  induction l generalizing t with
  | nil => rfl
  | cons s l ih => simp only [List.cons_append, askAll, ih]

variable (V send now clock) in
theorem askAll_ids (t : Pass) (ss : List Psub) :
    (askAll V send now clock t ss).2.map Psub.id = ss.map Psub.id := by
  induction ss generalizing t with
  | nil => rfl
  | cons s ss ih =>
    have hid := (ask_turned V send now clock t s).asked.id_eq
    simp only [askAll, List.map_cons, ih, hid]

variable (V send now clock) in
theorem Beside.askAll_others {k : ℕ} {t u : Pass} (h : Beside x k t u) {ss : List Psub}
    (hss : ∀ s ∈ ss, s.id ≠ id) :
    Beside x k (askAll V send now clock t ss).1 (askAll V (taking x send id) now clock u ss).1 ∧
      (askAll V (taking x send id) now clock u ss).2 = (askAll V send now clock t ss).2 ∧
      ∀ d ∈ (askAll V (taking x send id) now clock u ss).1.sent, d.sub.id = id → d ∈ u.sent := by
  induction ss generalizing t u with
  | nil => exact ⟨h, rfl, fun d hd _ => hd⟩
  | cons s ss ih =>
    obtain ⟨hturn, hsub, hsent⟩ := h.ask_other V send now clock (hss s List.mem_cons_self)
    obtain ⟨hrest, hsubs, hsents⟩ := ih hturn fun y hy => hss y (List.mem_cons_of_mem _ hy)
    refine ⟨hrest, ?_, fun d hd hid => hsent d (hsents d hd hid) hid⟩
    simp only [askAll, hsub, hsubs]

variable (V send now clock) in
theorem Beside.askAll {t u : Pass} (h : Beside x 0 t u) {ss : List Psub}
    (hids : (ss.map Psub.id).Nodup) (hrefuse : ∀ s : Psub, s.id = id → (x && send s) = false)
    (hnone : u.sent = [])
    (hstart : ∃ d ∈ (askAll V (taking x send id) now clock u ss).1.sent, d.sub.id = id) :
    Beside x 1 (Pass.askAll V send now clock t ss).1
        (Pass.askAll V (taking x send id) now clock u ss).1 ∧
      ∃ s ∈ ss, s.id = id ∧ ∃ pre s₁ s₂ suf,
        (Pass.askAll V send now clock t ss).2 = pre ++ s₁ :: suf ∧
        (Pass.askAll V (taking x send id) now clock u ss).2 = pre ++ s₂ :: suf ∧
        Started now s s₁ s₂ := by
  obtain ⟨d, hd, hdid⟩ := hstart
  by_cases hmem : ∃ s ∈ ss, s.id = id
  · obtain ⟨s, hs, rfl⟩ := hmem
    obtain ⟨pre, suf, rfl⟩ := List.append_of_mem hs
    have hothers : ∀ y ∈ pre ++ suf, y.id ≠ s.id := by
      rw [List.map_append, List.map_cons, List.nodup_append] at hids
      intro y hy
      rcases List.mem_append.mp hy with hy | hy
      · exact hids.2.2 _ (List.mem_map.mpr ⟨y, hy, rfl⟩) _ List.mem_cons_self
      · intro hyid
        exact (List.nodup_cons.mp hids.2.1).1 (List.mem_map.mpr ⟨y, hy, hyid⟩)
    have hpre : ∀ y ∈ pre, y.id ≠ s.id := fun y hy => hothers y (List.mem_append_left _ hy)
    have hsuf : ∀ y ∈ suf, y.id ≠ s.id := fun y hy => hothers y (List.mem_append_right _ hy)
    obtain ⟨hpre, hpres, hsent⟩ := h.askAll_others V send now clock hpre
    simp only [askAll_append, Pass.askAll] at hd ⊢
    rcases hpre.ask_one V send now clock hrefuse rfl with ⟨hturn, hsame⟩ | ⟨hturn, hstarted⟩
    · obtain ⟨-, -, hsents⟩ := hturn.askAll_others V send now clock hsuf
      have hthere := hsents d hd hdid
      rw [hsame] at hthere
      have hgone := hsent d hthere hdid
      rw [hnone] at hgone
      exact absurd hgone List.not_mem_nil
    · obtain ⟨hrest, hsufs, -⟩ := hturn.askAll_others V send now clock hsuf
      refine ⟨hrest, s, hs, rfl, _, _, _, _, rfl, ?_, hstarted⟩
      rw [hpres, hsufs]
  · have hothers : ∀ s ∈ ss, s.id ≠ id := fun s hs hid => hmem ⟨s, hs, hid⟩
    obtain ⟨-, -, hsent⟩ := h.askAll_others V send now clock hothers
    have hthere := hsent d hd hdid
    rw [hnone] at hthere
    exact absurd hthere List.not_mem_nil

end Pass

namespace App

variable {V : Vendor} {send : Psub → Bool} {now clock id : ℕ} {b : App} {r : Reply}

theorem pump_idle (h : b.push.work = false) :
    b.pump V send now clock = ⟨pumpWait b.push 0 now, [], b⟩ := by
  simp [pump, h]

theorem pump_work (h : b.push.work = true) : b.pump V send now clock =
    let t := (b.pumpPass V send now clock).1
    let push := { t.push with
      subs := (b.pumpPass V send now clock).2
      work := if t.started = 0 ∧ t.busy = false then false else t.push.work }
    ⟨pumpWait push t.nextDue now, t.sent, ⟨t.store, push⟩⟩ := by
  simp only [pump, h, if_true]

theorem delivered_unreached {pre suf : List Psub} {s : Psub}
    (hsubs : b.push.subs = pre ++ s.flying :: suf) (hids : (b.push.subs.map Psub.id).Nodup)
    (hgone : s.gone = false) (hidle : s.inflight = false) (hr : r.reached = false) :
    b.delivered clock s.id r now = ⟨b.store, { b.push with
      subs := pre ++ s.failed r now :: suf
      inflight := b.push.inflight - 1 }⟩ := by
  have hfind : b.push.subs.findIdx? (·.id == s.id) = some pre.length := by
    rw [hsubs, List.map_append, List.map_cons, List.nodup_append] at hids
    rw [hsubs, List.findIdx?_append, List.findIdx?_eq_none_iff.mpr]
    · simp [List.findIdx?_cons, Psub.flying]
    · intro y hy
      have hne : y.id ≠ s.id :=
        hids.2.2 _ (List.mem_map.mpr ⟨y, hy, rfl⟩) _ List.mem_cons_self
      simpa using hne
  have hget : b.push.subs[pre.length]? = some s.flying := by simp [hsubs]
  have hgone' : s.flying.gone = false := hgone
  simp only [delivered, hfind, hget, hgone', Bool.false_eq_true, if_false, Psub.settle_unreached hr,
    Psub.hear_landed hidle]
  simp [hsubs, Psub.failed]

theorem map_one {pre suf : List Psub} {s : Psub} (f : Psub → Psub)
    (hids : ((pre ++ s :: suf).map Psub.id).Nodup) :
    (pre ++ s :: suf).map (fun y => if y.id = s.id then f y else y) = pre ++ f s :: suf := by
  rw [List.map_append, List.map_cons, List.nodup_append] at hids
  have hpre : ∀ y ∈ pre, y.id ≠ s.id := fun y hy =>
    hids.2.2 _ (List.mem_map.mpr ⟨y, hy, rfl⟩) _ List.mem_cons_self
  have hsuf : ∀ y ∈ suf, y.id ≠ s.id := fun y hy hyid =>
    (List.nodup_cons.mp hids.2.1).1 (List.mem_map.mpr ⟨y, hy, hyid⟩)
  have hsame : ∀ l : List Psub, (∀ y ∈ l, y.id ≠ s.id) →
      l.map (fun y => if y.id = s.id then f y else y) = l := by
    intro l hl
    rw [List.map_congr_left fun y hy => if_neg (hl y hy)]
    exact List.map_id' l
  rw [List.map_append, List.map_cons, hsame pre hpre, hsame suf hsuf, if_pos rfl]

/-- What the report leaves is what the refusal leaves, and the failure counted. -/
theorem reported_eq (hids : (b.push.subs.map Psub.id).Nodup)
    (hrefuse : ∀ s : Psub, s.id = id → (b.push.xfer && send s) = false)
    (hstart : ∃ d ∈ (b.pumpTaking V send now clock id).sent, d.sub.id = id)
    (hr : r.reached = false) :
    b.reported V send now clock id r = (b.pump V send now clock).app.counted id r now ∧
      ∃ s ∈ b.push.subs, ∃ s' ∈ (b.pump V send now clock).app.push.subs,
        s.id = id ∧ s.Asked s' ∧ s'.dueMs ≤ now := by
  cases hwork : b.push.work with
  | false =>
    obtain ⟨d, hd, -⟩ := hstart
    have hdown : ({ b with push := b.push.joined 0 } : App).push.work = false := hwork
    rw [pumpTaking, pump_idle hdown] at hd
    exact absurd hd List.not_mem_nil
  | true =>
    have hup : ({ b with push := b.push.joined 0 } : App).push.work = true := hwork
    have hbegin : Pass.Beside b.push.xfer 0 b.passStart
        ({ b with push := b.push.joined 0 } : App).passStart := ⟨rfl, rfl, rfl, rfl⟩
    rw [pumpTaking, pump_work hup] at hstart
    obtain ⟨hend, s, hs, rfl, pre, s₁, s₂, suf, hsubs, hsubs', hstarted⟩ :=
      hbegin.askAll V send now clock hids hrefuse rfl hstart
    have hstill := Pass.askAll_ids V send now clock b.passStart b.push.subs
    rw [hsubs] at hstill
    rw [← hstill] at hids
    have hkept := pumpPass_work V send now clock hwork
    have hid₁ := hstarted.asked.id_eq
    have hpass : b.pumpPass V send now clock =
        Pass.askAll V send now clock b.passStart b.push.subs := rfl
    have hpass' : ({ b with push := b.push.joined 0 } : App).pumpPass V
        (taking b.push.xfer send s.id) now clock =
        Pass.askAll V (taking b.push.xfer send s.id) now clock
          ({ b with push := b.push.joined 0 } : App).passStart b.push.subs := rfl
    simp only [reported, pumpTaking, pump_work hup, pump_work hwork, hpass'] at hkept ⊢
    rw [hpass] at hkept ⊢
    generalize Pass.askAll V send now clock b.passStart b.push.subs = T at *
    generalize Pass.askAll V (taking b.push.xfer send s.id) now clock _ b.push.subs = U at *
    obtain ⟨t, ss⟩ := T
    obtain ⟨u, ss'⟩ := U
    dsimp only at hend hsubs hsubs' hkept ⊢
    subst hsubs hsubs'
    have hbusy : ¬ (u.started = 0 ∧ u.busy = false) := by
      have := hend.started
      omega
    obtain rfl := hstarted.taken
    have hids' : ((pre ++ s₁.flying :: suf).map Psub.id).Nodup := by
      rw [List.map_append, List.map_cons] at hids ⊢
      exact hids
    have hflown : delivered clock ⟨u.store, { u.push with
          subs := pre ++ s₁.flying :: suf
          work := u.push.work }⟩ s₁.id r now = _ :=
      delivered_unreached rfl hids' hstarted.here hstarted.idle hr
    refine ⟨?_, s, hs, s₁, List.mem_append_right _ List.mem_cons_self, rfl, hstarted.asked,
      hstarted.due⟩
    simp only [if_neg hbusy, ← hid₁, hflown, counted, map_one _ hids]
    simp only [hend.store, hend.push, Pusher.joined, hkept, hend.xfer, Nat.add_sub_cancel]

theorem pump_keeps_work_iff (hwork : b.push.work = true) :
    (b.pump V send now clock).app.push.work = true ↔
      (b.pump V send now clock).sent ≠ [] ∨ (b.pumpPass V send now clock).1.busy = true := by
  have hkept := pumpPass_work V send now clock hwork
  have hcount := pumpPass_started V send now clock (b := b)
  rw [pump_work hwork]
  dsimp only
  rw [hkept, hcount]
  simp only [List.length_eq_zero_iff]
  by_cases hsent : (b.pumpPass V send now clock).1.sent = []
  · simp [hsent]
  · simp [hsent]

end App

/-- No refused delivery is counted: the subscription keeps its failures, its error and its
due time, and the flag survives only for the sake of others. -/
theorem refusal_never_counted {V : Vendor} {send : Psub → Bool} {now clock id : ℕ} {b : App}
    {r : Reply} (hids : (b.push.subs.map Psub.id).Nodup)
    (hrefuse : ∀ s : Psub, s.id = id → (b.push.xfer && send s) = false)
    (hstart : ∃ d ∈ (b.pumpTaking V send now clock id).sent, d.sub.id = id)
    (hr : r.reached = false) :
    (b.pump V send now clock).app ≠ b.reported V send now clock id r ∧
      b.reported V send now clock id r = (b.pump V send now clock).app.counted id r now ∧
      (∃ s ∈ b.push.subs, ∃ s' ∈ (b.pump V send now clock).app.push.subs,
        s.id = id ∧ s.Asked s' ∧ s'.dueMs ≤ now) ∧
      ((b.pump V send now clock).app.push.work = true ↔
        (b.pump V send now clock).sent ≠ [] ∨ (b.pumpPass V send now clock).1.busy = true) := by
  obtain ⟨heq, s, hs, s', hs', hid, hasked, hdue⟩ := App.reported_eq hids hrefuse hstart hr
  refine ⟨?_, heq, ⟨s, hs, s', hs', hid, hasked, hdue⟩, ?_⟩
  · -- the failure is in one table and not in the other
    intro hsame
    rw [heq] at hsame
    have hsubs : (b.pump V send now clock).app.push.subs =
        (b.pump V send now clock).app.push.subs.map fun s => if s.id = id then s.failed r now else s :=
      congrArg (fun a => a.push.subs) hsame
    obtain ⟨i, hi, rfl⟩ := List.getElem_of_mem hs'
    have hrow := congrArg (·[i]?) hsubs
    simp only [List.getElem?_map, List.getElem?_eq_getElem hi, Option.map_some,
      hasked.id_eq.trans hid, if_true, Option.some.injEq] at hrow
    have hcount := congrArg Psub.failures hrow
    rw [Psub.failed_failures] at hcount
    omega
  · refine App.pump_keeps_work_iff ?_
    by_contra hdown
    rw [Bool.not_eq_true] at hdown
    obtain ⟨d, hd, -⟩ := hstart
    have hdown' : ({ b with push := b.push.joined 0 } : App).push.work = false := hdown
    rw [App.pumpTaking, App.pump_idle hdown'] at hd
    exact absurd hd List.not_mem_nil

theorem Pumped.started_of_any {p : Pumped} {id : ℕ}
    (h : (p.sent.any fun d => d.sub.id == id) = true) : ∃ d ∈ p.sent, d.sub.id = id := by
  simpa using h

/-- A message waits for `billing`. -/
def waitingBilling : App :=
  (run (pushExec .packing) (App.start .empty [] 0) (plainRun.take 2)).2

def Reply.unspoken : Reply := ⟨false, 0, none, [], []⟩

/-- Its one delivery is refused: nothing is counted, the flag is dropped, and a later pump
does not try again, though a report would have had it tried at 502. -/
theorem refused_billing_stranded :
    (∀ s : Psub, s.id = 0 → (waitingBilling.push.xfer && (fun _ => false) s) = false) ∧
    (∃ d ∈ (waitingBilling.pumpTaking .packing (fun _ => false) 2 2 0).sent, d.sub.id = 0) ∧
    ¬ (waitingBilling.pump .packing (fun _ => false) 2 2).app =
      waitingBilling.reported .packing (fun _ => false) 2 2 0 .unspoken ∧
    (waitingBilling.pump .packing (fun _ => false) 2 2).app.push.work = false ∧
    ((waitingBilling.pump .packing (fun _ => false) 2 2).app.pump .packing
      (fun _ => true) 502 502).sent = [] ∧
    ∃ d ∈ ((waitingBilling.reported .packing (fun _ => false) 2 2 0 .unspoken).pump .packing
      (fun _ => true) 502 502).sent, d.sub.id = 0 := by
  refine ⟨fun s _ => Bool.and_false _, Pumped.started_of_any ?_, fun h => ?_, ?_,
    List.isEmpty_iff.mp ?_, Pumped.started_of_any ?_⟩
  case refine_2 =>
    have hwork := congrArg (fun a => a.push.work) h
    revert hwork
    decide +kernel
  all_goals decide +kernel

/-- What the refusal leaves there, and what it should. -/
theorem refused_billing_uncounted :
    let b := waitingBilling.pump .packing (fun _ => false) 2 2
    let b' := waitingBilling.reported .packing (fun _ => false) 2 2 0 .unspoken
    b.app ≠ b' ∧ b' = b.app.counted 0 .unspoken 2 ∧
      (∃ s ∈ waitingBilling.push.subs, ∃ s' ∈ b.app.push.subs,
        s.id = 0 ∧ s.Asked s' ∧ s'.dueMs ≤ 2) ∧
      (b.app.push.work = true ↔ b.sent ≠ [] ∨
        (waitingBilling.pumpPass .packing (fun _ => false) 2 2).1.busy = true) :=
  refusal_never_counted (by decide +kernel) (fun _ _ => Bool.and_false _)
    (Pumped.started_of_any (by decide +kernel)) rfl

end SukkalMsg
