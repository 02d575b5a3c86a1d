import SukkalMsg.PushProgress

/-!
# Deliveries in flight

What a step does to the table of subscriptions, to the count of those in flight, and to
the deliveries the transport has accepted and not reported. The transport reports each of
them once, between two steps.
-/

namespace SukkalMsg

open Std Names Binjson OrderedScan BoundedTable Store ActionRuns

/-- The subscription is the one the delivery was sent for, and describes it as it was. -/
structure Psub.Holds (s : Psub) (d : Sent) : Prop where
  subject : s.subject = d.sub.subject
  first : s.first = d.sub.first
  last : s.last = d.sub.last
  jobs : s.jobs = d.sub.jobs
  body : s.body = d.sub.body

/-- Only the registration of a subscription has changed, or its mark while it is in flight. -/
structure Psub.Altered (s s' : Psub) : Prop where
  id_eq : s'.id = s.id
  inflight_eq : s'.inflight = s.inflight
  subject_eq : s'.subject = s.subject
  first_eq : s'.first = s.first
  last_eq : s'.last = s.last
  jobs_eq : s'.jobs = s.jobs
  body_eq : s'.body = s.body
  marked : s'.gone = s.gone ∨ s'.gone = true ∧ s.inflight = true

theorem Psub.Altered.holds {s s' : Psub} {d : Sent} (h : s.Altered s') (hd : s.Holds d) :
    s'.Holds d :=
  ⟨h.subject_eq.trans hd.subject, h.first_eq.trans hd.first, h.last_eq.trans hd.last,
    h.jobs_eq.trans hd.jobs, h.body_eq.trans hd.body⟩

theorem Psub.Holds.hear {s : Psub} {d : Sent} (h : s.Holds d) (r : Reply) : (s.hear r).Holds d := by
  rw [s.hear_same r]
  exact ⟨h.subject, h.first, h.last, h.jobs, h.body⟩

def PushOp.reports : PushOp → Option ℕ
  | .delivered _ id _ _ => some id
  | _ => none

/-- What a step does to the table, given what it reports and what it has sent. -/
inductive Pusher.TableStep (p p' : Pusher) : Option ℕ → List Sent → Prop
  | still (hs : p'.subs = p.subs) (hc : p'.inflight = p.inflight) (hi : p'.nextId = p.nextId) :
    TableStep p p' none []
  | unknown {id : ℕ} (hno : ∀ s ∈ p.subs, s.id ≠ id) (hp : p' = p) : TableStep p p' (some id) []
  | altered {s s' : Psub} {rest : List Psub} (hs : p.subs.Perm (s :: rest))
    (hs' : p'.subs.Perm (s' :: rest)) (h : s.Altered s') (hc : p'.inflight = p.inflight)
    (hi : p'.nextId = p.nextId) : TableStep p p' none []
  | added {s : Psub} (hs : p'.subs.Perm (s :: p.subs)) (hid : s.id = p.nextId)
    (hf : s.inflight = false) (hg : s.gone = false) (hc : p'.inflight = p.inflight)
    (hi : p'.nextId = p.nextId + 1) : TableStep p p' none []
  | dropped {s : Psub} {rest : List Psub} (hs : p.subs.Perm (s :: rest)) (hs' : p'.subs.Perm rest)
    (hf : s.inflight = false) (hc : p'.inflight = p.inflight) (hi : p'.nextId = p.nextId) :
    TableStep p p' none []
  | buried {s : Psub} {rest : List Psub} (hs : p.subs.Perm (s :: rest)) (hs' : p'.subs.Perm rest)
    (hg : s.gone = true) (hc : p'.inflight = p.inflight - 1) (hi : p'.nextId = p.nextId) :
    TableStep p p' (some s.id) []
  | settled {s s' : Psub} {rest : List Psub} (hs : p.subs.Perm (s :: rest))
    (hs' : p'.subs.Perm (s' :: rest)) (hid : s'.id = s.id) (hg : s.gone = false)
    (hg' : s'.gone = false) (hf : s'.inflight = false) (hc : p'.inflight = p.inflight - 1)
    (hi : p'.nextId = p.nextId) : TableStep p p' (some s.id) []
  | pumped {V : Vendor} {now : ℕ} {ds : List Sent} (h : PumpTurns V now p.subs p'.subs ds)
    (hc : p'.inflight = p.inflight + ds.length) (hi : p'.nextId = p.nextId) :
    TableStep p p' none ds

theorem perm_of_split {ss pre suf : List Psub} {s : Psub} (h : ss = pre ++ s :: suf) :
    ss.Perm (s :: (pre ++ suf)) := by
  rw [h]
  exact List.perm_middle

namespace Pusher

theorem tableStep_add (p : Pusher) (c : Bytes) (cfg : PushSub) :
    p.TableStep (p.add c cfg) none [] := by
  rcases p.add_cases c cfg with ⟨pre, s, suf, hsubs, -, -, hadd⟩ | ⟨-, hadd⟩
  · have hs' : (p.add c cfg).subs.Perm ({ s with cfg := cfg } :: (pre ++ suf)) := by
      rw [hadd]
      exact List.perm_middle
    exact .altered (perm_of_split hsubs) hs' ⟨rfl, rfl, rfl, rfl, rfl, rfl, rfl, .inl rfl⟩
      (by rw [hadd]) (by rw [hadd])
  · have hs : (p.add c cfg).subs.Perm (p.psubNew c cfg :: p.subs) := by
      rw [hadd]
      exact List.perm_append_singleton _ _
    exact .added hs rfl rfl rfl (by rw [hadd]) (by rw [hadd])

theorem tableStep_remove (p : Pusher) (c : Bytes) : p.TableStep (p.remove c) none [] := by
  rcases p.remove_cases c with ⟨heq, -⟩ | ⟨pre, s, suf, hsubs, -, -, ⟨hf, heq⟩ | ⟨hf, suf', hperm,
    heq⟩⟩ <;> rw [heq]
  · exact .still rfl rfl rfl
  · exact .altered (perm_of_split hsubs) List.perm_middle
      ⟨rfl, rfl, rfl, rfl, rfl, rfl, rfl, .inr ⟨rfl, hf⟩⟩ rfl rfl
  · exact .dropped (perm_of_split hsubs) (hperm.append_left pre) hf rfl rfl

end Pusher

namespace App

variable {V : Vendor} {b : App}

theorem tableStep_put (b : App) (req : Request) :
    b.push.TableStep (b.hPushPut req).2.push none [] := by
  rcases b.hPushPut_push req with heq | ⟨r, found, -, -, heq⟩
  · rw [heq]
    exact .still rfl rfl rfl
  · rw [heq]
    obtain ⟨w, hw⟩ : ∃ w, (if found.isNone then b.seedFor req r else b).push =
        { b.push with work := w } := by
      split
      · rw [seedFor_push]
        split
        · exact ⟨true, rfl⟩
        · exact ⟨_, rfl⟩
      · exact ⟨_, rfl⟩
    -- seeding raises the work flag at most, which the table does not look at
    simp only [register, hw]
    cases Pusher.tableStep_add { b.push with work := w } r.consumer r.cfg with
    | still hs hc hi => exact .still hs hc hi
    | altered hs hs' h hc hi => exact .altered hs hs' h hc hi
    | added hs hid hf hg hc hi => exact .added hs hid hf hg hc hi
    | dropped hs hs' hf hc hi => exact .dropped hs hs' hf hc hi
    | pumped h hc hi => exact .pumped h hc hi

theorem tableStep_delete (b : App) (req : Request) :
    b.push.TableStep (b.hPushDelete req).2.push none [] := by
  rcases b.hPushDelete_push req with heq | ⟨c, -, hpush, -⟩
  · rw [heq]
    exact .still rfl rfl rfl
  · rw [hpush]
    exact b.push.tableStep_remove c

theorem tableStep_delivered (clock : ℕ) (b : App) (id : ℕ) (r : Reply) (now : ℕ) :
    b.push.TableStep (b.delivered clock id r now).push (some id) [] := by
  rcases b.delivered_cases clock id r now with ⟨heq, hno⟩ | ⟨pre, s, suf, hsubs, rfl,
    ⟨hg, suf', hperm, heq⟩ | ⟨hg, x, rfl, heq⟩⟩ <;> rw [heq]
  · exact .unknown hno rfl
  · exact .buried (perm_of_split hsubs) (hperm.append_left pre) hg rfl rfl
  · have hrep := Psub.replied_settle clock b.store s r now
    exact .settled (perm_of_split hsubs) List.perm_middle hrep.id_eq hg
      (hrep.gone_eq.trans hg) hrep.inflight_eq rfl rfl

theorem tableStep_pump (hn : ∀ name ∈ b.push.names, slash ∉ name) (hw : b.store.Words)
    (send : Psub → Bool) (now clock : ℕ) :
    b.push.TableStep (b.pump V send now clock).app.push none (b.pump V send now clock).sent := by
  rcases b.pump_cases V send now clock hn hw with
    ⟨-, heq⟩ | ⟨-, ss', ds, st, p', w, hsent, happ, hturns, -, hpush, -⟩
  · rw [heq]
    exact .still rfl rfl rfl
  · rw [hsent, happ]
    refine .pumped hturns ?_ ?_ <;> rw [hpush.same]

theorem tableStep_apply (op : PushOp) (hnames : ∀ name ∈ b.push.names, slash ∉ name)
    (hw : b.store.Words) (hn : op.Named) :
    b.push.TableStep (b.apply V op).2.push op.reports (b.apply V op).1 := by
  by_cases he : op.Elsewhere
  · obtain ⟨hsent, hl⟩ := apply_elsewhere (V := V) (b := b) hn he
    have hreports : op.reports = none := by
      cases op <;> first | rfl | exact he.elim
    rw [hsent, hreports]
    exact .still hl.subs_eq hl.inflight_eq hl.nextId_eq
  cases op with
  | put req => exact b.tableStep_put req
  | delete req => exact b.tableStep_delete req
  | delivered clock id r now => exact tableStep_delivered clock b id r now
  | pump send now clock => exact tableStep_pump hnames hw send now clock
  | publish => exact absurd trivial he
  | ack => exact absurd trivial he
  | unsubscribe => exact absurd trivial he
  | take => exact absurd trivial he
  | done => exact absurd trivial he
  | fail => exact absurd trivial he
  | trim => exact absurd trivial he

end App

/-! ### The accounts -/

/-- What is left of the accepted deliveries after a report. -/
def unreported (l : List Sent) : Option ℕ → List Sent
  | none => l
  | some id => l.eraseP (·.sub.id == id)

/-- The deliveries that have been accepted and not reported, one step further. -/
def PushStep.settles (x : PushStep) (l : List Sent) : List Sent :=
  unreported l x.op.reports ++ x.sent

/-- The deliveries the transport has accepted in a run and has not reported. -/
def awaiting (h : List PushStep) : List Sent := h.foldl (fun l x => x.settles l) []

theorem awaiting_snoc (h : List PushStep) (x : PushStep) :
    awaiting (h ++ [x]) = x.settles (awaiting h) := by
  simp [awaiting, List.foldl_append]

/-- The counter and the table agree with what the transport is about to report. -/
structure Accounted (l : List Sent) (n : ℕ) (ss : List Psub) : Prop where
  count : n = ss.countP (·.inflight)
  single : (l.map fun d => d.sub.id).Nodup
  held : ∀ d ∈ l, ∃ s ∈ ss, s.id = d.sub.id ∧ s.inflight = true ∧ s.Holds d
  flying : ∀ s ∈ ss, s.inflight = true → ∃ d ∈ l, d.sub.id = s.id
  gone : ∀ s ∈ ss, s.gone = true → s.inflight = true

theorem mem_eraseP_ids {l : List Sent} {i : ℕ} (hl : (l.map fun d => d.sub.id).Nodup) {d : Sent} :
    d ∈ l.eraseP (·.sub.id == i) ↔ d ∈ l ∧ d.sub.id ≠ i := by
  induction l with
  | nil => simp
  | cons e l ih =>
    rw [List.map_cons, List.nodup_cons] at hl
    by_cases he : e.sub.id = i
    · rw [List.eraseP_cons_of_pos (by simpa using he), List.mem_cons]
      constructor
      · intro hd
        refine ⟨.inr hd, fun hi => hl.1 ?_⟩
        rw [he, ← hi]
        exact List.mem_map_of_mem hd
      · rintro ⟨rfl | hd, hi⟩
        · exact absurd he hi
        · exact hd
    · rw [List.eraseP_cons_of_neg (by simpa using he), List.mem_cons, List.mem_cons, ih hl.2]
      constructor
      · rintro (rfl | ⟨hd, hi⟩)
        · exact ⟨.inl rfl, he⟩
        · exact ⟨.inr hd, hi⟩
      · rintro ⟨rfl | hd, hi⟩
        · exact .inl rfl
        · exact .inr ⟨hd, hi⟩

theorem PumpTurns.countP_inflight {V : Vendor} {now : ℕ} {ss ss' : List Psub} {ds : List Sent}
    (h : PumpTurns V now ss ss' ds) :
    ss'.countP (·.inflight) = ss.countP (·.inflight) + ds.length := by
  induction h with
  | nil => rfl
  | @cons s s' ss ss' l ls h _ ih =>
    rw [List.countP_cons, List.countP_cons, List.length_append, ih]
    cases h with
    | skipped _ =>
      rw [List.length_nil]
      omega
    | asked he _ hf =>
      rw [he.idle, hf, List.length_nil]
      omega
    | sent he _ hf _ _ _ =>
      rw [he.idle, hf, List.length_singleton]
      simp
      omega

namespace Accounted

variable {l : List Sent} {n : ℕ} {s s' : Psub} {ss ss' : List Psub}

theorem perm (h : Accounted l n ss) (hp : ss'.Perm ss) : Accounted l n ss' where
  count := h.count.trans (hp.countP_eq _).symm
  single := h.single
  held d hd := by
    obtain ⟨s, hs, hrest⟩ := h.held d hd
    exact ⟨s, hp.mem_iff.mpr hs, hrest⟩
  flying s hs := h.flying s (hp.mem_iff.mp hs)
  gone s hs := h.gone s (hp.mem_iff.mp hs)

theorem altered (h : Accounted l n (s :: ss)) (ha : s.Altered s') : Accounted l n (s' :: ss) where
  count := by
    rw [h.count, List.countP_cons, List.countP_cons, ha.inflight_eq]
  single := h.single
  held d hd := by
    obtain ⟨t, ht, hid, hf, hold⟩ := h.held d hd
    rcases List.mem_cons.mp ht with rfl | ht
    · exact ⟨s', List.mem_cons_self, ha.id_eq.trans hid, ha.inflight_eq.trans hf, ha.holds hold⟩
    · exact ⟨t, List.mem_cons_of_mem _ ht, hid, hf, hold⟩
  flying t ht hf := by
    rcases List.mem_cons.mp ht with rfl | ht
    · rw [ha.id_eq]
      exact h.flying s List.mem_cons_self (ha.inflight_eq ▸ hf)
    · exact h.flying t (List.mem_cons_of_mem _ ht) hf
  gone t ht hg := by
    rcases List.mem_cons.mp ht with rfl | ht
    · rw [ha.inflight_eq]
      rcases ha.marked with he | ⟨-, hf⟩
      · exact h.gone s List.mem_cons_self (he ▸ hg)
      · exact hf
    · exact h.gone t (List.mem_cons_of_mem _ ht) hg

theorem cons_idle_iff (hf : s.inflight = false) (hg : s.gone = false) :
    Accounted l n (s :: ss) ↔ Accounted l n ss := by
  have hcount : (s :: ss).countP (·.inflight) = ss.countP (·.inflight) :=
    List.countP_cons_of_neg (by simp [hf])
  constructor
  · intro h
    refine ⟨h.count.trans hcount, h.single, fun d hd => ?_,
      fun t ht => h.flying t (List.mem_cons_of_mem _ ht),
      fun t ht => h.gone t (List.mem_cons_of_mem _ ht)⟩
    obtain ⟨t, ht, hid, hft, hold⟩ := h.held d hd
    rcases List.mem_cons.mp ht with rfl | ht
    · rw [hf] at hft
      contradiction
    · exact ⟨t, ht, hid, hft, hold⟩
  · intro h
    refine ⟨h.count.trans hcount.symm, h.single, fun d hd => ?_, fun t ht hft => ?_,
      fun t ht hgt => ?_⟩
    · obtain ⟨t, ht, hrest⟩ := h.held d hd
      exact ⟨t, List.mem_cons_of_mem _ ht, hrest⟩
    · rcases List.mem_cons.mp ht with rfl | ht
      · rw [hf] at hft
        contradiction
      · exact h.flying t ht hft
    · rcases List.mem_cons.mp ht with rfl | ht
      · rw [hg] at hgt
        contradiction
      · exact h.gone t ht hgt

theorem landed (h : Accounted l n (s :: ss)) (hids : ((s :: ss).map Psub.id).Nodup)
    (hf : s.inflight = true) : Accounted (l.eraseP (·.sub.id == s.id)) (n - 1) ss := by
  rw [List.map_cons, List.nodup_cons] at hids
  have hne : ∀ t ∈ ss, t.id ≠ s.id := by
    intro t ht he
    exact hids.1 (he ▸ List.mem_map_of_mem ht)
  refine ⟨?_, h.single.sublist (List.eraseP_sublist.map _), fun d hd => ?_, fun t ht hft => ?_,
    fun t ht => h.gone t (List.mem_cons_of_mem _ ht)⟩
  · have hcount := h.count
    rw [List.countP_cons_of_pos (by simp [hf])] at hcount
    omega
  · rw [mem_eraseP_ids h.single] at hd
    obtain ⟨t, ht, hid, hrest⟩ := h.held d hd.1
    rcases List.mem_cons.mp ht with rfl | ht
    · exact absurd hid.symm hd.2
    · exact ⟨t, ht, hid, hrest⟩
  · obtain ⟨d, hd, hid⟩ := h.flying t (List.mem_cons_of_mem _ ht) hft
    refine ⟨d, (mem_eraseP_ids h.single).mpr ⟨hd, ?_⟩, hid⟩
    rw [hid]
    exact hne t ht

/-- A pass starts deliveries for idle subscriptions only. -/
theorem pumped {V : Vendor} {now : ℕ} {ds : List Sent} (h : Accounted l n ss)
    (hids : (ss.map Psub.id).Nodup) (ht : PumpTurns V now ss ss' ds) :
    Accounted (l ++ ds) (n + ds.length) ss' where
  count := by rw [ht.countP_inflight, h.count]
  single := by
    rw [List.map_append, List.nodup_append]
    refine ⟨h.single, hids.sublist ht.sent_ids, ?_⟩
    intro i hi j hj
    obtain ⟨d, hd, rfl⟩ := List.mem_map.mp hi
    obtain ⟨e, he, rfl⟩ := List.mem_map.mp hj
    obtain ⟨s, hs, hid, hf, -⟩ := h.held d hd
    obtain ⟨-, t, ht, hturn⟩ := ht.turn_of_sent he
    obtain ⟨helig, hasked, -⟩ := hturn.sent_inv (List.mem_singleton_self e)
    intro heq
    obtain rfl := List.inj_on_of_nodup_map hids hs ht
      (hid.trans (heq.trans hasked.id_eq))
    rw [helig.idle] at hf
    contradiction
  held := by
    intro d hd
    rcases List.mem_append.mp hd with hd | hd
    · obtain ⟨s, hs, hid, hf, hold⟩ := h.held d hd
      obtain ⟨s', hs', k, hturn, -⟩ := ht.turn_of_mem_left hs
      cases hturn with
      | skipped _ => exact ⟨s, hs', hid, hf, hold⟩
      | asked he _ _ =>
        rw [he.idle] at hf
        contradiction
      | sent he _ _ _ _ _ =>
        rw [he.idle] at hf
        contradiction
    · obtain ⟨hmem, s, hs, hturn⟩ := ht.turn_of_sent hd
      obtain ⟨-, -, -, hf, -⟩ := hturn.sent_inv (List.mem_singleton_self d)
      exact ⟨d.sub, hmem, rfl, hf, rfl, rfl, rfl, rfl, rfl⟩
  flying := by
    intro s' hs' hf
    obtain ⟨s, hs, k, hturn, hk⟩ := ht.turn_of_mem hs'
    cases hturn with
    | skipped _ =>
      obtain ⟨d, hd, hid⟩ := h.flying s' hs hf
      exact ⟨d, List.mem_append_left _ hd, hid⟩
    | asked _ _ hf' =>
      rw [hf'] at hf
      contradiction
    | @sent d _ _ _ _ _ _ =>
      exact ⟨d, List.mem_append_right _ (hk (List.mem_singleton_self d)), rfl⟩
  gone := by
    intro s' hs' hg
    obtain ⟨s, hs, k, hturn, -⟩ := ht.turn_of_mem hs'
    cases hturn with
    | skipped _ => exact h.gone s' hs hg
    | asked he ha _ =>
      rw [ha.gone_eq, he.here] at hg
      contradiction
    | sent _ _ hf _ _ _ => exact hf

theorem step {p p' : Pusher} {reported : Option ℕ} {sent : List Sent}
    (h : Accounted l p.inflight p.subs) (hids : (p.subs.map Psub.id).Nodup)
    (ht : p.TableStep p' reported sent) (hr : ∀ id, reported = some id → ∃ d ∈ l, d.sub.id = id) :
    Accounted (unreported l reported ++ sent) p'.inflight p'.subs := by
  have hlanded : ∀ {s : Psub} {rest : List Psub}, p.subs.Perm (s :: rest) →
      (∃ d ∈ l, d.sub.id = s.id) →
      Accounted (l.eraseP (·.sub.id == s.id)) (p.inflight - 1) rest := by
    rintro s rest hs ⟨d, hd, hid⟩
    have hids' := (hs.map Psub.id).nodup_iff.mp hids
    obtain ⟨t, ht, hid', hf, -⟩ := h.held d hd
    obtain rfl := List.inj_on_of_nodup_map hids ht (hs.mem_iff.mpr List.mem_cons_self)
      (hid'.trans hid)
    exact (h.perm hs.symm).landed hids' hf
  cases ht with
  | still hs hc hi => simpa [unreported, hs, hc] using h
  | unknown hno hp =>
    obtain ⟨d, hd, hid⟩ := hr _ rfl
    obtain ⟨s, hs, hid', -⟩ := h.held d hd
    exact absurd (hid'.trans hid) (hno s hs)
  | altered hs hs' ha hc hi =>
    rw [List.append_nil, hc]
    exact ((h.perm hs.symm).altered ha).perm hs'
  | added hs hid hf hg hc hi =>
    rw [List.append_nil, hc]
    exact ((cons_idle_iff hf hg).mpr h).perm hs
  | @dropped s rest hs hs' hf hc hi =>
    have hg : s.gone = false := by
      by_contra hg
      rw [h.gone s (hs.mem_iff.mpr List.mem_cons_self) (by simpa using hg)] at hf
      contradiction
    rw [List.append_nil, hc]
    exact ((cons_idle_iff hf hg).mp (h.perm hs.symm)).perm hs'
  | buried hs hs' hg hc hi =>
    rw [List.append_nil, hc]
    exact (hlanded hs (hr _ rfl)).perm hs'
  | settled hs hs' hid hg hg' hf hc hi =>
    rw [List.append_nil, hc]
    exact ((cons_idle_iff hf hg').mpr (hlanded hs (hr _ rfl))).perm hs'
  | pumped ht hc hi =>
    rw [hc]
    exact h.pumped hids ht

end Accounted

/-- The id belongs to no subscription any more, or to one that is marked. -/
structure Pusher.Silenced (p : Pusher) (i : ℕ) : Prop where
  used : i < p.nextId
  marked : ∀ s ∈ p.subs, s.id = i → s.gone = true

theorem Pusher.Silenced.step {p p' : Pusher} {i : ℕ} {reported : Option ℕ} {sent : List Sent}
    (h : p.Silenced i) (ht : p.TableStep p' reported sent) :
    p'.Silenced i ∧ ∀ d ∈ sent, d.sub.id ≠ i := by
  cases ht with
  | still hs hc hi => exact ⟨⟨hi ▸ h.used, hs ▸ h.marked⟩, by simp⟩
  | unknown hno hp => exact ⟨hp ▸ h, by simp⟩
  | @altered s s' rest hs hs' ha hc hi =>
    refine ⟨⟨hi ▸ h.used, fun t ht hid => ?_⟩, by simp⟩
    rcases List.mem_cons.mp (hs'.mem_iff.mp ht) with rfl | ht
    · have hg := h.marked s (hs.mem_iff.mpr List.mem_cons_self) (ha.id_eq.symm.trans hid)
      rcases ha.marked with he | ⟨hg', -⟩
      · exact he.trans hg
      · exact hg'
    · exact h.marked t (hs.mem_iff.mpr (List.mem_cons_of_mem _ ht)) hid
  | added hs hid hf hg hc hi =>
    have hused := h.used
    refine ⟨⟨by omega, fun t ht hidt => ?_⟩, by simp⟩
    rcases List.mem_cons.mp (hs.mem_iff.mp ht) with rfl | ht
    · omega
    · exact h.marked t ht hidt
  | dropped hs hs' hf hc hi =>
    refine ⟨⟨hi ▸ h.used, fun t ht hid => ?_⟩, by simp⟩
    exact h.marked t (hs.mem_iff.mpr (List.mem_cons_of_mem _ (hs'.mem_iff.mp ht))) hid
  | buried hs hs' hg hc hi =>
    refine ⟨⟨hi ▸ h.used, fun t ht hid => ?_⟩, by simp⟩
    exact h.marked t (hs.mem_iff.mpr (List.mem_cons_of_mem _ (hs'.mem_iff.mp ht))) hid
  | @settled s s' rest hs hs' hid hg hg' hf hc hi =>
    refine ⟨⟨hi ▸ h.used, fun t ht hidt => ?_⟩, by simp⟩
    rcases List.mem_cons.mp (hs'.mem_iff.mp ht) with rfl | ht
    · rw [h.marked s (hs.mem_iff.mpr List.mem_cons_self) (hid.symm.trans hidt)] at hg
      contradiction
    · exact h.marked t (hs.mem_iff.mpr (List.mem_cons_of_mem _ ht)) hidt
  | pumped ht hc hi =>
    refine ⟨⟨hi ▸ h.used, fun t hmem hid => ?_⟩, fun d hd hid => ?_⟩
    · obtain ⟨s, hs, k, hturn, -⟩ := ht.turn_of_mem hmem
      rw [hturn.toAsked.gone_eq]
      exact h.marked s hs (hturn.toAsked.id_eq.symm.trans hid)
    · obtain ⟨-, s, hs, hturn⟩ := ht.turn_of_sent hd
      obtain ⟨helig, hasked, -⟩ := hturn.sent_inv (List.mem_singleton_self d)
      have hg := h.marked s hs (hasked.id_eq.symm.trans hid)
      rw [helig.here] at hg
      contradiction

/-! ### Runs -/

def PushOp.Awaited (h : List PushStep) (op : PushOp) : Prop :=
  ∀ id, op.reports = some id → ∃ d ∈ awaiting h, d.sub.id = id

theorem awaited_of_silent {h : List PushStep} {op : PushOp} (hop : op.reports = none) :
    op.Awaited h := by
  intro id hid
  rw [hop] at hid
  contradiction

/-- A report finds the subscription of its delivery, in flight and as it was sent, whatever
the reply has brought; and a marked one is gone with it. -/
def ReportsOwn (before : List PushStep) (x : PushStep) : Prop :=
  ∀ id, x.op.reports = some id → ∃ d ∈ awaiting before, d.sub.id = id ∧
    ∃ s ∈ x.before.push.subs, s.id = id ∧ s.inflight = true ∧ (∀ r, (s.hear r).Holds d) ∧
      (s.gone = true → ∀ t ∈ x.after.push.subs, t.id ≠ id)

/-- Nothing is sent for a subscription that is marked, or was at some step before. -/
def SparesMarked (before : List PushStep) (y : PushStep) : Prop :=
  ∀ x ∈ before ++ [y], ∀ s ∈ x.before.push.subs, s.gone = true → ∀ d ∈ y.sent, d.sub.id ≠ s.id

/-- What every run keeps. -/
structure Delivering (V : Vendor) (h : List PushStep) (b : App) : Prop where
  outstanding : Outstanding V h b.push
  accounted : Accounted (awaiting h) b.push.inflight b.push.subs
  silenced : ∀ x ∈ h, ∀ s ∈ x.before.push.subs, s.gone = true → b.push.Silenced s.id
  reports : Each ReportsOwn h
  spares : Each SparesMarked h

namespace Delivering

variable {V : Vendor} {h : List PushStep} {b : App} {op : PushOp}

theorem silenced_of_gone (hd : Delivering V h b) {s : Psub} (hs : s ∈ b.push.subs)
    (hg : s.gone = true) : b.push.Silenced s.id := by
  refine ⟨hd.outstanding.fresh s hs, fun t ht hid => ?_⟩
  obtain rfl := List.inj_on_of_nodup_map hd.outstanding.ids ht hs hid
  exact hg

theorem gone_with_report (hd : Delivering V h b) (hw : b.store.Words) (hn : op.Named) {s : Psub}
    (hs : s ∈ b.push.subs) (hg : s.gone = true) (hr : op.reports = some s.id) :
    ∀ t ∈ (b.apply V op).2.push.subs, t.id ≠ s.id := by
  have hstep := App.tableStep_apply (V := V) op hd.outstanding.names hw hn
  have hids := hd.outstanding.ids
  rw [hr] at hstep
  generalize hi : s.id = i at hstep
  generalize (b.apply V op).1 = ds at hstep
  cases hstep with
  | unknown hno hp => exact absurd hi (hno s hs)
  | @buried u rest hperm hrest hgu hc hnext =>
    have hnodup := (hperm.map Psub.id).nodup_iff.mp hids
    rw [List.map_cons, List.nodup_cons] at hnodup
    intro t ht hid
    exact hnodup.1 (hid ▸ List.mem_map_of_mem (hrest.mem_iff.mp ht))
  | @settled u u' rest hperm hrest hid hgu hgu' hf hc hnext =>
    obtain rfl := List.inj_on_of_nodup_map hids hs (hperm.mem_iff.mpr List.mem_cons_self) hi
    rw [hg] at hgu
    contradiction

theorem step (hd : Delivering V h b) (hw : b.store.Words) (hn : op.Named) (ha : op.Awaited h) :
    Delivering V (h ++ (pushExec V b op).1) (pushExec V b op).2 := by
  have hstep := App.tableStep_apply (V := V) op hd.outstanding.names hw hn
  have hquiet : ∀ i, b.push.Silenced i → ∀ d ∈ (b.apply V op).1, d.sub.id ≠ i := fun i hi =>
    (hi.step hstep).2
  constructor
  · exact hd.outstanding.step hw hn
  · rw [pushExec, awaiting_snoc]
    exact hd.accounted.step hd.outstanding.ids hstep ha
  · intro x hx s hs hg
    have hsil : b.push.Silenced s.id := by
      rcases List.mem_append.mp hx with hx | hx
      · exact hd.silenced x hx s hs hg
      · obtain rfl := List.mem_singleton.mp hx
        exact hd.silenced_of_gone hs hg
    exact (hsil.step hstep).1
  · refine hd.reports.snoc ?_
    intro id hid
    obtain ⟨d, hmem, rfl⟩ := ha id hid
    obtain ⟨s, hs, hsid, hf, hold⟩ := hd.accounted.held d hmem
    refine ⟨d, hmem, rfl, s, hs, hsid, hf, fun r => hold.hear r, fun hg => ?_⟩
    rw [← hsid] at hid ⊢
    exact hd.gone_with_report hw hn hs hg hid
  · refine hd.spares.snoc ?_
    intro x hx s hs hg
    rcases List.mem_append.mp hx with hx | hx
    · exact hquiet _ (hd.silenced x hx s hs hg)
    · obtain rfl := List.mem_singleton.mp hx
      exact hquiet _ (hd.silenced_of_gone hs hg)

theorem inflight_namesLoad (p : Pusher) (listing : List Bytes) :
    (p.namesLoad listing).inflight = p.inflight := by
  induction listing generalizing p with
  | nil => rfl
  | cons e listing ih =>
    simp only [Pusher.namesLoad, List.foldl_cons] at ih ⊢
    rw [ih]
    split
    · rfl
    split
    · rfl
    split
    · rfl
    · simp only [Pusher.namesAdd]
      split <;> rfl

theorem inflight_start (st : Store) (listing : List Bytes) (n : ℕ) :
    (App.start st listing n).push.inflight = 0 := by
  have hload : ∀ (l : List (Bytes × PushSub)) (p : Pusher),
      (l.foldl (fun p x => p.loadOne x.1 x.2) p).inflight = p.inflight := by
    intro l
    induction l with
    | nil => exact fun _ => rfl
    | cons x l ih => exact fun p => ih (p.loadOne x.1 x.2)
  exact (hload _ _).trans (inflight_namesLoad _ _)

theorem start {st : Store} {listing : List Bytes} (hl : ∀ e ∈ listing, slash ∉ e)
    (hv : st.Enlisted) (n : ℕ) : Delivering V [] (App.start st listing n) := by
  have hrest := App.start_rested st n hl
  refine ⟨App.start_outstanding hl hv, ?_, by simp, each_nil, each_nil⟩
  have hzero : (App.start st listing n).push.subs.countP (·.inflight) = 0 := by
    rw [List.countP_eq_zero]
    intro s hs
    simp [hrest.idle s hs]
  refine ⟨?_, .nil, by simp [awaiting], fun s hs hf => ?_, fun s hs hg => ?_⟩
  · rw [hzero]
    exact inflight_start st listing n
  · rw [hrest.idle s hs] at hf
    contradiction
  · rw [hrest.here s hs] at hg
    contradiction

end Delivering

/-- In every run in which the transport reports what it accepted once, and between two
steps, the counter is the number of subscriptions in flight and each of them has one
delivery that it describes as it was sent; a marked one is in flight, is not sent to again
and goes with its report, which finds it in the table. -/
theorem inflight_accounted {V : Vendor} {st : Store} {listing : List Bytes} {n : ℕ}
    {ops : List PushOp} (hl : ∀ e ∈ listing, slash ∉ e) (hv : st.Enlisted)
    (hrun : Along (pushExec V) (fun h b op => b.store.Words ∧ op.Named ∧ op.Awaited h) []
      (App.start st listing n) ops) :
    let h := (run (pushExec V) (App.start st listing n) ops).1
    let b := (run (pushExec V) (App.start st listing n) ops).2
    Accounted (awaiting h) b.push.inflight b.push.subs ∧ Each ReportsOwn h ∧
      Each SparesMarked h := by
  have hinv := invariant (Delivering.start hl hv n) hrun fun h b op hg hd =>
    hd.step hg.1 hg.2.1 hg.2.2
  rw [List.nil_append] at hinv
  exact ⟨hinv.accounted, hinv.reports, hinv.spares⟩

/-- A deleted consumer's delivery is reported while its successor's is outstanding. -/
def reportedTwin : List PushOp := purgeTwins ++ [.delivered 4 0 ⟨true, 200, none, [], []⟩ 4]

theorem reportedTwin_along :
    Along (pushExec .packing) (fun h b op => b.store.Words ∧ op.Named ∧ op.Awaited h) []
      (App.start .empty [] 0) reportedTwin := by
  have hnamed : bjmSubjectValid (ascii "orders") = true := by decide
  refine along_append.mpr ⟨⟨⟨words_of_logs ?_, hnamed, awaited_of_silent rfl⟩,
    ⟨words_of_logs ?_, hnamed, awaited_of_silent rfl⟩,
    ⟨words_of_logs ?_, trivial, awaited_of_silent rfl⟩,
    ⟨words_of_logs ?_, trivial, awaited_of_silent rfl⟩,
    ⟨words_of_logs ?_, trivial, awaited_of_silent rfl⟩,
    ⟨words_of_logs ?_, trivial, awaited_of_silent rfl⟩,
    ⟨words_of_logs ?_, trivial, awaited_of_silent rfl⟩,
    ⟨words_of_logs ?_, trivial, awaited_of_silent rfl⟩, trivial⟩,
    ⟨words_of_logs ?_, trivial, ?_⟩, trivial⟩
  case refine_10 =>
    intro id hid
    obtain rfl := Option.some.inj hid
    have hany : ((awaiting (run (pushExec .packing) (App.start .empty [] 0) purgeTwins).1).any
        fun d => d.sub.id == 0) = true := by
      decide +kernel
    obtain ⟨d, hd, hid⟩ := List.any_eq_true.mp hany
    exact ⟨d, hd, beq_iff_eq.mp hid⟩
  all_goals decide +kernel

/-- The marked one leaves with its report, and the other one is still in flight. -/
theorem reportedTwin_accounted :
    let b := (run (pushExec .packing) (App.start .empty [] 0) reportedTwin).2
    b.push.inflight = b.push.subs.countP (·.inflight) ∧
      b.push.subs.map (fun s => (s.id, s.gone, s.inflight)) = [(1, false, true)] := by
  refine ⟨?_, by decide +kernel⟩
  exact (inflight_accounted (by simp) (fun k r h => by simp [Store.empty] at h)
    reportedTwin_along).1.count

end SukkalMsg
