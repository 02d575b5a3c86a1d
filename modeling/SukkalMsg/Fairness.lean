import SukkalMsg.FairRuns
import SukkalMsg.PushProgress

/-!
# The round robin along a run

Every turn of a subscription begins at the cursor the turn before it has left, for
nothing else moves the cursor of a row. So the turns of a history form a chain, each
with the names and the cursor its search needs.
-/

namespace SukkalMsg

open Std Names Binjson OrderedScan BoundedTable Store ActionRuns

theorem Psub.settle_rr (clock : ℕ) (st : Store) (s : Psub) (r : Reply) (now : ℕ) :
    (({ s.hear r with inflight := false } : Psub).settle clock st r now).sub.rr = s.rr := by
  have hheard : ({ s.hear r with inflight := false } : Psub).rr = s.rr := by
    rw [hear_same]
  rw [← hheard]
  generalize ({ s.hear r with inflight := false } : Psub) = t
  have hrecovered : ∀ u : Psub, u.recovered.rr = u.rr := fun u => by
    simp only [recovered]
    split <;> rfl
  simp only [settle]
  split
  · simp only [finishJobs]
    split
    · rfl
    · split
      · rfl
      · exact hrecovered _
  · simp only [finishBatch]
    split
    · rfl
    · split
      · exact hrecovered _
      · rfl

def Pusher.Origin (p : Pusher) (s' : Psub) : Prop :=
  (p.nextId ≤ s'.id ∧ s'.rr = 0) ∨ ∃ s ∈ p.subs, s'.id = s.id ∧ s'.rr = s.rr

namespace Pusher

variable {p p' : Pusher}

theorem origin_self {s : Psub} (hs : s ∈ p.subs) : p.Origin s := .inr ⟨s, hs, rfl, rfl⟩

theorem add_origin (p : Pusher) (c : Bytes) (cfg : PushSub) :
    p.nextId ≤ (p.add c cfg).nextId ∧ ∀ s' ∈ (p.add c cfg).subs, p.Origin s' := by
  rcases p.add_cases c cfg with ⟨pre, s, suf, hsubs, -, -, hadd⟩ | ⟨-, hadd⟩ <;> rw [hadd]
  · refine ⟨Nat.le_refl _, fun s' hs' => ?_⟩
    have hs : s ∈ p.subs := by simp [hsubs]
    rcases List.mem_append.mp hs' with h | h
    · exact origin_self (by simp [hsubs, h])
    · rcases List.mem_cons.mp h with rfl | h
      · exact .inr ⟨s, hs, rfl, rfl⟩
      · exact origin_self (by simp [hsubs, h])
  · refine ⟨Nat.le_succ _, fun s' hs' => ?_⟩
    rcases List.mem_append.mp hs' with h | h
    · exact origin_self h
    · obtain rfl := List.mem_singleton.mp h
      exact .inl ⟨Nat.le_refl _, rfl⟩

theorem remove_origin (p : Pusher) (c : Bytes) :
    p.nextId ≤ (p.remove c).nextId ∧ ∀ s' ∈ (p.remove c).subs, p.Origin s' := by
  rcases p.remove_cases c with ⟨heq, -⟩ | ⟨pre, s, suf, hsubs, -, -, ⟨-, heq⟩ | ⟨-, suf', hperm,
    heq⟩⟩ <;> rw [heq]
  · exact ⟨Nat.le_refl _, fun s' hs' => origin_self hs'⟩
  · refine ⟨Nat.le_refl _, fun s' hs' => ?_⟩
    rcases List.mem_append.mp hs' with h | h
    · exact origin_self (by simp [hsubs, h])
    · rcases List.mem_cons.mp h with rfl | h
      · exact .inr ⟨s, by simp [hsubs], rfl, rfl⟩
      · exact origin_self (by simp [hsubs, h])
  · refine ⟨Nat.le_refl _, fun s' hs' => origin_self ?_⟩
    rw [hsubs]
    rcases List.mem_append.mp hs' with h | h
    · exact List.mem_append_left _ h
    · exact List.mem_append_right _ (List.mem_cons_of_mem _ (hperm.mem_iff.mp h))

end Pusher

namespace App

variable {V : Vendor} {b : App}

/-- Outside a pass no row's cursor moves. -/
theorem origin_apply {op : PushOp} (hop : op.Named) (hq : op.Quiet) :
    b.push.nextId ≤ (b.apply V op).2.push.nextId ∧
      ∀ s' ∈ (b.apply V op).2.push.subs, b.push.Origin s' := by
  by_cases he : op.Elsewhere
  · obtain ⟨-, hlearnt⟩ := apply_elsewhere (V := V) (b := b) hop he
    rw [hlearnt.subs_eq, hlearnt.nextId_eq]
    exact ⟨Nat.le_refl _, fun s' hs' => Pusher.origin_self hs'⟩
  · cases op with
    | put req =>
      simp only [apply]
      rcases b.hPushPut_push req with heq | ⟨r, found, -, -, heq⟩
      · rw [heq]
        exact ⟨Nat.le_refl _, fun s' hs' => Pusher.origin_self hs'⟩
      · rw [heq]
        have hseed : ∃ w, (if found.isNone then b.seedFor req r else b).push =
            { b.push with work := w } := by
          split
          · rw [seedFor_push]
            split
            · exact ⟨true, rfl⟩
            · exact ⟨_, rfl⟩
          · exact ⟨_, rfl⟩
        obtain ⟨w, hseed⟩ := hseed
        simp only [register, hseed]
        exact Pusher.add_origin { b.push with work := w } r.consumer r.cfg
    | delete req =>
      simp only [apply]
      rcases b.hPushDelete_push req with heq | ⟨c, -, heq, -⟩
      · rw [heq]
        exact ⟨Nat.le_refl _, fun s' hs' => Pusher.origin_self hs'⟩
      · rw [heq]
        exact b.push.remove_origin c
    | delivered clock id r now =>
      simp only [apply]
      rcases b.delivered_cases clock id r now with ⟨heq, -⟩ | ⟨pre, t, suf, hsubs, -,
        ⟨-, suf', hperm, heq⟩ | ⟨-, x, rfl, heq⟩⟩ <;> rw [heq]
      · exact ⟨Nat.le_refl _, fun s' hs' => Pusher.origin_self hs'⟩
      · refine ⟨Nat.le_refl _, fun s' hs' => Pusher.origin_self ?_⟩
        rw [hsubs]
        rcases List.mem_append.mp hs' with h | h
        · exact List.mem_append_left _ h
        · exact List.mem_append_right _ (List.mem_cons_of_mem _ (hperm.mem_iff.mp h))
      · refine ⟨Nat.le_refl _, fun s' hs' => ?_⟩
        rcases List.mem_append.mp hs' with h | h
        · exact Pusher.origin_self (by simp [hsubs, h])
        · rcases List.mem_cons.mp h with rfl | h
          · exact .inr ⟨t, by simp [hsubs], (Psub.replied_settle clock b.store t r now).id_eq,
              Psub.settle_rr clock b.store t r now⟩
          · exact Pusher.origin_self (by simp [hsubs, h])
    | pump => exact hq.elim
    | publish => exact absurd trivial he
    | ack => exact absurd trivial he
    | unsubscribe => exact absurd trivial he
    | take => exact absurd trivial he
    | done => exact absurd trivial he
    | fail => exact absurd trivial he
    | trim => exact absurd trivial he

end App

/-- What holds of the turns of every subscription so far. -/
structure Rotating (V : Vendor) (h : List PushStep) (b : App) : Prop where
  outstanding : Outstanding V h b.push
  informed : Pass.Informed b
  placed : ∀ s ∈ b.push.subs, Pass.Placed b.push.names s
  ready : ∀ id, ∀ t ∈ turnsOf V id h, t.Ready ∧ (t.after V).push.names <+: b.push.names
  follows : ∀ id, (turnsOf V id h).IsChain (PassTurn.Follows V)
  resumes : ∀ id, ∀ t ∈ (turnsOf V id h).getLast?,
    id < b.push.nextId ∧ ∀ s ∈ b.push.subs, s.id = id → s.rr = (t.after V).sub.rr

namespace Rotating

variable {V : Vendor} {h : List PushStep} {b : App} {op : PushOp}

theorem quiet (hr : Rotating V h b) (hw : b.store.Words) (hop : op.Named) (hq : op.Quiet) :
    Rotating V (h ++ (pushExec V b op).1) (pushExec V b op).2 := by
  have htold := App.told_apply (V := V) hr.outstanding.names hw hop
  obtain ⟨hnext, horigin⟩ := App.origin_apply (V := V) (b := b) hop hq
  have hsame : ∀ id, turnsOf V id (h ++ (pushExec V b op).1) = turnsOf V id h := by
    intro id
    rw [pushExec, turnsOf_snoc, PushStep.turns_of_quiet hq]
    simp
  refine ⟨hr.outstanding.step hw hop, hr.informed.told htold, fun s' hs' => ?_, fun id t ht => ?_,
    fun id => ?_, fun id t ht => ?_⟩
  · rcases horigin s' hs' with ⟨-, hzero⟩ | ⟨s, hs, -, hrr⟩
    · exact .inl hzero
    · have hplaced := (hr.placed s hs).longer htold.longer
      exact hplaced.imp hrr.trans fun hlt => hrr ▸ hlt
  · rw [hsame] at ht
    obtain ⟨hready, hnames⟩ := hr.ready id t ht
    exact ⟨hready, hnames.trans htold.longer⟩
  · rw [hsame]
    exact hr.follows id
  · rw [hsame] at ht
    obtain ⟨hlt, hrows⟩ := hr.resumes id t ht
    refine ⟨Nat.lt_of_lt_of_le hlt hnext, fun s' hs' hid => ?_⟩
    rcases horigin s' hs' with ⟨hge, -⟩ | ⟨s, hs, hid', hrr⟩
    · omega
    · rw [hrr]
      exact hrows s hs (hid'.symm.trans hid)

/-- A pass gives each subscription one turn at most, which begins at its cursor. -/
theorem pump (hr : Rotating V h b) (hw : b.store.Words) (send : Psub → Bool) (now clock : ℕ) :
    Rotating V (h ++ (pushExec V b (.pump send now clock)).1)
      (pushExec V b (.pump send now clock)).2 := by
  have hop : (PushOp.pump send now clock).Named := trivial
  have htold := App.told_apply (V := V) hr.outstanding.names hw hop
  have hout := hr.outstanding.step (V := V) hw hop
  cases hwork : b.push.work with
  | false =>
    have heq : (pushExec V b (.pump send now clock)).2 = b := by
      simp [pushExec, App.apply, App.pump, hwork]
    have hsame : ∀ id, turnsOf V id (h ++ (pushExec V b (.pump send now clock)).1) =
        turnsOf V id h := by
      intro id
      rw [pushExec, turnsOf_snoc]
      simp [PushStep.turns, hwork]
    rw [heq] at hout ⊢
    refine ⟨hout, hr.informed, hr.placed, ?_, ?_, ?_⟩ <;> intro id <;> rw [hsame]
    · exact hr.ready id
    · exact hr.follows id
    · exact hr.resumes id
  | true =>
    set t₀ : Pass := ⟨b.store, b.push, 0, false, 0, []⟩ with ht₀
    have hsound : t₀.Sound := ⟨hr.outstanding.names, fun s => base_lt_of_words hw s⟩
    have hsnoc : ∀ id, turnsOf V id (h ++ (pushExec V b (.pump send now clock)).1) =
        turnsOf V id h ++
          (Pass.turns V send now clock t₀ b.push.subs).filter (·.scan.sub.id == id) := by
      intro id
      rw [pushExec, turnsOf_snoc]
      simp only [PushStep.turns, hwork, if_true]
      rfl
    have hsubs : (pushExec V b (.pump send now clock)).2.push.subs =
        (Pass.askAll V send now clock t₀ b.push.subs).2 := by
      simp [pushExec, App.apply, App.pump, App.pumpPass, hwork, ht₀]
    have hnames : (pushExec V b (.pump send now clock)).2.push.names =
        (Pass.askAll V send now clock t₀ b.push.subs).1.push.names := by
      simp [pushExec, App.apply, App.pump, App.pumpPass, hwork, ht₀]
    have hnext : (pushExec V b (.pump send now clock)).2.push.nextId = b.push.nextId := by
      obtain ⟨ds, -, -, -, hpumped, -⟩ := Pass.askAll_pumpTurns V send now clock hsound b.push.subs
      have hpush : (Pass.askAll V send now clock t₀ b.push.subs).1.push.nextId =
          b.push.nextId := by
        rw [hpumped.same]
      simpa [pushExec, App.apply, App.pump, App.pumpPass, hwork, ht₀] using hpush
    obtain ⟨hplaced, hturns⟩ := Pass.askAll_turns V send now clock hsound hr.informed b.push.subs
      hr.placed
    have hone := Pass.turns_of_id V send now clock hsound b.push.subs hr.outstanding.ids
    refine ⟨hout, hr.informed.told htold, ?_, fun id t ht => ?_, fun id => ?_, fun id t ht => ?_⟩
    · rw [hsubs, hnames]
      exact hplaced
    · rw [hsnoc] at ht
      rcases List.mem_append.mp ht with ht | ht
      · obtain ⟨hready, hpre⟩ := hr.ready id t ht
        exact ⟨hready, hpre.trans htold.longer⟩
      · rw [hnames]
        exact hturns t (List.mem_of_mem_filter ht)
    · rw [hsnoc]
      rcases hone id with ⟨hnil, -⟩ | ⟨u, hu, hmem, -⟩
      · rw [hnil, List.append_nil]
        exact hr.follows id
      · rw [hu, List.isChain_append]
        refine ⟨hr.follows id, List.isChain_singleton u, fun t ht u' hu' => ?_⟩
        obtain rfl : u = u' := by simpa using hu'
        have hid : u.scan.sub.id = id := by
          have hself : u ∈ [u] := List.mem_singleton_self u
          rw [← hu] at hself
          simpa using (List.mem_filter.mp hself).2
        exact (hr.resumes id t ht).2 u.scan.sub hmem hid
    · rw [hsnoc] at ht
      rw [hsubs, hnext]
      rcases hone id with ⟨hnil, hrows⟩ | ⟨u, hu, hmem, hrows⟩
      · rw [hnil, List.append_nil] at ht
        obtain ⟨hlt, hold⟩ := hr.resumes id t ht
        exact ⟨hlt, fun s' hs' hid => hold s' (hrows s' hs' hid) hid⟩
      · rw [hu, List.getLast?_append] at ht
        obtain rfl : u = t := by simpa using ht
        have hid : u.scan.sub.id = id := by
          have hself : u ∈ [u] := List.mem_singleton_self u
          rw [← hu] at hself
          simpa using (List.mem_filter.mp hself).2
        exact ⟨hid ▸ hr.outstanding.fresh u.scan.sub hmem, hrows⟩

theorem step (hr : Rotating V h b) (hw : b.store.Words) (hop : op.Named) :
    Rotating V (h ++ (pushExec V b op).1) (pushExec V b op).2 := by
  by_cases hq : op.Quiet
  · exact hr.quiet hw hop hq
  · cases op with
    | pump send now clock => exact hr.pump hw send now clock
    | publish => exact absurd trivial hq
    | ack => exact absurd trivial hq
    | unsubscribe => exact absurd trivial hq
    | take => exact absurd trivial hq
    | done => exact absurd trivial hq
    | fail => exact absurd trivial hq
    | trim => exact absurd trivial hq
    | put => exact absurd trivial hq
    | delete => exact absurd trivial hq
    | delivered => exact absurd trivial hq

end Rotating

namespace Pusher

variable {p : Pusher}

/-- One entry of a listing tells the engine of one subject at most, and of the subject
whose log it is. -/
theorem namesLoad_single (p : Pusher) (e : Bytes) :
    p.names <+: (p.namesLoad [e]).names ∧ (p.names.Nodup → (p.namesLoad [e]).names.Nodup) ∧
      ∀ x, bjmSubjectValid x = true → x ++ SUBJECT_SUFFIX = e → x ∈ (p.namesLoad [e]).names := by
  have hlog : ∀ x, x ++ SUBJECT_SUFFIX = e →
      e.take (e.length - SUBJECT_SUFFIX.length) = x := by
    rintro x rfl
    simp
  simp only [namesLoad, List.foldl_cons, List.foldl_nil]
  split
  · rename_i hshort
    refine ⟨List.prefix_rfl, fun hn => hn, fun x hv he => ?_⟩
    have hpos : x ≠ [] := by
      simp only [bjmSubjectValid, nameValid, Bool.and_eq_true] at hv
      simpa using hv.1.1.1.1
    have := List.length_pos_of_ne_nil hpos
    rw [← he, List.length_append] at hshort
    omega
  split
  · rename_i hsuffix
    refine ⟨List.prefix_rfl, fun hn => hn, fun x hv he => ?_⟩
    have hends : SUBJECT_SUFFIX.isSuffixOf e = true :=
      List.isSuffixOf_iff_suffix.mpr ⟨x, he⟩
    rw [hends] at hsuffix
    contradiction
  split
  · rename_i hlong
    refine ⟨List.prefix_rfl, fun hn => hn, fun x hv he => ?_⟩
    rw [hlog x he] at hlong
    have := nameValid_length hv
    omega
  · obtain ⟨hgrows, hnodup⟩ := p.namesAdd_grows (e.take (e.length - SUBJECT_SUFFIX.length))
    refine ⟨hgrows, hnodup, fun x hv he => ?_⟩
    rw [hlog x he]
    exact p.mem_namesAdd hv

theorem namesLoad_known (hn : p.names.Nodup) (listing : List Bytes) :
    p.names <+: (p.namesLoad listing).names ∧ (p.namesLoad listing).names.Nodup ∧
      ∀ x, bjmSubjectValid x = true → x ++ SUBJECT_SUFFIX ∈ listing →
        x ∈ (p.namesLoad listing).names := by
  induction listing generalizing p with
  | nil => exact ⟨List.prefix_rfl, hn, fun x _ hx => absurd hx List.not_mem_nil⟩
  | cons e listing ih =>
    obtain ⟨hgrows, hnodup, hlog⟩ := p.namesLoad_single e
    have hrest : p.namesLoad (e :: listing) = (p.namesLoad [e]).namesLoad listing := rfl
    obtain ⟨hlonger, hnodup', hknown⟩ := ih (hnodup hn)
    rw [hrest]
    refine ⟨hgrows.trans hlonger, hnodup', fun x hv hx => ?_⟩
    rcases List.mem_cons.mp hx with hx | hx
    · exact hlonger.subset (hlog x hv hx)
    · exact hknown x hv hx

end Pusher

/-- The listing is one of the store's directory: it has the log of every subject with
messages, and no name with a slash. -/
structure Store.ListedLogs (st : Store) (listing : List Bytes) : Prop where
  plain : ∀ e ∈ listing, slash ∉ e
  logs : ∀ x, 0 < (st.logOf x).last → bjmSubjectValid x = true ∧ x ++ SUBJECT_SUFFIX ∈ listing

namespace Rotating

variable {V : Vendor} {st : Store} {listing : List Bytes} {h : List PushStep} {b : App}

theorem start (hl : st.ListedLogs listing) (hv : st.Enlisted) (n : ℕ) :
    Rotating V [] (App.start st listing n) where
  outstanding := App.start_outstanding hl.plain hv
  informed := by
    have hnames : ∀ (l : List (Bytes × PushSub)) (p : Pusher),
        (l.foldl (fun p x => p.loadOne x.1 x.2) p).names = p.names := by
      intro l
      induction l with
      | nil => exact fun _ => rfl
      | cons x l ih => exact fun p => ih _
    obtain ⟨-, hnodup, hknown⟩ :=
      Pusher.namesLoad_known (p := Pusher.blank n) List.nodup_nil listing
    have heq : (App.start st listing n).push.names =
        ((Pusher.blank n).namesLoad listing).names := hnames _ _
    refine ⟨heq ▸ hnodup, fun x hx => ?_⟩
    rw [heq]
    exact hknown x (hl.logs x hx).1 (hl.logs x hx).2
  placed := by
    have hrr : ∀ (l : List (Bytes × PushSub)) (p : Pusher), (∀ s ∈ p.subs, s.rr = 0) →
        ∀ s ∈ (l.foldl (fun p x => p.loadOne x.1 x.2) p).subs, s.rr = 0 := by
      intro l
      induction l with
      | nil => exact fun _ hp => hp
      | cons x l ih =>
        refine fun p hp => ih _ fun s hs => ?_
        rcases List.mem_append.mp hs with hs | hs
        · exact hp s hs
        · obtain rfl := List.mem_singleton.mp hs
          rfl
    have hnone : ((Pusher.blank n).namesLoad listing).subs = [] :=
      (Pusher.namesLoad_rested (Pusher.blank_rested n) hl.plain).2
    intro s hs
    exact .inl (hrr st.bjmPushEach _ (by simp [hnone]) s hs)
  ready := by simp [turnsOf]
  follows := by simp [turnsOf]
  resumes := by simp [turnsOf]

end Rotating

def PassTurn.sent (V : Vendor) (t : PassTurn) : Option Sent :=
  if (t.scan.startDelivery V t.clock t.send).1 then some ⟨(t.after V).store, (t.after V).sub⟩
  else none

theorem PassTurn.delivered_eq (V : Vendor) (t : PassTurn) :
    t.delivered V = (t.sent V).map (·.sub.subject) := by
  simp only [delivered, sent]
  split <;> rfl

namespace Pass

variable (V : Vendor) (send : Psub → Bool) (now clock : ℕ)

theorem askAll_sent (t : Pass) (ss : List Psub) : (askAll V send now clock t ss).1.sent =
    t.sent ++ (turns V send now clock t ss).filterMap (PassTurn.sent V) := by
  induction ss generalizing t with
  | nil => simp [askAll, turns]
  | cons s ss ih =>
    simp only [askAll, turns, ih, List.filterMap_append, ← List.append_assoc]
    congr 1
    by_cases helig : s.Eligible now
    · generalize hstart : Scan.startDelivery V clock send ⟨t.store, t.push, s⟩ = r
      obtain ⟨started, a⟩ := r
      obtain ⟨-, -, -, -, hsent⟩ := ask_of_start helig hstart
      rw [hsent]
      simp only [helig, if_true, List.filterMap_cons, List.filterMap_nil, PassTurn.sent,
        PassTurn.after, hstart]
      cases started <;> simp
    · obtain ⟨-, -, -, -, hsent⟩ := ask_of_not_eligible V send clock (t := t) helig
      simp [helig, hsent]

end Pass

end SukkalMsg
