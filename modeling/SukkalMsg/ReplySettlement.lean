import SukkalMsg.PushStart

/-!
# What a reply settles

A reply is settled by the registration it finds, not by the one its delivery was
sent under. It settles its own delivery as long as the two belong to the same
group, or the settlement that runs instead comes to nothing.
-/

namespace SukkalMsg

open Std Names Binjson OrderedScan BoundedTable Store ActionRuns

def Reply.ackHint (r : Reply) : Option ℕ :=
  (r.headers.filterMap fun line =>
    (Psub.hdrIs line (ascii "x-sukkal-ack:")).map fun v => (strtoull v).1).getLast?

theorem Psub.hear_ackHint (s : Psub) (r : Reply) :
    (s.hear r).ackHint = r.ackHint.or s.ackHint := by
  have hbody : ∀ (l : List Bytes) (t : Psub), (l.foldl onBody t).ackHint = t.ackHint := by
    intro l
    induction l with
    | nil => exact fun _ => rfl
    | cons x l ih => exact fun t => (ih _).trans rfl
  have hhdr : ∀ (l : List Bytes) (t : Psub), (l.foldl onHdr t).ackHint =
      ((l.filterMap fun line =>
        (hdrIs line (ascii "x-sukkal-ack:")).map fun v => (strtoull v).1).getLast?).or t.ackHint := by
    intro l
    induction l with
    | nil => exact fun _ => rfl
    | cons x l ih =>
      intro t
      rw [List.foldl_cons, ih]
      cases hx : hdrIs x (ascii "x-sukkal-ack:") with
      | some v =>
        have hstep : (onHdr t x).ackHint = some (strtoull v).1 := by simp only [onHdr, hx]
        rw [hstep, List.filterMap_cons, hx]
        simp only [Option.map_some, List.getLast?_cons]
        cases List.getLast? _ <;> rfl
      | none =>
        have hstep : (onHdr t x).ackHint = t.ackHint := by
          simp only [onHdr, hx]
          split <;> rfl
        rw [hstep, List.filterMap_cons, hx]
        rfl
  rw [hear, hbody, hhdr, Reply.ackHint]

def Sent.acked (d : Sent) (r : Reply) : ℕ := min (r.ackHint.getD d.sub.last) d.sub.last

/-- Some jobs of a group are done or failed, in any order and number. -/
inductive Store.Settlement (now : ℕ) (s g : Bytes) (js : List ℕ) (st : Store) : Store → Prop
  | none : Settlement now s g js st st
  | done {st' : Store} {j : ℕ} {r : Released} (h : Settlement now s g js st st') (hj : j ∈ js)
    (hr : st'.bjmDone now s g j = .ok r) : Settlement now s g js st r.store
  | fail {st' : Store} {j delay : ℕ} {r : Released} (h : Settlement now s g js st st')
    (hj : j ∈ js) (hr : st'.bjmFail now s g j delay = .ok r) : Settlement now s g js st r.store

/-- The store has changed by the delivery's own settlement and nothing else: the
receipt of a batch, or the jobs of a lease. -/
def Sent.Settles (clock : ℕ) (d : Sent) (r : Reply) (st st' : Store) : Prop :=
  if d.sub.cfg.group = [] then
    st' = st ∨ st.bjmCursorSet d.sub.subject d.sub.consumer (d.acked r) = .ok st'
  else Settlement clock d.sub.subject d.sub.cfg.group d.sub.jobs st st' ∧ st'.cursors = st.cursors

theorem Sent.Settles.none (clock : ℕ) (d : Sent) (r : Reply) (st : Store) :
    d.Settles clock r st st := by
  simp only [Sent.Settles]
  split
  · exact .inl trivial
  · exact ⟨.none, trivial⟩

def Store.Holds (st : Store) (s g : Bytes) (j : ℕ) : Prop :=
  ∃ q, st.queueLoad s g = .ok (q, true) ∧ ∃ e ∈ q.fl.rows, e.index = j

namespace Store

variable {st : Store} {s g c : Bytes}

theorem release_cursors {j now delay : ℕ} {drop : Bool} {r : Released}
    (h : st.queueRelease now s g j drop delay = .ok r) : r.store.cursors = st.cursors := by
  obtain ⟨q, existed, -, ⟨rfl, -⟩ | ⟨pre, e, suf, q', -, -, -, -, hst, -⟩⟩ := queueRelease_eq h
  · rfl
  · rw [hst]

end Store

namespace Psub

variable {clock now : ℕ} {st : Store} {s : Psub} {r : Reply} {d : Sent}

theorem settleJob_cases (clock : ℕ) (s : Psub) (ok : Bool) (st : Store) (j : ℕ) :
    s.settleJob clock ok st j = st ∨
      (∃ r, st.bjmDone clock s.subject s.cfg.group j = .ok r ∧
        s.settleJob clock ok st j = r.store) ∨
      ∃ r, st.bjmFail clock s.subject s.cfg.group j UINT64_MAX = .ok r ∧
        s.settleJob clock ok st j = r.store := by
  simp only [settleJob]
  cases s.finished ok j with
  | true =>
    cases hr : st.bjmDone clock s.subject s.cfg.group j with
    | error e => exact .inl (by simp)
    | ok r => exact .inr (.inl ⟨r, rfl, by simp⟩)
  | false =>
    cases hr : st.bjmFail clock s.subject s.cfg.group j UINT64_MAX with
    | error e => exact .inl (by simp)
    | ok r => exact .inr (.inr ⟨r, rfl, by simp⟩)

theorem settlement_settleJobs (clock : ℕ) (s : Psub) (ok : Bool) (st : Store) {js all : List ℕ}
    (hjs : js ⊆ all) :
    Settlement clock s.subject s.cfg.group all st (js.foldl (s.settleJob clock ok) st) ∧
      (js.foldl (s.settleJob clock ok) st).cursors = st.cursors := by
  suffices h : ∀ st', Settlement clock s.subject s.cfg.group all st st' → st'.cursors = st.cursors →
      Settlement clock s.subject s.cfg.group all st (js.foldl (s.settleJob clock ok) st') ∧
        (js.foldl (s.settleJob clock ok) st').cursors = st.cursors from h st .none rfl
  induction js with
  | nil => exact fun st' h hc => ⟨h, hc⟩
  | cons j js ih =>
    intro st' h hc
    have hj : j ∈ all := hjs List.mem_cons_self
    refine ih (fun x hx => hjs (List.mem_cons_of_mem _ hx)) _ ?_ ?_
    · rcases settleJob_cases clock s ok st' j with heq | ⟨r, hr, heq⟩ | ⟨r, hr, heq⟩ <;> rw [heq]
      · exact h
      · exact .done h hj hr
      · exact .fail h hj hr
    · rcases settleJob_cases clock s ok st' j with heq | ⟨r, hr, heq⟩ | ⟨r, hr, heq⟩ <;> rw [heq]
      · exact hc
      · exact (release_cursors hr).trans hc
      · exact (release_cursors hr).trans hc

theorem finishJobs_store (clock : ℕ) (st : Store) (s : Psub) (r : Reply) (now : ℕ) :
    (s.finishJobs clock st r now).store =
      if r.reached then s.jobs.foldl (s.settleJob clock r.ok) st else st := by
  simp only [finishJobs]
  cases r.reached with
  | false => rfl
  | true =>
    simp only [Bool.not_true, Bool.false_eq_true, if_false, if_true]
    split <;> rfl

theorem finishBatch_store (st : Store) (s : Psub) (r : Reply) (now : ℕ) :
    (s.finishBatch st r now).store =
      if r.ok = true ∧ s.first ≤ s.ackOf then
        match st.bjmCursorSet s.subject s.consumer s.ackOf with
        | .error _ => st
        | .ok st => st
      else st := by
  simp only [finishBatch]
  cases r.ok with
  | false => rfl
  | true =>
    simp only [Bool.not_true, Bool.false_eq_true, if_false, true_and]
    split <;> rfl

theorem hear_carries (h : s.Carries d) (r : Reply) :
    let t : Psub := { s.hear r with inflight := false }
    t.consumer = d.sub.consumer ∧ t.subject = d.sub.subject ∧ t.first = d.sub.first ∧
      t.jobs = d.sub.jobs ∧ t.cfg = s.cfg ∧ t.ackOf = d.acked r := by
  have hs := hear_same s r
  have hhint := hear_ackHint s r
  rw [h.hint, Option.or_none] at hhint
  have hlast : (s.hear r).last = d.sub.last := (by rw [hs] : (s.hear r).last = s.last).trans h.last
  refine ⟨(by rw [hs] : (s.hear r).consumer = s.consumer).trans h.consumer,
    (by rw [hs] : (s.hear r).subject = s.subject).trans h.subject,
    (by rw [hs] : (s.hear r).first = s.first).trans h.first,
    (by rw [hs] : (s.hear r).jobs = s.jobs).trans h.jobs, by rw [hs], ?_⟩
  simp only [ackOf, hhint, hlast, Sent.acked]
  cases r.ackHint with
  | none => exact (Nat.min_self _).symm
  | some n => rfl

end Psub

/-- A reply answers an outstanding delivery; names and indexes are such as the broker
has. -/
structure Answered (b : App) (op : PushOp) : Prop where
  named : op.Named
  words : b.store.Words
  outstanding : ∀ clock id r now, op = .delivered clock id r now →
    ∃ s ∈ b.push.subs, s.id = id ∧ s.inflight = true

theorem Store.words_of_logs {st : Store}
    (h : (st.logs.toList.all fun p => decide (p.2.last < 2 ^ 64)) = true) : st.Words := by
  intro s
  simp only [logOf]
  cases hs : st.logs[s]? with
  | none => exact Nat.two_pow_pos 64
  | some log =>
    have hmem := ExtTreeMap.mem_toList_iff_getElem?_eq_some.mpr hs
    simpa using List.all_eq_true.mp h _ hmem

theorem Pusher.outstanding_of_any {p : Pusher} {id : ℕ}
    (h : (p.subs.any fun s => s.id == id && s.inflight) = true) :
    ∃ s ∈ p.subs, s.id = id ∧ s.inflight = true := by
  simpa using h

/-- A request without a body, by its path and its parameters. -/
def Request.plain (path : Bytes) (params : List (Bytes × Bytes)) : Request where
  path := path
  contentType := none
  body := none
  query := fun key => (params.find? fun p => p.1 = key).map Prod.snd

/-- `billing` registers for `orders`, with a group or without. -/
def putBilling (group : List (Bytes × Bytes)) : Request :=
  .plain (ascii "/push/orders") ([(ascii "consumer", ascii "billing"),
    (ascii "callback", ascii "http://billing/")] ++ group)

end SukkalMsg
