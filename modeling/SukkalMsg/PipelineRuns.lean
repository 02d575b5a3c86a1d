import SukkalMsg.DistinctIds
import SukkalMsg.RequestCalls
import SukkalMsg.SubscriberReplies

/-!
# A pipeline stage and its broker

A stage is sent batches of its input, handles them in order and publishes an output for
each input it does not drop; the publish moves the stage's receipt. The process may stop
anywhere and be started again, requests and answers may be late or lost, and what was not
acknowledged is sent again. Every step here is one the broker or the process takes by
itself.
-/

namespace SukkalMsg

open Std Names Binjson OrderedScan Store ActionRuns

/-- What the process has in hand: a batch, the next input of it, whether an input has
failed, and whether the engine still waits for the answer. -/
structure StageWork where
  first : ℕ
  last : ℕ
  next : ℕ
  stopped : Bool
  own : Bool

namespace StageWork

def ready (w : StageWork) : Bool := !w.stopped && w.next ≤ w.last

def passed (w : StageWork) : StageWork := { w with next := w.next + 1 }

def failed (w : StageWork) : StageWork := { w with stopped := true }

def orphan (w : StageWork) : StageWork := { w with own := false }

def hears (w : StageWork) (input status : ℕ) : StageWork :=
  if w.ready && w.next = input then if status = 200 then w.passed else w.failed else w

end StageWork

/-- The broker's store, the batch that is outstanding for the stage, everything that was
ever sent either way, and the process. -/
structure PipeState where
  store : Store
  batch : Option Psub
  deliveries : List (ℕ × ℕ)
  publishes : List (ℕ × Bytes)
  work : Option StageWork

def PipeState.idle (st : Store) : PipeState := ⟨st, none, [], [], none⟩

inductive PipeEvent where
  /-- A publish has reached the broker, on behalf of an input or not. -/
  | exchange (x : Exchange) (input : Option ℕ)
  | dropped (input : ℕ)

/-- What may happen. -/
inductive PipeOp where
  /-- Somebody else publishes. -/
  | other (now : ℕ) (req : Request)
  /-- The broker stops between two requests and is started again. -/
  | restart
  /-- The engine asks whether there is a batch, and sends it. -/
  | offer (push : Pusher) (sub : Psub)
  /-- The engine gives the delivery up. -/
  | lost
  /-- The process gets to a batch that was sent, perhaps long ago. -/
  | receive (first last : ℕ)
  /-- The handler has no output. -/
  | drop
  /-- The handler fails, or the client gives its publish up. -/
  | fail
  /-- The client sends the handler's output. -/
  | send (out : Bytes)
  /-- A publish that was sent reaches the broker, once more perhaps; the client hears the
  answer, or not. -/
  | arrive (input : ℕ) (out : Bytes) (now : ℕ) (heard : Bool)
  /-- The process answers the delivery. -/
  | reply (r : Reply) (now : ℕ)
  /-- The process stops. -/
  | crash

def served (V : Vendor) (st : Store) (now : ℕ) (req : Request) : Exchange :=
  ⟨now, req, (st.hPublish V now req).1, st, (st.hPublish V now req).2⟩

def pipeExec (V : Vendor) (S : Stage) (p : PipeState) : PipeOp → List PipeEvent × PipeState
  | .other now req =>
    ([.exchange (served V p.store now req) none],
      { p with store := (served V p.store now req).after })
  | .restart =>
    ([], { p with store := p.store.restart, batch := none, work := p.work.map .orphan })
  | .offer push sub => match p.batch with
    | some _ => ([], p)
    | none => match Scan.offerBatch V ⟨p.store, push, sub⟩ 0 S.subject with
      | (a, none) => ([], { p with store := a.store })
      | (a, some count) =>
        ([], { p with
          store := a.store
          batch := some (a.sub.prepared count)
          deliveries := p.deliveries ++ [(a.sub.first, a.sub.last)] })
  | .lost => ([], { p with batch := none, work := p.work.map .orphan })
  | .receive first last =>
    if p.work.isNone ∧ (first, last) ∈ p.deliveries then
      ([], { p with work := some ⟨first, last, first, false,
        p.batch.any fun s => s.first == first && s.last == last⟩ })
    else ([], p)
  | .drop => match p.work with
    | some w => if w.ready then ([.dropped w.next], { p with work := some w.passed }) else ([], p)
    | none => ([], p)
  | .fail => ([], { p with work := p.work.map .failed })
  | .send out => match p.work with
    | some w =>
      if w.ready then ([], { p with publishes := p.publishes ++ [(w.next, out)] }) else ([], p)
    | none => ([], p)
  | .arrive input out now heard =>
    if (input, out) ∈ p.publishes then
      ([.exchange (served V p.store now (S.request input out)) (some input)],
        { p with
          store := (served V p.store now (S.request input out)).after
          work := if heard then
              p.work.map (·.hears input (served V p.store now (S.request input out)).answer.status)
            else p.work })
    else ([], p)
  | .reply r now => match p.work with
    | some w =>
      if w.ready then ([], p)
      else match w.own, p.batch with
        | true, some s =>
          ([], { p with
            store := ((s.hear r).finishBatch p.store r now).store
            batch := none
            work := none })
        | _, _ => ([], { p with work := none })
    | none => ([], p)
  | .crash => ([], { p with work := none })

def exchanges (h : List PipeEvent) : List Exchange :=
  h.filterMap fun
    | .exchange x _ => some x
    | .dropped _ => none

namespace Stage

def key (S : Stage) (i : ℕ) : Bytes := pipeOneKey S.consumer S.subject i

/-- A stage whose names are names, and whose keys are distinct for the inputs up to a
bound. -/
structure Sound (S : Stage) (bound : ℕ) : Prop where
  subject : bjmSubjectValid S.subject = true
  consumer : bjmConsumerValid S.consumer = true
  output : bjmSubjectValid S.outSubject = true
  small : bound < 2 ^ 53
  distinct : ∀ i j, i ≤ bound → j ≤ bound → S.key i = S.key j → i = j

end Stage

/-- The runs the guarantee is about: clocks run forward, nobody else uses the stage's keys
or its receipt, an input is published again only within a window of its first publish, and
the stage answers what it has taken. -/
def PipeOp.Fair (V : Vendor) (S : Stage) (bound window : ℕ) (h : List PipeEvent) (p : PipeState) :
    PipeOp → Prop
  | .other now req => (BrokerOp.request now req).InOrder V (exchanges h) p.store ∧
      (∀ i ≤ bound, requestKey V req ≠ some (S.outSubject, S.key i)) ∧
      ackTarget req ≠ some (S.subject, S.consumer)
  | .offer _ sub => sub.consumer = S.consumer ∧ (p.store.logOf S.subject).last ≤ bound
  | .arrive input out now _ => (input, out) ∈ p.publishes →
      (BrokerOp.request now (S.request input out)).InOrder V (exchanges h) p.store ∧
      ∀ x n, PipeEvent.exchange x (some input) ∈ h → x.Appended S.outSubject n →
        now ≤ x.now + window
  | .reply r _ => ∀ w, p.work = some w →
      Conveys (ackReply (ackIndex w.first (w.next - w.first))) r
  | _ => True

/-- The input's own publish has added a message to the output, which is still there. -/
def HasOutput (S : Stage) (h : List PipeEvent) (st : Store) (i : ℕ) : Prop :=
  ∃ x n e, PipeEvent.exchange x (some i) ∈ h ∧ x.Appended S.outSubject n ∧
    (x.after.logOf S.outSubject).get n = some e ∧ (st.logOf S.outSubject).get n = some e

def Piped (S : Stage) (h : List PipeEvent) (st : Store) (i : ℕ) : Prop :=
  PipeEvent.dropped i ∈ h ∨ HasOutput S h st i

/-- A publish for an input adds one message to the output at most, and nothing once one of
them has. -/
def OnceEach (S : Stage) (before : List PipeEvent) : PipeEvent → Prop
  | .exchange y (some i) =>
    (y.after.logs = y.before.logs ∨ ∃ e, y.after.logs =
      y.before.logs.insert S.outSubject ((y.before.logOf S.outSubject).append e)) ∧
    ∀ x, PipeEvent.exchange x (some i) ∈ before → x.after.logs ≠ x.before.logs →
      y.after.logs = y.before.logs
  | _ => True

/-! ### The command as a run -/

section

variable {V : Vendor} {S : Stage} {p : PipeState} {w : StageWork}

theorem attempts_run (out : Bytes) {ts : List Attempt} (hts : ∀ t ∈ ts, t.Possible)
    (hw : p.work = some w) (hr : w.ready = true) (hm : (w.next, out) ∈ p.publishes) :
    let serve := fun now st => ((st.hPublish V now (S.request w.next out)).1.status,
      (st.hPublish V now (S.request w.next out)).2)
    let performed := clientPerformEx S.retryMs true serve ts p.store
    ∃ ops, (run (pipeExec V S) p ops).2 = { p with
      store := performed.2
      work := some (if performed.1 = some 200 then w.passed else w.failed) } := by
  intro serve
  have hfail : ∀ q : PipeState, (run (pipeExec V S) q [.fail]).2 =
      { q with work := q.work.map .failed } := fun q => rfl
  induction ts generalizing p with
  | nil =>
    refine ⟨[.fail], ?_⟩
    rw [hfail, hw]
    rfl
  | cons t ts ih =>
    have hposs := hts t List.mem_cons_self
    have hleft := fun t ht => hts t (List.mem_cons_of_mem _ ht)
    -- the attempt reaches the broker, and the client does not hear of it
    have hunheard : ∃ ops, (run (pipeExec V S) p ops).2 = { p with store := t.leaves serve p.store } := by
      cases hserved : t.served with
      | false => exact ⟨[], by simp [Attempt.leaves, hserved]⟩
      | true =>
        refine ⟨[.arrive w.next out t.now false], ?_⟩
        simp only [run_cons, run_nil, pipeExec, hm, if_true, Attempt.leaves, hserved]
        rfl
    simp only [clientPerformEx]
    split
    · rename_i hcode
      refine ⟨[.arrive w.next out t.now true], ?_⟩
      have hserved := hposs.answered hcode
      simp only [run_cons, run_nil, pipeExec, hm, if_true, hw, Option.map_some, StageWork.hears, hr,
        decide_true, Bool.and_self, Attempt.leaves, hserved, served, serve, Option.some.injEq]
      rfl
    split
    · obtain ⟨ops, hops⟩ := hunheard
      obtain ⟨ops', hops'⟩ := ih (p := { p with store := t.leaves serve p.store }) hleft hw hm
      refine ⟨ops ++ ops', ?_⟩
      rw [run_append, hops]
      exact hops'
    · obtain ⟨ops, hops⟩ := hunheard
      refine ⟨ops ++ [.fail], ?_⟩
      rw [run_append, hops]
      dsimp only
      rw [hfail]
      dsimp only
      rw [hw]
      rfl

theorem pipeOne_run {attempts : ℕ → List Attempt} (hts : ∀ t ∈ attempts w.next, t.Possible)
    (payload : Bytes) (hw : p.work = some w) (hr : w.ready = true) :
    let one := pipeOne V S attempts (w.next : ℤ) payload p.store
    ∃ ops publishes, (run (pipeExec V S) p ops).2 = { p with
      store := one.2
      publishes := publishes
      work := some (if one.1 then w.passed else w.failed) } := by
  intro one
  have hone : one = pipeOne V S attempts (w.next : ℤ) payload p.store := rfl
  clear_value one
  simp only [pipeOne, Int.toNat_natCast] at hone
  generalize S.filter w.next payload = found at hone
  rcases found with _ | _ | ⟨c, out⟩ <;> subst hone
  · refine ⟨[.fail], p.publishes, ?_⟩
    simp only [run_cons, run_nil, pipeExec, hw]
    rfl
  · refine ⟨[.drop], p.publishes, ?_⟩
    simp only [run_cons, run_nil, pipeExec, hw, hr, if_true]
  · have hsend : (run (pipeExec V S) p [.send (c :: out)]).2 =
        { p with publishes := p.publishes ++ [(w.next, c :: out)] } := by
      simp only [run_cons, run_nil, pipeExec, hw, hr, if_true]
    have hmem : (w.next, c :: out) ∈ p.publishes ++ [(w.next, c :: out)] :=
      List.mem_append_right _ (List.mem_singleton_self _)
    obtain ⟨ops, hops⟩ := attempts_run (V := V) (S := S)
      (p := { p with publishes := p.publishes ++ [(w.next, c :: out)] }) (c :: out) hts hw hr hmem
    refine ⟨[.send (c :: out)] ++ ops, p.publishes ++ [(w.next, c :: out)], ?_⟩
    rw [run_append, hsend]
    dsimp only at hops ⊢
    rw [hops]
    simp only [decide_eq_true_eq]

/-- The inputs of a batch, handled in order until one fails. -/
theorem handleFrom_run {attempts : ℕ → List Attempt} (hts : ∀ i, ∀ t ∈ attempts i, t.Possible)
    {es : List Entry} (hw : p.work = some w) (hgoing : w.stopped = false)
    (hlast : w.next + es.length = w.last + 1) (hsmall : w.last < 2 ^ 63) :
    let handled := handleFrom (S.handle V attempts) w.next es p.store
    ∃ ops publishes w', (run (pipeExec V S) p ops).2 = { p with
        store := handled.2
        publishes := publishes
        work := some w' } ∧
      w'.ready = false ∧ w'.next = w.next + handled.1 ∧ w'.first = w.first ∧ w'.last = w.last ∧
        w'.own = w.own := by
  induction es generalizing p w with
  | nil =>
    refine ⟨[], p.publishes, w, ?_, ?_, rfl, rfl, rfl, rfl⟩
    · rw [← hw]
      rfl
    · rw [List.length_nil] at hlast
      have hdone : ¬ w.next ≤ w.last := by omega
      simp [StageWork.ready, hdone]
  | cons e es ih =>
    rw [List.length_cons] at hlast
    have hr : w.ready = true := by
      have hmore : w.next ≤ w.last := by omega
      simp [StageWork.ready, hgoing, hmore]
    have hindex : toInt64 w.next = (w.next : ℤ) := by
      have hword : w.next < 2 ^ 64 := by omega
      rw [toInt64, u64_of_lt hword, if_pos (by omega)]
    have hone : S.handle V attempts w.next e p.store =
        pipeOne V S attempts (w.next : ℤ) e.payload p.store := by
      rw [Stage.handle, hindex]
    obtain ⟨ops, publishes, hops⟩ := pipeOne_run (V := V) (S := S) (hts w.next) e.payload hw hr
    rw [← hone] at hops
    simp only [handleFrom]
    split
    · rename_i hok
      simp only [hok, if_true] at hops
      obtain ⟨ops', publishes', w', hrun, hready, hnext, hfirst, hlast', hown⟩ :=
        ih (w := w.passed) (p := { p with
          store := (S.handle V attempts w.next e p.store).2
          publishes := publishes
          work := some w.passed }) rfl hgoing (by simp only [StageWork.passed]; omega) hsmall
      refine ⟨ops ++ ops', publishes', w', ?_, hready, ?_, hfirst, hlast', hown⟩
      · rw [run_append, hops]
        exact hrun
      · rw [hnext]
        simp only [StageWork.passed]
        omega
    · rename_i hbad
      refine ⟨ops, publishes, w.failed, ?_, ?_, rfl, rfl, rfl, rfl⟩
      · rw [hops]
        simp only [hbad]
        rfl
      · simp [StageWork.ready, StageWork.failed]

end

end SukkalMsg
