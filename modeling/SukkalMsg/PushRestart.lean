import SukkalMsg.PumpSleep

/-!
# A restart, and an engine that was connected first

A connection is opened when its subscription is added, and only if the transport is
there. A starting broker loads its subscriptions first, so none of them has one: a
pump leases and skips as it would have, and sends nothing.
-/

namespace SukkalMsg

open Std Names Binjson OrderedScan BoundedTable Store ActionRuns

/-- `t_send`: a connection that was never opened refuses, and another answers what
adding the transfer does. -/
def tSend (adds : Psub → Bool) (s : Psub) : Bool := s.conn && adds s

/-- An engine whose transport was there first, with the same subscriptions added in
the same order. -/
def Pusher.connected (st : Store) (listing : List Bytes) (defaultBatch : ℕ) : Pusher :=
  st.bjmPushEach.foldl (fun p x => p.add x.1 x.2)
    { ((blank defaultBatch).namesLoad listing).setTransport with work := true }

def App.connected (st : Store) (listing : List Bytes) (defaultBatch : ℕ) : App :=
  ⟨st, Pusher.connected st listing defaultBatch⟩

def Psub.withConn (s : Psub) (c : Bool) : Psub := { s with conn := c }

def Sent.seen (d : Sent) : Bytes × Bytes × Body × List Bytes :=
  (d.sub.consumer, d.sub.subject, d.sub.body, d.sub.hdrs)

/-- A view of the engine that has its names, its batch size and its notices. -/
structure Pusher.View (f : Pusher → Pusher) : Prop where
  names : ∀ p, (f p).names = p.names
  batch : ∀ p, (f p).defaultBatch = p.defaultBatch
  notify : ∀ p name, (f p).notify name = f (p.notify name)

namespace Scan

variable {V : Vendor} {clock : ℕ}

def viewed (f : Pusher → Pusher) (c : Bool) (a : Scan) : Scan := ⟨a.store, f a.push, a.sub.withConn c⟩

/-- The same scan with another table, other outstanding deliveries, and another
connection. -/
def recast (l : List Psub) (k : ℕ) (c : Bool) (a : Scan) : Scan :=
  ⟨a.store, { a.push with subs := l, inflight := k }, a.sub.withConn c⟩

section

variable {f : Pusher → Pusher} (hf : Pusher.View f) (c : Bool) (a : Scan)

include hf

theorem notifyDead_viewed (p : Pusher) (st : Store) (name : Bytes) (ds : List (ℕ × ℕ)) :
    (f p).notifyDead st name ds = f (p.notifyDead st name ds) := by
  simp only [Pusher.notifyDead]
  split
  · rfl
  · split
    · exact hf.notify p _
    · rfl

theorem movedTo_viewed (p p' : Pusher) : movedTo (f p) (f p') = movedTo p p' := by
  simp only [movedTo, Pusher.full, hf.names]

theorem again_viewed (name : Bytes) : (a.viewed f c).again V name = a.again V name := by
  funext st
  have hpush : (a.viewed f c).push = f a.push := rfl
  simp only [again, hpush, hf.notify, movedTo_viewed hf]

theorem takeBatch_viewed (name : Bytes) : (a.viewed f c).takeBatch V clock name =
    ((a.takeBatch V clock name).1.viewed f c, (a.takeBatch V clock name).2) := by
  have hcfg : (a.viewed f c).sub.cfg = a.sub.cfg := rfl
  have hstore : (a.viewed f c).store = a.store := rfl
  have hpush : (a.viewed f c).push = f a.push := rfl
  simp only [takeBatch, hcfg, hstore, again_viewed hf]
  generalize a.store.bjmTakeVia V (a.again V name) clock name a.sub.cfg.group _ UINT64_MAX = r
  cases r with
  | error e => rfl
  | ok t =>
    simp only [hpush, notifyDead_viewed hf]
    by_cases hjobs : t.jobs = []
    · simp only [hjobs, if_true]
      rfl
    · simp only [hjobs, if_false]
      split <;> rfl

omit hf in
theorem noteWake_viewed (name : Bytes) :
    (a.viewed f c).noteWake name = (a.noteWake name).viewed f c := by
  have hcfg : (a.viewed f c).sub.cfg = a.sub.cfg := rfl
  have hstore : (a.viewed f c).store = a.store := rfl
  have hwake : (a.viewed f c).sub.wakeMs = a.sub.wakeMs := rfl
  simp only [noteWake, hcfg, hstore, hwake]
  generalize a.store.bjmQueueNextDue name a.sub.cfg.group = r
  cases r with
  | error e => rfl
  | ok found =>
    cases found with
    | none => rfl
    | some due =>
      dsimp only
      split <;> rfl

theorem offerJobs_viewed (i : ℕ) (name : Bytes) : (a.viewed f c).offerJobs V clock i name =
    ((a.offerJobs V clock i name).1.viewed f c, (a.offerJobs V clock i name).2) := by
  simp only [offerJobs, takeBatch_viewed hf]
  generalize a.takeBatch V clock name = r
  obtain ⟨b, found⟩ := r
  have hmoved : movedTo (a.viewed f c).push (b.viewed f c).push = movedTo a.push b.push :=
    movedTo_viewed hf a.push b.push
  have hread : (a.viewed f c).reread V (b.viewed f c) name = a.reread V b name := by
    simp only [reread, hmoved]
    rfl
  cases found with
  | none => simp only [hread, noteWake_viewed]
  | some count =>
    have hnames : (b.viewed f c).push.names = b.push.names := hf.names b.push
    simp only [hnames, hmoved, hread]
    rfl

omit hf in
theorem skipTrimmed_viewed (name : Bytes) (acked base : ℕ) :
    (a.viewed f c).skipTrimmed name acked base = (a.skipTrimmed name acked base).viewed f c := by
  have hconsumer : (a.viewed f c).sub.consumer = a.sub.consumer := rfl
  have hstore : (a.viewed f c).store = a.store := rfl
  simp only [skipTrimmed, hconsumer, hstore]
  split
  · generalize a.store.bjmCursorSet name a.sub.consumer base = r
    cases r <;> rfl
  · rfl

theorem readBatch_viewed (i : ℕ) (name : Bytes) (acked : ℕ) :
    (a.viewed f c).readBatch V i name acked =
      ((a.readBatch V i name acked).1.viewed f c, (a.readBatch V i name acked).2) := by
  have hnames : (a.viewed f c).push.names = a.push.names := hf.names a.push
  have hbytes : (a.viewed f c).batchBytes = a.batchBytes := by
    have hbatch : (a.viewed f c).push.defaultBatch = a.push.defaultBatch := hf.batch a.push
    simp only [batchBytes, hbatch]
    rfl
  have hstore : (a.viewed f c).store = a.store := rfl
  simp only [readBatch, hbytes, hstore, hnames]
  generalize a.store.bjmRead V name (acked + 1) a.batchBytes = r
  cases r with
  | error e => rfl
  | ok read =>
    dsimp only
    split <;> rfl

theorem offerBatch_viewed (i : ℕ) (name : Bytes) : (a.viewed f c).offerBatch V i name =
    ((a.offerBatch V i name).1.viewed f c, (a.offerBatch V i name).2) := by
  have hstore : (a.viewed f c).store = a.store := rfl
  have hconsumer : (a.viewed f c).sub.consumer = a.sub.consumer := rfl
  simp only [offerBatch, hstore, hconsumer, skipTrimmed_viewed, readBatch_viewed hf]
  generalize a.store.bjmSubjectInfo V name = info
  cases info with
  | error e => rfl
  | ok info =>
    generalize a.store.bjmCursorGet name a.sub.consumer = r
    cases r with
    | error e => rfl
    | ok found =>
      dsimp only
      split
      · rfl
      · split <;> rfl

theorem loop_viewed (fuel n : ℕ) : loop V clock fuel n (a.viewed f c) =
    ((loop V clock fuel n a).1.viewed f c, (loop V clock fuel n a).2) := by
  induction fuel generalizing a n with
  | zero => rfl
  | succ fuel ih =>
    have hoffer : ∀ i name, (a.viewed f c).offer V clock i name =
        ((a.offer V clock i name).1.viewed f c, (a.offer V clock i name).2) := by
      intro i name
      simp only [offer]
      split
      · rename_i hg
        rw [if_pos (show a.sub.cfg.group ≠ [] from hg), offerJobs_viewed hf]
      · rename_i hg
        rw [if_neg (show ¬ a.sub.cfg.group ≠ [] from hg), offerBatch_viewed hf]
    have hnames : (a.viewed f c).push.names = a.push.names := hf.names a.push
    have hrr : (a.viewed f c).sub.rr = a.sub.rr := rfl
    have hmatch : ∀ name, (a.viewed f c).sub.isMatch name = a.sub.isMatch name := fun _ => rfl
    simp only [loop, hnames, hrr, hmatch, hoffer]
    split
    · split
      · generalize a.offer V clock _ _ = r
        obtain ⟨b, found⟩ := r
        cases found with
        | none => exact ih b (n + 1)
        | some count => rfl
      · exact ih a (n + 1)
    · rfl

variable (V clock) in
theorem search_viewed : (a.viewed f c).search V clock =
    ((a.search V clock).1.viewed f c, (a.search V clock).2) := by
  have hnames : (a.viewed f c).push.names = a.push.names := hf.names a.push
  simp only [search, hnames]
  exact loop_viewed hf c { a with sub.wakeMs := 0 } _ _

end

variable (V clock) in
theorem search_recast (l : List Psub) (k : ℕ) (c : Bool) (a : Scan) :
    (a.recast l k c).search V clock =
      ((a.search V clock).1.recast l k c, (a.search V clock).2) := by
  have hview : Pusher.View fun p => { p with subs := l, inflight := k } := by
    refine ⟨fun p => rfl, fun p => rfl, fun p name => ?_⟩
    simp only [Pusher.notify, Pusher.namesAdd]
    split <;> rfl
  exact search_viewed V clock hview c a

end Scan

/-- The subscription has just been loaded, before there was a transport. -/
structure Psub.Unopened (s : Psub) : Prop where
  conn : s.conn = false
  here : s.gone = false
  idle : s.inflight = false
  due : s.dueMs = 0

/-- An engine that was loaded without a transport, and one that was connected first. -/
structure Pusher.Twins (p q : Pusher) : Prop where
  subs : q.subs = p.subs.map (·.withConn true)
  names : q.names = p.names
  nextId : q.nextId = p.nextId
  defaultBatch : q.defaultBatch = p.defaultBatch
  inflight : q.inflight = p.inflight
  work : q.work = true
  without : p.xfer = false
  connected : q.xfer = true
  unopened : ∀ s ∈ p.subs, s.Unopened

namespace Pusher.Twins

variable {p q : Pusher}

theorem loadOne (h : Twins p q) {c : Bytes} {cfg : PushSub} (hc : ∀ s ∈ p.subs, s.consumer ≠ c) :
    Twins (p.loadOne c cfg) (q.add c cfg) := by
  have hnone : q.find c = none := by
    rw [find, List.find?_eq_none, h.subs]
    intro s hs
    obtain ⟨t, ht, rfl⟩ := List.mem_map.mp hs
    simp [Psub.withConn, hc t ht]
  have hadd : q.add c cfg = { q.loadOne c cfg with work := true } := by simp only [add, hnone]
  have hnew : q.psubNew c cfg = (p.psubNew c cfg).withConn true := by
    simp only [psubNew, Psub.withConn, h.nextId, h.connected]
  rw [hadd]
  refine ⟨?_, h.names, ?_, h.defaultBatch, h.inflight, rfl, h.without, h.connected, ?_⟩
  · simp only [Pusher.loadOne, h.subs, hnew, List.map_append, List.map_cons, List.map_nil]
  · simp only [Pusher.loadOne, h.nextId]
  · intro s hs
    rcases List.mem_append.mp hs with hs | hs
    · exact h.unopened s hs
    · obtain rfl := List.mem_singleton.mp hs
      exact ⟨h.without, rfl, rfl, rfl⟩

theorem foldl (h : Twins p q) {l : List (Bytes × PushSub)} (hl : (l.map Prod.fst).Nodup)
    (hc : ∀ s ∈ p.subs, s.consumer ∉ l.map Prod.fst) :
    Twins (l.foldl (fun p x => p.loadOne x.1 x.2) p) (l.foldl (fun p x => p.add x.1 x.2) q) := by
  induction l generalizing p q with
  | nil => exact h
  | cons x l ih =>
    rw [List.map_cons, List.nodup_cons] at hl
    refine ih (h.loadOne fun s hs he => hc s hs (by simp [he])) hl.2 fun s hs hm => ?_
    rcases List.mem_append.mp hs with hs | hs
    · exact hc s hs (by simp only [List.map_cons, List.mem_cons, hm, or_true])
    · obtain rfl := List.mem_singleton.mp hs
      exact hl.1 hm

end Pusher.Twins

theorem namesLoad_fields (p : Pusher) (listing : List Bytes) :
    (p.namesLoad listing).subs = p.subs ∧ (p.namesLoad listing).xfer = p.xfer := by
  induction listing generalizing p with
  | nil => exact ⟨rfl, rfl⟩
  | cons e listing ih =>
    simp only [Pusher.namesLoad, List.foldl_cons] at ih ⊢
    split
    · exact ih p
    split
    · exact ih p
    split
    · exact ih p
    · obtain ⟨hs, hx⟩ := ih (p.namesAdd (e.take (e.length - SUBJECT_SUFFIX.length)))
      rw [hs, hx]
      simp only [Pusher.namesAdd]
      split <;> exact ⟨rfl, rfl⟩

theorem Pusher.twins_start {st : Store} (hv : st.Enlisted) (listing : List Bytes) (n : ℕ) :
    ∃ p, Twins p (connected st listing n) ∧
      (new st listing n).setTransport = { p with work := true, xfer := true } := by
  obtain ⟨hs, hx⟩ := namesLoad_fields (blank n) listing
  have hs' : ((blank n).namesLoad listing).subs = [] := hs
  have hbegin : Twins ((blank n).namesLoad listing)
      { ((blank n).namesLoad listing).setTransport with work := true } := by
    refine ⟨?_, rfl, rfl, rfl, rfl, rfl, hx, rfl, ?_⟩
    · simp only [setTransport, hs', List.map_nil]
    · intro s hmem
      rw [hs'] at hmem
      exact absurd hmem List.not_mem_nil
  exact ⟨_, hbegin.foldl (bjmPushEach_nodup hv) fun s hmem => by
    rw [hs'] at hmem
    exact absurd hmem List.not_mem_nil, rfl⟩

/-- The search of a turn comes to something that a connection would take. -/
def Pass.Starts (V : Vendor) (clock : ℕ) (adds : Psub → Bool) (t : Pass) (s : Psub) : Prop :=
  ∃ a count, Scan.search V clock ⟨t.store, t.push, s⟩ = (a, some count) ∧
    adds ((a.sub.withConn true).prepared count) = true

/-- The same pass, as far as searches can tell. -/
structure Pass.Twins (t u : Pass) : Prop where
  store : u.store = t.store
  push : u.push = { t.push with subs := u.push.subs, inflight := u.push.inflight }
  xfer : t.push.xfer = true

namespace Pass

variable {V : Vendor} {adds : Psub → Bool} {now clock : ℕ} {t u : Pass}

variable (V adds now clock) in
/-- A turn for a subscription without a connection sends nothing, and leaves what the
turn of its twin leaves. -/
theorem Twins.ask (h : Twins t u) {s : Psub} (hs : s.Unopened) :
    Twins (t.ask V (tSend adds) now clock s).1
        (u.ask V (tSend adds) now clock (s.withConn true)).1 ∧
      (t.ask V (tSend adds) now clock s).1.sent = t.sent ∧
      ∃ ds, (u.ask V (tSend adds) now clock (s.withConn true)).1.sent = u.sent ++ ds ∧
        (ds ≠ [] ↔ Starts V clock adds t s) := by
  have hdue : s.dueMs ≤ now := by
    rw [hs.due]
    exact Nat.zero_le _
  have helig : s.Eligible now := ⟨hs.here, hs.idle, hdue⟩
  have helig' : (s.withConn true).Eligible now := ⟨hs.here, hs.idle, hdue⟩
  have hscan : (⟨u.store, u.push, s.withConn true⟩ : Scan) =
      (⟨t.store, t.push, s⟩ : Scan).recast u.push.subs u.push.inflight true := by
    rw [Scan.recast, ← h.push, h.store]
  have hsearch := Scan.search_recast V clock u.push.subs u.push.inflight true
    ⟨t.store, t.push, s⟩
  rw [← hscan] at hsearch
  have hheeds := Scan.heeds_search V clock (a := ⟨t.store, t.push, s⟩)
  have hcases := Scan.startDelivery_cases V clock (tSend adds) (a := ⟨t.store, t.push, s⟩)
  have hcases' := Scan.startDelivery_cases V clock (tSend adds) (a := ⟨u.store, u.push, s.withConn true⟩)
  rw [hsearch] at hcases'
  simp only [Starts]
  generalize Scan.search V clock ⟨t.store, t.push, s⟩ = r at *
  obtain ⟨a, found⟩ := r
  dsimp only at *
  have hconn : a.sub.conn = false := hheeds.sub.conn_eq.trans hs.conn
  have hxfer : a.push.xfer = true := hheeds.push.xfer_eq.trans h.xfer
  -- without a connection the turn leaves what its search has left
  obtain ⟨sub, hstart⟩ : ∃ sub, Scan.startDelivery V clock (tSend adds) ⟨t.store, t.push, s⟩ =
      (false, { a with sub := sub }) := by
    rcases hcases with ⟨hstart, -⟩ | ⟨count, -, ⟨-, hstart⟩ | ⟨htaken, -⟩⟩
    · exact ⟨a.sub, hstart⟩
    · exact ⟨_, hstart⟩
    · have hprep : (a.sub.prepared count).conn = a.sub.conn := rfl
      simp [tSend, hprep, hconn] at htaken
  obtain ⟨-, hstore, hpush, -, hsent⟩ := ask_of_start helig hstart
  dsimp only [Bool.false_eq_true, if_false] at hstore hpush hsent
  have hnone : ∀ sub', Scan.startDelivery V clock (tSend adds) ⟨u.store, u.push, s.withConn true⟩ =
      (false, { a.recast u.push.subs u.push.inflight true with sub := sub' }) →
      Twins (t.ask V (tSend adds) now clock s).1
          (u.ask V (tSend adds) now clock (s.withConn true)).1 ∧
        (u.ask V (tSend adds) now clock (s.withConn true)).1.sent = u.sent := by
    intro sub' hstart'
    obtain ⟨-, hstore', hpush', -, hsent'⟩ := ask_of_start helig' hstart'
    refine ⟨⟨?_, ?_, ?_⟩, hsent'⟩
    · rw [hstore', hstore]
      rfl
    · rw [hpush', hpush]
      rfl
    · rw [hpush]
      exact hxfer
  rcases hcases' with ⟨hstart', hf⟩ | ⟨count, hf, ⟨hrefused, hstart'⟩ | ⟨htaken, hstart'⟩⟩
  · obtain ⟨htwins, hsent'⟩ := hnone _ hstart'
    refine ⟨htwins, hsent, [], by rw [hsent', List.append_nil], ?_⟩
    simp [hf]
  · obtain ⟨htwins, hsent'⟩ := hnone _ hstart'
    refine ⟨htwins, hsent, [], by rw [hsent', List.append_nil], ?_⟩
    have hadds : adds ((a.sub.withConn true).prepared count) = false := by
      have hx : (a.recast u.push.subs u.push.inflight true).push.xfer = true := hxfer
      rw [hx, Bool.true_and] at hrefused
      exact hrefused
    simp [hf, hadds]
  · obtain ⟨-, hstore', hpush', -, hsent'⟩ := ask_of_start helig' hstart'
    refine ⟨⟨?_, ?_, ?_⟩, hsent, [_], hsent', ?_⟩
    · rw [hstore', hstore]
      rfl
    · rw [hpush', hpush]
      rfl
    · rw [hpush]
      exact hxfer
    · have hadds : adds ((a.sub.withConn true).prepared count) = true := by
        have hx : (a.recast u.push.subs u.push.inflight true).push.xfer = true := hxfer
        rw [hx, Bool.true_and] at htaken
        exact htaken
      simp [hf, hadds]

variable (V adds now clock) in
theorem Twins.askAll (h : Twins t u) {ss : List Psub} (hss : ∀ s ∈ ss, s.Unopened) :
    Twins (askAll V (tSend adds) now clock t ss).1
        (askAll V (tSend adds) now clock u (ss.map (·.withConn true))).1 ∧
      (askAll V (tSend adds) now clock t ss).1.sent = t.sent ∧
      ∃ ds, (askAll V (tSend adds) now clock u (ss.map (·.withConn true))).1.sent = u.sent ++ ds ∧
        (ds ≠ [] ↔ ∃ pre s suf, ss = pre ++ s :: suf ∧
          Starts V clock adds (askAll V (tSend adds) now clock t pre).1 s) := by
  induction ss generalizing t u with
  | nil => exact ⟨h, rfl, [], by simp [Pass.askAll], by simp⟩
  | cons s ss ih =>
    obtain ⟨hturn, hsent, ds, hds, hstarts⟩ := h.ask V adds now clock
      (hss s List.mem_cons_self)
    obtain ⟨hrest, hsent', ds', hds', hstarts'⟩ :=
      ih hturn fun x hx => hss x (List.mem_cons_of_mem _ hx)
    refine ⟨hrest, hsent'.trans hsent, ds ++ ds', ?_, ?_⟩
    · rw [List.map_cons]
      simp only [Pass.askAll, hds', hds, List.append_assoc]
    · rw [ne_eq, List.append_eq_nil_iff, not_and_or, ← ne_eq, ← ne_eq, hstarts, hstarts']
      constructor
      · rintro (hs | ⟨pre, x, suf, rfl, hx⟩)
        · exact ⟨[], s, ss, rfl, hs⟩
        · exact ⟨s :: pre, x, suf, rfl, hx⟩
      · rintro ⟨pre, x, suf, heq, hx⟩
        cases pre with
        | nil =>
          obtain ⟨rfl, rfl⟩ := List.cons.inj heq
          exact .inl hx
        | cons y pre =>
          obtain ⟨rfl, rfl⟩ := List.cons.inj heq
          exact .inr ⟨pre, x, suf, rfl, hx⟩

end Pass

/-- The first pump of a restarted broker leaves the store the connected engine leaves,
and starts the same deliveries exactly when no turn of the pass comes to something a
connection would take. -/
theorem restart_same_iff {V : Vendor} {adds : Psub → Bool} {now clock n : ℕ} {st : Store}
    {listing : List Bytes} (hv : st.Enlisted) :
    let b := App.start st listing n
    let r := b.pump V (tSend adds) now clock
    let r' := (App.connected st listing n).pump V (tSend adds) now clock
    (r.sent.map Sent.seen = r'.sent.map Sent.seen ∧ r.app.store = r'.app.store) ↔
      ¬ ∃ pre s suf, b.push.subs = pre ++ s :: suf ∧
        Pass.Starts V clock adds (Pass.askAll V (tSend adds) now clock b.passStart pre).1 s := by
  obtain ⟨p, htwins, hnew⟩ := Pusher.twins_start hv listing n
  have hpush : (App.start st listing n).push = { p with work := true, xfer := true } := hnew
  have hpass : Pass.Twins (App.start st listing n).passStart (App.connected st listing n).passStart := by
    refine ⟨rfl, ?_, ?_⟩
    · simp only [App.passStart, hpush, App.connected]
      generalize Pusher.connected st listing n = q at htwins
      cases q
      obtain ⟨-, rfl, rfl, rfl, rfl, rfl, -, rfl, -⟩ := htwins
      rfl
    · simp only [App.passStart, hpush]
  have hsubs : (App.connected st listing n).push.subs =
      (App.start st listing n).push.subs.map (·.withConn true) := by
    rw [hpush]
    exact htwins.subs
  have hun : ∀ s ∈ (App.start st listing n).push.subs, s.Unopened := by
    rw [hpush]
    exact htwins.unopened
  obtain ⟨hsame, hsent, ds, hds, hstarts⟩ := hpass.askAll V adds now clock
    hun
  have hwork : (App.start st listing n).push.work = true := by rw [hpush]
  have hwork' : (App.connected st listing n).push.work = true := htwins.work
  simp only [App.pump, hwork, hwork', if_true, App.pumpPass, hsubs]
  simp only [App.passStart] at hsent hds hsame hstarts ⊢
  rw [hsent, hds, ← hstarts, hsame.store]
  simp

theorem Store.enlisted_of_all {st : Store}
    (h : (st.push.toList.all fun p => bjmConsumerValid p.1) = true) : st.Enlisted := by
  intro k r hr
  simpa using List.all_eq_true.mp h (k, r) (ExtTreeMap.mem_toList_iff_getElem?_eq_some.mpr hr)

/-- A store with one message and one subscriber that has not been sent it. -/
def pendingStore : Store :=
  (run (pushExec .packing) (App.start .empty [] 0) (plainRun.take 2)).2.store

/-- The connected engine delivers the message, the restarted broker does not. -/
theorem pendingStore_not_restarted :
    let r := (App.start pendingStore [ascii "orders.elog"] 0).pump .packing
      (tSend fun _ => true) 3 3
    let r' := (App.connected pendingStore [ascii "orders.elog"] 0).pump .packing
      (tSend fun _ => true) 3 3
    r.sent.map Sent.seen = [] ∧ (r'.sent.map fun d => (d.sub.consumer, d.sub.first)) =
        [(ascii "billing", 1)] ∧
      ¬ (r.sent.map Sent.seen = r'.sent.map Sent.seen ∧ r.app.store = r'.app.store) := by
  refine ⟨by decide +kernel, by decide +kernel, fun h => ?_⟩
  revert h
  have hne : ¬ (((App.start pendingStore [ascii "orders.elog"] 0).pump .packing
      (tSend fun _ => true) 3 3).sent.map Sent.seen =
    ((App.connected pendingStore [ascii "orders.elog"] 0).pump .packing
      (tSend fun _ => true) 3 3).sent.map Sent.seen) := by decide +kernel
  exact fun h => hne h.1

theorem pendingStore_restart_iff :
    let b := App.start pendingStore [ascii "orders.elog"] 0
    let r := b.pump .packing (tSend fun _ => true) 3 3
    let r' := (App.connected pendingStore [ascii "orders.elog"] 0).pump .packing
      (tSend fun _ => true) 3 3
    (r.sent.map Sent.seen = r'.sent.map Sent.seen ∧ r.app.store = r'.app.store) ↔
      ¬ ∃ pre s suf, b.push.subs = pre ++ s :: suf ∧ Pass.Starts .packing 3 (fun _ => true)
        (Pass.askAll .packing (tSend fun _ => true) 3 3 b.passStart pre).1 s :=
  restart_same_iff (enlisted_of_all (by decide +kernel))

end SukkalMsg
