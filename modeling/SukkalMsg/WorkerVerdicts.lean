import SukkalMsg.Offers
import SukkalMsg.WorkerReplies

/-!
# What a worker's verdict settles

The broker finishes the jobs a worker has finished and hands back the others, at the
subject it has written down with them. It reads that subject after the take, where the
name stood before; a table of names that the take has moved may read otherwise there.
-/

namespace SukkalMsg

open Names Binjson Store

/-- The take has buried a job with its message in a channel that was new to a full table of
names, so that the table was moved. -/
def Scan.Moves (c : Scan) (name : Bytes) (dead : List (ℕ × ℕ)) : Prop :=
  c.push.full = true ∧ ∃ channel, deadSubjectOf name = some channel ∧ channel ∉ c.push.names ∧
    ∃ d ∈ dead, ((c.store.logOf name).get d.1).isSome = true

/-- The turn of a search that has leased jobs: the state it found, the subject, and its take. -/
structure Scan.LeasedIn (V : Vendor) (clock : ℕ) (c : Scan) (name : Bytes) (t : Taken) (b : Scan) :
    Prop where
  take : c.store.bjmTakeVia V (c.again V name) clock name c.sub.cfg.group c.wanted UINT64_MAX =
    .ok t
  some : t.jobs ≠ []
  readable : Readable (takeRecord t.jobs)
  store : b.store = t.store
  push : b.push = c.push.notifyDead c.store name t.dead
  cfg : b.sub.cfg = c.sub.cfg
  body : b.sub.body = .lease t.jobs
  indexes : b.sub.jobs = grabJobs (takeRecord t.jobs)
  subject : b.sub.subject = if movedTo c.push b.push then
    cut (BJM_SUBJECT_MAX + 1) (V.stale t.store name) else name

namespace Scan

variable {V : Vendor} {clock : ℕ} {a b c : Scan} {name : Bytes} {t : Taken}

theorem moves_iff {ds : List (ℕ × ℕ)} :
    movedTo c.push (c.push.notifyDead c.store name ds) = true ↔ c.Moves name ds := by
  simp only [movedTo, Bool.and_eq_true, bne_iff_ne, ne_eq, Moves, and_congr_right_iff]
  intro _
  simp only [Pusher.notifyDead]
  cases hd : deadSubjectOf name with
  | none => simp
  | some channel =>
    have hadd := c.push.namesAdd_of_valid (deadSubjectOf_valid hd)
    by_cases hany : (ds.any fun d => ((c.store.logOf name).get d.1).isSome) = true
    · have hex : ∃ d ∈ ds, ((c.store.logOf name).get d.1).isSome = true := List.any_eq_true.mp hany
      simp only [hany, if_true, Pusher.notify, hadd, Option.some.injEq]
      by_cases hmem : channel ∈ c.push.names
      · simp [hmem]
      · simp only [hmem, if_false]
        refine iff_of_true (by simp) ⟨channel, rfl, hmem, hex⟩
    · have hnone : ¬ ∃ d ∈ ds, ((c.store.logOf name).get d.1).isSome = true :=
        fun h => hany (List.any_eq_true.mpr h)
      simp [hany, hnone]

theorem LeasedIn.subject_iff (h : LeasedIn V clock c name t b) : b.sub.subject = name ↔
    (c.Moves name t.dead → cut (BJM_SUBJECT_MAX + 1) (V.stale t.store name) = name) := by
  rw [h.subject, h.push, ← moves_iff]
  split
  · rename_i hmoved
    simp [hmoved]
  · rename_i hmoved
    simp [hmoved]

theorem offerJobs_cfg {i : ℕ} {found : Option ℕ} (h : a.offerJobs V clock i name = (b, found)) :
    b.sub.cfg = a.sub.cfg := by
  have htake : (a.takeBatch V clock name).1.sub.cfg = a.sub.cfg := by
    simp only [takeBatch]
    split
    · rfl
    · split
      · rfl
      · split <;> rfl
  simp only [offerJobs] at h
  split at h <;> rename_i d hd <;> rw [hd] at htake <;> obtain ⟨rfl, -⟩ := Prod.mk.inj h
  · rw [← htake]
    simp only [noteWake]
    split
    · split <;> rfl
    · rfl
  · exact htake

theorem leasedIn_offerJobs {i count : ℕ} (h : a.offerJobs V clock i name = (b, some count)) :
    ∃ t, LeasedIn V clock a name t b := by
  simp only [offerJobs] at h
  split at h
  · simp at h
  rename_i d n hd
  obtain ⟨rfl, -⟩ := Prod.mk.inj h
  simp only [takeBatch] at hd
  split at hd
  · simp at hd
  rename_i t ht
  split at hd
  · simp at hd
  rename_i hsome
  split at hd
  · rename_i hr
    obtain ⟨rfl, -⟩ := Prod.mk.inj hd
    refine ⟨t, ht, hsome, hr.1, rfl, rfl, rfl, rfl, rfl, ?_⟩
    dsimp only [reread]
    split <;> rfl
  · simp at hd

def ComesTo (V : Vendor) (clock : ℕ) (a c : Scan) (name : Bytes) : Prop :=
  ∃ fuel n, a.search V clock = loop V clock (fuel + 1) n c ∧ n < c.push.names.length ∧
    name = c.push.names.getD ((c.sub.rr + n) % c.push.names.length) []

theorem leasedIn_loop {fuel n count : ℕ} (hg : a.sub.cfg.group ≠ [])
    (h : loop V clock fuel n a = (b, some count)) :
    ∃ c name t fuel' n', loop V clock fuel n a = loop V clock (fuel' + 1) n' c ∧
      n' < c.push.names.length ∧
      name = c.push.names.getD ((c.sub.rr + n') % c.push.names.length) [] ∧
      c.sub.cfg = a.sub.cfg ∧ c.sub.isMatch name = true ∧ LeasedIn V clock c name t b := by
  induction fuel generalizing a n with
  | zero => simp [loop] at h
  | succ fuel ih =>
    have hall := h
    simp only [loop] at h
    split at h
    · rename_i hn
      split at h
      · rename_i hmatch
        have hoffer : a.offer V clock ((a.sub.rr + n) % a.push.names.length)
            (a.push.names.getD ((a.sub.rr + n) % a.push.names.length) []) =
            a.offerJobs V clock ((a.sub.rr + n) % a.push.names.length)
              (a.push.names.getD ((a.sub.rr + n) % a.push.names.length) []) := by
          rw [offer, if_pos hg]
        split at h
        · rename_i c hc
          have hcfg := offerJobs_cfg (hoffer ▸ hc)
          obtain ⟨c', name, t, fuel', n', hloop, hrest⟩ := ih (hcfg ▸ hg) h
          refine ⟨c', name, t, fuel', n', ?_, hcfg ▸ hrest⟩
          rw [← hloop]
          simp only [loop, hn, hmatch, if_true, hc]
        · rename_i c m hc
          obtain ⟨rfl, -⟩ := Prod.mk.inj h
          obtain ⟨t, hl⟩ := leasedIn_offerJobs (hoffer ▸ hc)
          exact ⟨a, _, t, fuel, n, rfl, hn, rfl, rfl, hmatch, hl⟩
      · rename_i hmatch
        obtain ⟨c', name, t, fuel', n', hloop, hrest⟩ := ih hg h
        refine ⟨c', name, t, fuel', n', ?_, hrest⟩
        rw [← hloop]
        simp only [loop, hn, hmatch, if_true, if_false, Bool.false_eq_true]
    · simp at h

/-- A delivery that was started for a worker carries the jobs of the take its search has
ended with. -/
theorem started_leasedIn {send : Psub → Bool} (hg : a.sub.cfg.group ≠ [])
    (h : a.startDelivery V clock send = (true, b)) :
    ∃ c name t, ComesTo V clock a c name ∧ c.sub.cfg = a.sub.cfg ∧ c.sub.isMatch name = true ∧
      ∃ d, LeasedIn V clock c name t d ∧ b.store = d.store ∧ b.sub.body = d.sub.body ∧
        b.sub.jobs = d.sub.jobs ∧ b.sub.subject = d.sub.subject := by
  simp only [startDelivery] at h
  cases hs : a.search V clock with
  | mk d found =>
    rw [hs] at h
    cases found with
    | none => exact absurd (Prod.mk.inj h).1 Bool.false_ne_true
    | some count =>
      obtain ⟨c, name, t, fuel, n, hloop, hn, hname, hcfg, hmatch, hl⟩ :=
        leasedIn_loop (a := { a with sub.wakeMs := 0 }) hg hs
      refine ⟨c, name, t, ⟨fuel, n, hloop, hn, hname⟩, hcfg, hmatch, d, hl, ?_⟩
      simp only [sendBatch] at h
      split at h
      · obtain ⟨-, rfl⟩ := Prod.mk.inj h
        exact ⟨rfl, rfl, rfl, rfl⟩
      · exact absurd (Prod.mk.inj h).1 Bool.false_ne_true

end Scan

theorem awaits_of_leased {d : Sent} {cfg : PushSub} {jobs : List Job} {s : Psub}
    (hr : Readable (takeRecord jobs)) (hindexes : d.sub.jobs = grabJobs (takeRecord jobs))
    (hc : s.Carries d) (hlive : s.gone = false) (hcfg : s.cfg = cfg) (hg : cfg.group ≠ [])
    (hlen : jobs.length ≤ BJM_PUSH_JOBS_MAX) (hj : ∀ j ∈ jobs, j.index < 10 ^ 15) :
    s.AwaitsJobs jobs where
  here := hlive
  group := by
    rw [hcfg]
    exact hg
  indexes := by
    rw [hc.jobs, hindexes, grabJobs_takeRecord hr, List.take_of_length_le
      (by rwa [List.length_map])]
    refine List.map_congr_left fun j hmem => u64_of_lt ?_
    have := hj j hmem
    omega
  unlisted := hc.unlisted

theorem unreached_settles {b : App} {s : Psub} (hids : (b.push.subs.map (·.id)).Nodup)
    (hs : s ∈ b.push.subs) (hlive : s.gone = false) {r : Reply} (hr : r.reached = false)
    (clock now : ℕ) : (b.delivered clock s.id r now).store = b.store := by
  obtain ⟨pre, suf, t, x, -, -, hx, heq⟩ := delivered_settles hids hs hlive clock r now
  have hbad : r.ok = false := by simp only [Reply.ok, hr, Bool.false_and]
  rw [heq, hx]
  simp only [Psub.settle]
  split
  · simp only [Psub.finishJobs_store, hr, Bool.false_eq_true, if_false]
  · simp only [Psub.finishBatch_store, hbad, Bool.false_eq_true, false_and, if_false]

theorem settling_inj {s s' g : Bytes} {done : ℕ → Bool} {js : List ℕ} (hsome : js ≠ []) :
    JobCall.settling s g done js = JobCall.settling s' g done js ↔ s = s' := by
  obtain ⟨j, js, rfl⟩ := List.exists_cons_of_ne_nil hsome
  constructor
  · intro h
    exact (JobCall.mk.inj (List.cons.inj h).1).2.1
  · rintro rfl
    rfl

/-- What a worker answers has the jobs settled as it says, at the subject they were leased from,
exactly when the take has not moved the table of names, or where the name stood still reads so.
What does not reach the worker changes nothing. -/
theorem worker_verdict_settles_iff {V : Vendor} {clock : ℕ} {send : Psub → Bool} {a a' : Scan}
    (hstart : a.startDelivery V clock send = (true, a')) (hg : a.sub.cfg.group ≠ []) :
    ∃ c name t, Scan.ComesTo V clock a c name ∧ c.sub.cfg = a.sub.cfg ∧
      c.sub.isMatch name = true ∧
      c.store.bjmTakeVia V (c.again V name) clock name c.sub.cfg.group c.wanted UINT64_MAX =
        .ok t ∧ a'.store = t.store ∧ a'.sub.body = .lease t.jobs ∧
      ∀ (b : App) (s : Psub), (b.push.subs.map (·.id)).Nodup → s ∈ b.push.subs →
        s.Carries ⟨a'.store, a'.sub⟩ → s.gone = false → s.cfg = a.sub.cfg →
        ∀ (clock : ℕ) (r : Reply) (now : ℕ),
          (b.delivered clock s.id r now).store =
            (b.jobCalls s.id r).foldl (JobCall.make clock) b.store ∧
          (r.reached = false → (b.delivered clock s.id r now).store = b.store) ∧
          (t.jobs.length ≤ BJM_PUSH_JOBS_MAX → (t.jobs.map (·.index)).Nodup →
            (∀ j ∈ t.jobs, j.index < 10 ^ 15) →
            (∀ (W : Worker) (auth subject : Option Bytes),
              Conveys (hJob W auth subject (some (takeRecord t.jobs))) r →
                (b.jobCalls s.id r = JobCall.settling name s.cfg.group
                    (W.finishes auth subject t.jobs) (t.jobs.map (·.index)) ↔
                  (c.Moves name t.dead →
                    cut (BJM_SUBJECT_MAX + 1) (V.stale t.store name) = name))) ∧
            ((encode (takeRecord t.jobs)).length < 2 ^ 32 + 5 →
              ∀ (D : Type) (P : PyBinjson.PyRuntime D) (C : PyProtocol.PyConversions D)
                (info : PyProtocol.DeliveryInfo) (handler : PyProtocol.Delivery D → Bool),
                Conveys (PyProtocol.handleJobs P C (encode (takeRecord t.jobs)) info handler) r →
                  (b.jobCalls s.id r = JobCall.settling name s.cfg.group
                      (PyProtocol.finishes P C (encode (takeRecord t.jobs)) info handler)
                      (t.jobs.map (·.index)) ↔
                    (c.Moves name t.dead →
                      cut (BJM_SUBJECT_MAX + 1) (V.stale t.store name) = name)))) := by
  obtain ⟨c, name, t, hcomes, hcfg, hmatch, d, hl, hstore, hbody, hjobs, hsubject⟩ :=
    Scan.started_leasedIn hg hstart
  refine ⟨c, name, t, hcomes, hcfg, hmatch, hl.take, hstore.trans hl.store,
    hbody.trans hl.body, fun b s hids hs hc hlive hsame clock r now => ?_⟩
  have hgroup : s.cfg.group ≠ [] := by
    rw [hsame]
    exact hg
  refine ⟨delivered_jobCalls hids hs hlive hgroup clock r now,
    fun hr => unreached_settles hids hs hlive hr clock now, fun hlen hnd hj => ?_⟩
  have hawaits := awaits_of_leased (d := ⟨a'.store, a'.sub⟩) hl.readable
    (hjobs.trans hl.indexes) hc hlive hsame hg hlen hj
  have hsome : t.jobs.map (·.index) ≠ [] := fun h => hl.some (List.map_eq_nil_iff.mp h)
  have hstands := hl.subject_iff
  rw [← hsubject, ← hc.subject] at hstands
  constructor
  · intro W auth subject hr
    have hrep := hJob_reports W auth subject hl.readable hlen hnd hj
    rw [hrep.calls hids hs hawaits hr, settling_inj hsome, hstands]
  · intro hfit D P C info handler hr
    have hrep : Reporting (t.jobs.map (·.index))
        (PyProtocol.finishes P C (encode (takeRecord t.jobs)) info handler)
        (PyProtocol.handleJobs P C (encode (takeRecord t.jobs)) info handler) :=
      PyProtocol.handleJobs_reports handler hl.readable hfit hlen hnd hj
    rw [hrep.calls hids hs hawaits hr, settling_inj hsome, hstands]

def HttpReply.told (h : HttpReply) : Reply :=
  ⟨true, h.status, none, h.headers.map headerLine, [h.body]⟩

theorem HttpReply.conveys_told (h : HttpReply) : Conveys h h.told :=
  ⟨rfl, rfl, [], [], by simp [HttpReply.told], (by simp)⟩

/-- `billing` works for `orders`, two jobs at a time, and two messages wait. -/
def twoWaiting : Scan where
  store := (((App.start .empty [] 0).publish 1 (ascii "orders") ⟨BJM_ENTRY_PLAIN, [7]⟩).publish 1
    (ascii "orders") ⟨BJM_ENTRY_PLAIN, [8]⟩).store
  push := ((Pusher.blank 0).notify (ascii "orders")).setTransport
  sub := (Pusher.blank 0).psubNew (ascii "billing")
    ⟨ascii "orders", ascii "http://billing/", [], ascii "workers", 0, 2⟩

def twoLeased : Scan := (twoWaiting.startDelivery .silent 2 fun _ => true).2

def firstOnly : Worker := ⟨[], fun _ index _ _ => index = 1⟩

theorem firstOnly_settles :
    let jobs : List Job := [⟨1, 1, 30002, 1, [7]⟩, ⟨2, 1, 30002, 1, [8]⟩]
    let b : App := ⟨twoLeased.store, { twoLeased.push with subs := [twoLeased.sub] }⟩
    let r := (hJob firstOnly none none (some (takeRecord jobs))).told
    b.jobCalls twoLeased.sub.id r = JobCall.settling (ascii "orders") (ascii "workers")
      (firstOnly.finishes none none jobs) [1, 2] := by
  intro jobs b r
  have hstarted : (twoWaiting.startDelivery .silent 2 fun _ => true).1 = true := by decide +kernel
  have hbody : twoLeased.sub.body = .lease jobs := by decide +kernel
  have hfresh : twoLeased.sub.ackHint = none ∧ twoLeased.sub.doneList = none := by decide +kernel
  have hstart : twoWaiting.startDelivery .silent 2 (fun _ => true) = (true, twoLeased) :=
    Prod.ext hstarted rfl
  obtain ⟨c, name, t, -, hcfg, hmatch, -, -, hleased, hsettles⟩ :=
    worker_verdict_settles_iff hstart (by decide)
  have hjobs : t.jobs = jobs := Body.lease.inj (hleased.symm.trans hbody)
  obtain rfl : ascii "orders" = name := by
    have hplain : bjmPatternIs twoWaiting.sub.cfg.pattern = false := by decide
    have hname : twoWaiting.sub.cfg.pattern = name := by
      simpa [Psub.isMatch, hcfg, hplain] using hmatch
    exact hname
  rw [hjobs] at hsettles
  have hall := (hsettles b twoLeased.sub (List.nodup_singleton _) List.mem_cons_self
    ⟨rfl, rfl, rfl, rfl, rfl, hfresh.1, hfresh.2⟩ (by decide +kernel) (by decide +kernel) 3 r 3).2.2
  exact ((hall (by decide) (by decide) (by decide)).1 firstOnly none none
    (HttpReply.conveys_told _)).mpr fun _ => rfl

/-- Sixteen subjects, all the table of names has room for, and two messages in `orders`. -/
def sixteenKnown : App :=
  ((List.range 15).map (fun i => [(0x61 : UInt8) + i.toUInt8]) ++
    [ascii "orders", ascii "orders"]).foldl
      (fun b s => b.publish 1 s ⟨BJM_ENTRY_PLAIN, [7]⟩) (App.start .empty [] 0)

/-- Jobs of `orders` are tried once, and the first has been. -/
def attemptedOnce : Scan where
  store := match sixteenKnown.store.bjmQueueConfig (ascii "orders") (ascii "workers") 10 1 0 0 with
    | .error _ => sixteenKnown.store
    | .ok st => match st.bjmTake .silent 1 (ascii "orders") (ascii "workers") 1 UINT64_MAX with
      | .error _ => st
      | .ok t => t.store
  push := sixteenKnown.push.setTransport
  sub := (Pusher.blank 0).psubNew (ascii "billing")
    ⟨ascii "orders", ascii "http://billing/", [], ascii "workers", 0, 1⟩

def strayByte : Vendor := { Vendor.silent with stale := fun _ _ => [0xA0] }

def buriedFirst : Scan := (attemptedOnce.startDelivery strayByte 20 fun _ => true).2

/-- The worker finishes its job, and the broker finishes one of a subject there never was: the job
stays leased. -/
theorem buriedFirst_stays :
    let jobs : List Job := [⟨2, 1, 30, 1, [7]⟩]
    let b : App := ⟨buriedFirst.store, { buriedFirst.push with subs := [buriedFirst.sub] }⟩
    let W : Worker := ⟨[], fun _ _ _ _ => true⟩
    let r := (hJob W none none (some (takeRecord jobs))).told
    (attemptedOnce.startDelivery strayByte 20 fun _ => true).1 = true ∧
      buriedFirst.sub.body = .lease jobs ∧
      b.jobCalls buriedFirst.sub.id r = [⟨true, [0xA0], ascii "workers", 2⟩] ∧
      JobCall.settling (ascii "orders") (ascii "workers") (W.finishes none none jobs) [2] =
        [⟨true, ascii "orders", ascii "workers", 2⟩] ∧
      (b.delivered 21 buriedFirst.sub.id r 21).store.queues[pairKey (ascii "orders")
        (ascii "workers")]? = b.store.queues[pairKey (ascii "orders") (ascii "workers")]? ∧
      ((b.store.queueLoad (ascii "orders") (ascii "workers")).map fun q => q.1.fl.rows.map (·.index)) =
        .ok [2] := by
  decide +kernel

end SukkalMsg
