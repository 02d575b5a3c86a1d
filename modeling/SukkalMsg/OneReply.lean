import SukkalMsg.AnsweredRequests

/-!
# One reply to a request

A request may be handed to any number of repliers, again and again, and each publishes what
its own run of the command has printed. The id made of the correlation lets one of these
replies into the log, whichever comes first, and a replier that is told of a success can
rely on there being one.
-/

namespace SukkalMsg

open Std Names Binjson ActionRuns Store Renderer

variable {V : Vendor} {decode : Decoder}

/-! ### A client's attempts as a run -/

/-- The requests the broker serves in the course of a client's attempts. -/
def servedOps (retryMs : ℕ) (req : Request) : List Attempt → List BrokerOp
  | [] => []
  | t :: ts =>
    (if t.served then [.request t.now req] else []) ++
      if t.code ≠ .ok ∧ (t.code.neverArrived || t.code.brokeMidway) = true ∧ 0 < retryMs then
        servedOps retryMs req ts
      else []

/-- The client leaves the broker as these requests do, and has heard the answer of one of them
if it has heard any. -/
theorem clientPerform_run (V : Vendor) (retryMs : ℕ) (req : Request) {ts : List Attempt}
    (hts : ∀ t ∈ ts, t.Possible) (st : Store) :
    let performed := clientPerform retryMs (fun now st =>
      ((st.hPublish V now req).1.status, (st.hPublish V now req).2)) ts st
    performed.2 = (run (brokerExec V) st (servedOps retryMs req ts)).2 ∧
      ∀ status, performed.1 = some status →
        ∃ x ∈ (run (brokerExec V) st (servedOps retryMs req ts)).1,
          x.req = req ∧ x.answer.status = status := by
  induction ts generalizing st with
  | nil => exact ⟨rfl, fun status h => by simp [clientPerform, clientPerformEx] at h⟩
  | cons t ts ih =>
    have hposs := hts t List.mem_cons_self
    have hrest := ih fun t ht => hts t (List.mem_cons_of_mem _ ht)
    have hleaves : t.leaves (fun now st => ((st.hPublish V now req).1.status,
        (st.hPublish V now req).2)) st =
          (run (brokerExec V) st (if t.served then [.request t.now req] else [])).2 := by
      rw [Attempt.leaves]
      cases t.served <;> rfl
    simp only [clientPerform, clientPerformEx, Bool.true_and] at hrest ⊢
    rw [servedOps, run_append]
    by_cases hok : t.code = .ok
    · have hserved := hposs.answered hok
      have hnone : ¬ (t.code ≠ .ok ∧ (t.code.neverArrived || t.code.brokeMidway) = true ∧
          0 < retryMs) := fun h => h.1 hok
      simp only [hok, if_true, hleaves, hserved, ne_eq, not_true_eq_false, false_and, if_false,
        run_nil, List.append_nil]
      refine ⟨trivial, fun status hstatus => ⟨_, List.mem_singleton_self _, rfl, ?_⟩⟩
      exact Option.some.inj hstatus
    · by_cases hagain : (t.code.neverArrived || t.code.brokeMidway) = true ∧ 0 < retryMs
      · have hcond : ((t.code.neverArrived || t.code.brokeMidway) &&
            decide (0 < retryMs)) = true := by
          rw [hagain.1, decide_eq_true hagain.2]
          rfl
        obtain ⟨hstore, hheard⟩ := hrest (run (brokerExec V) st
          (if t.served then [.request t.now req] else [])).2
        have hmore : (if t.code ≠ .ok ∧ (t.code.neverArrived || t.code.brokeMidway) = true ∧
            0 < retryMs then servedOps retryMs req ts else []) = servedOps retryMs req ts :=
          if_pos ⟨hok, hagain⟩
        rw [if_neg hok, if_pos hcond, hmore, hleaves]
        refine ⟨hstore, fun status hstatus => ?_⟩
        obtain ⟨x, hx, hreq⟩ := hheard status hstatus
        exact ⟨x, List.mem_append_right _ hx, hreq⟩
      · have hcond : ¬ ((t.code.neverArrived || t.code.brokeMidway) &&
            decide (0 < retryMs)) = true := by
          simpa using hagain
        have hmore : (if t.code ≠ .ok ∧ (t.code.neverArrived || t.code.brokeMidway) = true ∧
            0 < retryMs then servedOps retryMs req ts else []) = [] :=
          if_neg fun h => hagain h.2
        rw [if_neg hok, if_neg hcond, hmore, hleaves]
        exact ⟨rfl, fun status h => by simp at h⟩

def Replier.ops (R : Replier) (attempts : List Attempt) (replyTo correlation out : Bytes) :
    List BrokerOp :=
  servedOps R.retryMs (R.request replyTo correlation out) attempts

/-! ### What is in the log -/

def Store.answersIn (V : Vendor) (decode : Decoder) (want : Bytes) (st : Store) (s : Bytes) :
    List Bytes :=
  (st.logOf s).entries.filterMap (Entry.answer V decode want)

def replyId (correlation : Bytes) : Bytes := ascii "reply." ++ correlation

def Request.Unacked (req : Request) : Prop := req.queryU64 (ascii "ack_index") 0 = 0

/-- How a publish under an id ends that asks for no acknowledgement: it fails, it is a duplicate,
or it is appended. -/
inductive Keyed (p : Publication) (st : Store) (a : Answer) (st' : Store) : Prop where
  | failed (status : a.status ≠ 200) (none : ∀ s n acked dup, a ≠ .published s n acked dup)
    (same : st'.logs = st.logs)
  | duplicate (n : ℕ) (answer : a = .published p.subject n none (some true))
    (same : st'.logs = st.logs)
  | fresh (n : ℕ) (answer : a = .published p.subject n none (some false))
    (appended : st'.logs = st.logs.insert p.subject ((st.logOf p.subject).append p.entry))

theorem hPublish_keyed (st : Store) (now : ℕ) {req : Request} {p : Publication} {id : Bytes}
    (hp : publication V req = .ok p) (hid : p.id = some id) (hack : req.Unacked) :
    Keyed p st (st.hPublish V now req).1 (st.hPublish V now req).2 := by
  have hvalid := (publication_valid hp).1
  have hlookup := (bjmDedupLookup_dedupOnly st now p.subject id).logs_eq
  have hnoack : ∀ st : Store, st.publishAck req = (.ok none, st) := fun st => by
    simp only [publishAck, show req.queryU64 (ascii "ack_index") 0 = 0 from hack, if_true]
  simp only [hPublish, hp]
  cases ho : st.publishOnce now p with
  | mk r st₁ =>
    have honce := ho
    simp only [publishOnce, hid] at honce
    split at honce
    · rename_i e st₂ hl
      obtain ⟨rfl, rfl⟩ := Prod.mk.inj honce
      rw [hl] at hlookup
      exact .failed (statusFor_ne_ok e) (fun _ _ _ _ => by simp) hlookup
    · rename_i n st₂ hl
      obtain ⟨rfl, rfl⟩ := Prod.mk.inj honce
      rw [hl] at hlookup
      dsimp only
      rw [hnoack]
      dsimp only
      exact .duplicate n (by rw [hid]; rfl) hlookup
    · rename_i st₂ hl
      rw [hl] at hlookup
      have hlog : st₂.logOf p.subject = st.logOf p.subject := by
        simp only at hlookup
        simp only [logOf, hlookup]
      have happ := publishFresh_appends st₂ now hvalid
      obtain ⟨-, -, htold, -⟩ := publishFresh_eq st₂ now hvalid
      rw [honce] at happ htold
      obtain rfl : r = .ok ((st₂.logOf p.subject).last + 1, false) := htold
      dsimp only at happ ⊢
      rw [hnoack]
      dsimp only
      refine .fresh _ (by rw [hid]; rfl) ?_
      rw [happ, hlog, hlookup]

theorem answersIn_same {st st' : Store} (h : st'.logs = st.logs) (want s : Bytes) :
    st'.answersIn V decode want s = st.answersIn V decode want s := by
  simp only [answersIn, logOf, h]

theorem answersIn_appended {st st' : Store} {t : Bytes} {e : Entry}
    (h : st'.logs = st.logs.insert t ((st.logOf t).append e)) (want s : Bytes) :
    st'.answersIn V decode want s = st.answersIn V decode want s ++
      if t = s then (e.answer V decode want).toList else [] := by
  rw [answersIn, logOf_insert h]
  split
  · rename_i heq
    rw [← heq]
    cases hans : e.answer V decode want <;> simp [answersIn, Elog.append, hans]
  · rw [List.append_nil]
    rfl

/-! ### The run -/

section

variable {replyTo want : Bytes} {window : ℕ}

def UnderReplyId (V : Vendor) (replyTo want : Bytes) (req : Request) : Prop :=
  requestKey V req = some (replyTo, replyId want)

/-- What may happen: the clock runs forward, on the reply subject a message carries the
correlation exactly where it is published under its id, without an acknowledgement, and what is
published so comes within a window. -/
structure BrokerOp.Replying (V : Vendor) (decode : Decoder) (replyTo want : Bytes) (window : ℕ)
    (h : List Exchange) (st : Store) (op : BrokerOp) : Prop where
  ordered : op.InOrder V h st
  own : ∀ now req p, op = .request now req → publication V req = .ok p → p.subject = replyTo →
    ((p.entry.answer V decode want).isSome = true ↔ p.id = some (replyId want))
  unacked : ∀ now req, op = .request now req → UnderReplyId V replyTo want req → req.Unacked
  prompt : ∀ now req, op = .request now req → UnderReplyId V replyTo want req →
    ∀ x ∈ h, UnderReplyId V replyTo want x.req → now ≤ x.now + window

/-- Either there is no reply yet, and nobody has been told of one, or there is one, which was
published under its id, and its publisher was told where it is. -/
inductive Replied (V : Vendor) (decode : Decoder) (replyTo want : Bytes) (h : List Exchange)
    (st : Store) : Prop where
  | waiting (none : st.answersIn V decode want replyTo = [])
    (untold : ∀ x ∈ h, UnderReplyId V replyTo want x.req →
      x.answer.status ≠ 200 ∧ ∀ n, ¬ x.Appended replyTo n)
  | answered (msg : Bytes) (one : st.answersIn V decode want replyTo = [msg]) (x : Exchange)
    (mem : x ∈ h) (key : UnderReplyId V replyTo want x.req)
    (told : ∃ n acked dup, x.answer = .published replyTo n acked dup)
    (sent : ∃ p, publication V x.req = .ok p ∧ p.entry.answer V decode want = some msg)

theorem underReplyId_of_publication {req : Request} {p : Publication}
    (hp : publication V req = .ok p) :
    UnderReplyId V replyTo want req ↔ p.subject = replyTo ∧ p.id = some (replyId want) := by
  simp [UnderReplyId, requestKey, hp, and_comm]

theorem Exchange.not_appended {x : Exchange} (h : x.after.logs = x.before.logs) (s : Bytes)
    (n : ℕ) :
    ¬ x.Appended s n := by
  rintro ⟨-, e, he⟩
  have hlog : x.after.logOf s = x.before.logOf s := by simp only [logOf, h]
  have hlen := congrArg (fun log => log.entries.length) (hlog.symm.trans he)
  simp [Elog.append] at hlen

theorem Replied.step {h : List Exchange} {st : Store} {op : BrokerOp}
    (hg : op.Replying V decode replyTo want window h st) (hi : PublishInv V window h st)
    (hr : Replied V decode replyTo want h st) :
    Replied V decode replyTo want (h ++ (brokerExec V st op).1) (brokerExec V st op).2 := by
  cases op with
  | restart =>
    rw [brokerExec, List.append_nil]
    cases hr with
    | waiting hnone huntold => exact .waiting hnone huntold
    | answered msg hone x hx hkey htold hsent => exact .answered msg hone x hx hkey htold hsent
  | request now req =>
    have hnext := hi.step hg.ordered
    simp only [brokerExec] at hnext ⊢
    set y : Exchange := ⟨now, req, (st.hPublish V now req).1, st, (st.hPublish V now req).2⟩ with hy
    -- nothing that answers is published but under the id
    have hother : ¬ UnderReplyId V replyTo want req →
        (st.hPublish V now req).2.answersIn V decode want replyTo =
          st.answersIn V decode want replyTo := by
      intro hkey
      rcases hPublish_logs V st now req with hlogs | ⟨p, hp, hlogs⟩
      · exact answersIn_same hlogs want replyTo
      · rw [answersIn_appended hlogs]
        split
        · rename_i hs
          have hown := hg.own now req p rfl hp hs
          rw [underReplyId_of_publication hp] at hkey
          have hnone : p.entry.answer V decode want = none := by
            cases hans : p.entry.answer V decode want with
            | none => rfl
            | some msg => exact absurd ⟨hs, hown.mp (by rw [hans]; rfl)⟩ hkey
          rw [hnone, Option.toList_none, List.append_nil]
        · exact List.append_nil _
    by_cases hkey : UnderReplyId V replyTo want req
    · obtain ⟨p, hp, hs, hid, -, -⟩ := requestKey_eq_some hkey
      have hkeyed := hPublish_keyed st now hp hid (hg.unacked now req rfl hkey)
      cases hr with
      | answered msg hone x hx hxkey htold hsent =>
        -- the reply that is there already is the answer to this one too
        obtain ⟨n, acked, dup, hans⟩ := htold
        have hcollapse := (hnext.collapses h y [] (by simp)) x hx replyTo (replyId want) n acked dup
          hxkey hans hkey (hg.prompt now req rfl hkey x hx hxkey)
        refine .answered msg ((answersIn_same hcollapse.1 want replyTo).trans hone) x
          (List.mem_append_left _ hx) hxkey ⟨n, acked, dup, hans⟩ hsent
      | waiting hnone huntold =>
        cases hkeyed with
        | failed hstatus hunpublished hsame =>
          refine .waiting ((answersIn_same hsame want replyTo).trans hnone) fun x hx hxkey => ?_
          rcases List.mem_append.mp hx with hx | hx
          · exact huntold x hx hxkey
          · obtain rfl := List.mem_singleton.mp hx
            exact ⟨hstatus, fun n => Exchange.not_appended hsame replyTo n⟩
        | duplicate n hans hsame =>
          rw [hs] at hans
          obtain ⟨i, hik, x, hx, hxkey, happ⟩ := hnext.own h y [] (by simp) replyTo n none hans
          obtain ⟨-, rfl⟩ := Prod.mk.inj (Option.some.inj (hkey.symm.trans hik))
          exact absurd happ ((huntold x hx hxkey).2 n)
        | fresh n hans happended =>
          rw [hs] at hans
          have hown := (hg.own now req p rfl hp hs).mpr hid
          obtain ⟨msg, hmsg⟩ := Option.isSome_iff_exists.mp hown
          refine .answered msg ?_ y (List.mem_append_right _ (List.mem_singleton_self _)) hkey
            ⟨n, none, some false, hans⟩ ⟨p, hp, hmsg⟩
          rw [answersIn_appended happended, hnone, if_pos hs, hmsg]
          rfl
    · have hsame := hother hkey
      cases hr with
      | waiting hnone huntold =>
        refine .waiting (hsame.trans hnone) fun x hx hxkey => ?_
        rcases List.mem_append.mp hx with hx | hx
        · exact huntold x hx hxkey
        · obtain rfl := List.mem_singleton.mp hx
          exact absurd hxkey hkey
      | answered msg hone x hx hxkey htold hsent =>
        exact .answered msg (hsame.trans hone) x (List.mem_append_left _ hx) hxkey htold hsent

/-- What is true of every state of the run. -/
structure Replying (V : Vendor) (decode : Decoder) (replyTo want : Bytes) (window : ℕ)
    (h : List Exchange) (st : Store) : Prop where
  published : PublishInv V window h st
  replied : Replied V decode replyTo want h st

theorem replying_run {st : Store} {ops : List BrokerOp} (hf : DedupFresh st)
    (hnone : st.answersIn V decode want replyTo = [])
    (hrun : Along (brokerExec V) (fun h st' op =>
      op.Replying V decode replyTo want st.bjmDedupWindow h st') [] st ops) :
    Replying V decode replyTo want st.bjmDedupWindow (run (brokerExec V) st ops).1
      (run (brokerExec V) st ops).2 := by
  have hstart : Replying V decode replyTo want st.bjmDedupWindow [] st :=
    ⟨⟨rfl, .inl ⟨hf, by simp⟩, each_nil, each_nil⟩, .waiting hnone (by simp)⟩
  have hinv := invariant hstart hrun fun h st' op hg hi =>
    ⟨hi.published.step hg.ordered, hi.replied.step hg hi.published⟩
  rwa [List.nil_append] at hinv

theorem Replied.length_le {h : List Exchange} {st : Store}
    (hr : Replied V decode replyTo want h st) :
    (st.answersIn V decode want replyTo).length ≤ 1 := by
  cases hr with
  | waiting hnone huntold => rw [hnone]; exact Nat.zero_le 1
  | answered msg hone x hx hkey htold hsent => rw [hone]; exact Nat.le_refl 1

theorem findSome?_answer {st : Store} {es : List Entry}
    (hes : ∀ e ∈ es, e ∈ (st.logOf replyTo).entries)
    (hone : (st.answersIn V decode want replyTo).length ≤ 1) {msg : Bytes}
    (hfind : es.findSome? (Entry.answer V decode want) = some msg) :
    st.answersIn V decode want replyTo = [msg] := by
  obtain ⟨e, he, hans⟩ := List.exists_of_findSome?_eq_some hfind
  have hmem : msg ∈ st.answersIn V decode want replyTo :=
    List.mem_filterMap.mpr ⟨e, hes e he, hans⟩
  match hlist : st.answersIn V decode want replyTo, hmem, hone with
  | [m], hm, _ => rw [List.mem_singleton.mp hm]

end

/-- A request in the state a run has come to: there is one reply to it at most, each was published
under its id, one is there once a replier has been told so, and whatever the requester is handed
of the log it prints that one reply, or nothing. -/
structure CliRequest.AnsweredOnce (V : Vendor) (decode : Decoder) (q : CliRequest) (st : Store)
    (ops : List BrokerOp) : Prop where
  once : ((run (brokerExec V) st ops).2.answersIn V decode q.correlation q.replyTo).length ≤ 1
  sent : ∀ msg ∈ (run (brokerExec V) st ops).2.answersIn V decode q.correlation q.replyTo,
    ∃ x ∈ (run (brokerExec V) st ops).1, ∃ p, publication V x.req = .ok p ∧
      p.subject = q.replyTo ∧ p.id = some (replyId q.correlation) ∧
        p.entry.answer V decode q.correlation = some msg
  told : ∀ (G : UInt64 → Bytes) (R : Replier) (out : Bytes) (attempts : List Attempt)
    (before after : List BrokerOp), q.Exchanged V G decode R out →
    (∀ t ∈ attempts, t.Possible) →
    ops = before ++ R.ops attempts q.replyTo q.correlation out ++ after →
    (R.publishReply V attempts q.replyTo q.correlation out
      (run (brokerExec V) st before).2).1 = some 200 →
    ((run (brokerExec V) st ops).2.answersIn V decode q.correlation q.replyTo).length = 1
  printed : ∀ (G : UInt64 → Bytes) (token : Bytes) (polls : List (List Handed)),
    (∀ ds ∈ polls, ∀ d ∈ ds, Readable d.record) →
    (∀ e ∈ heard token polls.flatten,
      e ∈ ((run (brokerExec V) st ops).2.logOf q.replyTo).entries) →
    let rq := awaitReply V G decode polls ⟨token, q.correlation, false, []⟩
    let one := ((run (brokerExec V) st ops).2.answersIn V decode q.correlation q.replyTo).flatMap
      (shown G decode)
    (rq.matched = true ↔ ∃ e ∈ heard token polls.flatten,
        (e.answer V decode q.correlation).isSome = true) ∧
      rq.out = (firstAnswers V decode token q.correlation polls).flatMap (fun _ => one) ∧
      ((∀ ds ∈ polls,
          (ds.filterMap (Handed.answer V decode token q.correlation)).length ≤ 1) →
        rq.out = if rq.matched then one else [])

/-- Whoever replies, and however often, a request has one reply. -/
theorem one_reply {q : CliRequest} {st : Store} {ops : List BrokerOp} (hf : DedupFresh st)
    (hnone : st.answersIn V decode q.correlation q.replyTo = [])
    (hrun : Along (brokerExec V) (fun h st' op =>
      op.Replying V decode q.replyTo q.correlation st.bjmDedupWindow h st') [] st ops) :
    q.AnsweredOnce V decode st ops := by
  have hr := (replying_run hf hnone hrun).replied
  have honce := hr.length_le
  refine ⟨honce, ?_, ?_, ?_⟩
  · intro msg hmsg
    cases hr with
    | waiting hnone' huntold =>
      rw [hnone'] at hmsg
      contradiction
    | answered msg' hone x hx hkey htold hsent =>
      rw [hone, List.mem_singleton] at hmsg
      subst hmsg
      obtain ⟨p, hp, hans⟩ := hsent
      obtain ⟨hs, hid⟩ := (underReplyId_of_publication hp).mp hkey
      exact ⟨x, hx, p, hp, hs, hid, hans⟩
  · intro G R out attempts before after hex hts hops h200
    have hkey : UnderReplyId V q.replyTo q.correlation (R.request q.replyTo q.correlation out) :=
      (underReplyId_of_publication hex.published).mpr ⟨rfl, rfl⟩
    obtain ⟨-, hheard⟩ := clientPerform_run V R.retryMs
      (R.request q.replyTo q.correlation out) hts (run (brokerExec V) st before).2
    obtain ⟨x, hx, hreq, hstatus⟩ := hheard 200 h200
    have hmem : x ∈ (run (brokerExec V) st ops).1 := by
      rw [hops, run_append, run_append]
      exact List.mem_append_left _ (List.mem_append_right _ hx)
    cases hr with
    | waiting hnone' huntold => exact absurd hstatus (huntold x hmem (hreq ▸ hkey)).1
    | answered msg hone x' hx' hkey' htold hsent => rw [hone]; rfl
  · intro G token polls hread hes
    have hwait : awaitReply V G decode polls ⟨token, q.correlation, false, []⟩ = _ :=
      awaitReply_eq hread rfl
    have hall : ∀ msg ∈ firstAnswers V decode token q.correlation polls,
        (run (brokerExec V) st ops).2.answersIn V decode q.correlation q.replyTo = [msg] := by
      intro msg hmsg
      obtain ⟨ds, hds, d, hd, hans⟩ := mem_firstAnswers hmsg
      refine findSome?_answer (fun e he => hes e ?_) honce hans
      exact heard_subset hds hd he
    have hout : (firstAnswers V decode token q.correlation polls).flatMap (shown G decode) =
        (firstAnswers V decode token q.correlation polls).flatMap fun _ =>
          ((run (brokerExec V) st ops).2.answersIn V decode q.correlation q.replyTo).flatMap
            (shown G decode) := by
      refine List.flatMap_congr fun msg hmsg => ?_
      rw [hall msg hmsg, List.flatMap_singleton]
    rw [hwait]
    dsimp only
    refine ⟨?_, by rw [List.nil_append, hout], fun hlen => ?_⟩
    · have hfirst : (firstAnswers V decode token q.correlation polls).head? = _ :=
        head?_firstAnswers token q.correlation polls
      rw [Bool.not_eq_true', List.isEmpty_eq_false_iff, ← List.isSome_head?, hfirst,
        List.findSome?_isSome_iff]
    · have hle := firstAnswers_length_le hlen
      rw [List.nil_append, hout]
      match firstAnswers V decode token q.correlation polls, hle with
      | [], _ => rfl
      | [_], _ => simp

def shout : Bytes := ascii "HELLO WORLD\n"

/-- The publish of a reply lands and its answer is lost, so that the request is handled again. -/
def shoutTwice : List BrokerOp :=
  shouter.ops [⟨.recvError, true, 1⟩] shoutRequest.replyTo shoutRequest.correlation shout ++
    shouter.ops [⟨.ok, true, 2⟩] shoutRequest.replyTo shoutRequest.correlation shout

theorem shoutTwice_replying : Along (brokerExec shoutVendor) (fun h st op =>
    op.Replying shoutVendor shoutDecoder shoutRequest.replyTo shoutRequest.correlation
      Store.empty.bjmDedupWindow h st) [] Store.empty shoutTwice := by
  have hpub := shoutRequest_exchanged.published
  have hunacked : (shouter.request shoutRequest.replyTo shoutRequest.correlation shout).Unacked :=
    shoutRequest_valid.reply_unacked (by decide)
  have hown : ∀ now now' req p, BrokerOp.request now
      (shouter.request shoutRequest.replyTo shoutRequest.correlation shout) = .request now' req →
      publication shoutVendor req = .ok p → p.subject = shoutRequest.replyTo →
      ((p.entry.answer shoutVendor shoutDecoder shoutRequest.correlation).isSome = true ↔
        p.id = some (replyId shoutRequest.correlation)) := by
    intro now now' req p hop hp _
    obtain ⟨-, rfl⟩ := BrokerOp.request.inj hop
    obtain rfl := Except.ok.inj (hpub.symm.trans hp)
    rw [shoutRequest_exchanged.taken, if_pos rfl]
    exact iff_of_true rfl rfl
  have hfree : ∀ now now' req, BrokerOp.request now
      (shouter.request shoutRequest.replyTo shoutRequest.correlation shout) = .request now' req →
      UnderReplyId shoutVendor shoutRequest.replyTo shoutRequest.correlation req →
      req.Unacked := by
    intro now now' req hop _
    obtain ⟨-, rfl⟩ := BrokerOp.request.inj hop
    exact hunacked
  refine ⟨⟨?_, hown 1, hfree 1, ?_⟩, ⟨?_, hown 2, hfree 2, ?_⟩, trivial⟩
  · exact inOrder_of_publication hpub (by decide) (by decide) (by simp) (by decide +kernel)
  · intro now req _ _ x hx
    simp at hx
  · exact inOrder_of_publication hpub (by decide) (by decide) (by simp [brokerExec])
      (by decide +kernel)
  · intro now req hop _ x hx _
    obtain ⟨rfl, -⟩ := BrokerOp.request.inj hop
    obtain rfl := List.mem_singleton.mp hx
    decide

theorem shoutTwice_answered :
    shoutRequest.AnsweredOnce shoutVendor shoutDecoder Store.empty shoutTwice ∧
      ((run (brokerExec shoutVendor) Store.empty shoutTwice).2.answersIn shoutVendor shoutDecoder
        shoutRequest.correlation shoutRequest.replyTo).length = 1 := by
  have honce : shoutRequest.AnsweredOnce shoutVendor shoutDecoder Store.empty shoutTwice :=
    one_reply ⟨rfl, rfl, rfl, rfl, rfl⟩ (by decide +kernel) shoutTwice_replying
  refine ⟨honce, honce.told _ shouter shout [⟨.ok, true, 2⟩] _ [] shoutRequest_exchanged ?_
    (List.append_nil _).symm (by decide +kernel)⟩
  intro t ht
  obtain rfl := List.mem_singleton.mp ht
  exact ⟨fun _ => rfl, fun h => absurd h (by decide)⟩

end SukkalMsg
