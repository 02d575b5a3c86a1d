import SukkalMsg.HttpReplies
import SukkalMsg.MessageSurvival

/-!
# Workers and the jobs they finish

A worker is sent a batch of jobs, runs its handler on each, and answers which of them it
has finished: none by a 500, all by a 200, some by a list. The engine finishes those
jobs and hands back the others.
-/

namespace SukkalMsg

open Names Binjson Store

/-! ### The C worker -/

/-- `%lld`. -/
def lldText (n : ℤ) : Bytes :=
  if n < 0 then 0x2D :: decimalText n.natAbs else decimalText n.toNat

/-- `snprintf` at an offset of a buffer: the string it holds then, and the offset behind what
was printed, if all of it fits. -/
def snprintfAt (size : ℕ) (buf : Bytes) (len : ℕ) (text : Bytes) : Bytes × ℕ :=
  (buf.take len ++ text.take (size - len - 1),
    if text ≠ [] ∧ text.length < size - len then len + text.length else len)

/-- `--exec` of a worker: whether the command ends well on one job. -/
structure Worker where
  token : Bytes
  runJob : Bytes → ℤ → ℤ → Bytes → Bool

/-- A delivery as far as a worker has got with it. -/
structure JobScan where
  key : Bytes
  index : ℤ
  attempts : ℤ
  done : Bytes
  doneLen : ℕ
  ndone : ℕ
  nfailed : ℕ

def JobScan.blank : JobScan := ⟨[], 0, 0, [], 0, 0, 0⟩

/-- `sizeof w->done`. -/
def DONE_SIZE : ℕ := 16 * BJM_PUSH_JOBS_MAX

/-- `js_key`, `js_int` and `js_binary`; `have` is never up when a number comes. -/
def jsVisit (W : Worker) (subject : Bytes) (sc : JobScan) : Item → JobScan
  | .key k => { sc with key := keyBuf 16 k }
  | .int v =>
    if sc.key = ascii "index" then { sc with index := v }
    else if sc.key = ascii "attempts" then { sc with attempts := v }
    else sc
  | .binary payload =>
    if sc.key ≠ ascii "payload" then sc
    else if W.runJob subject sc.index sc.attempts payload then
      let printed := snprintfAt DONE_SIZE sc.done sc.doneLen
        ((if sc.doneLen ≠ 0 then [0x2C] else []) ++ lldText sc.index)
      { sc with ndone := sc.ndone + 1, done := printed.1, doneLen := printed.2 }
    else { sc with nfailed := sc.nfailed + 1 }
  | _ => sc

def textReply (status : ℕ) (body : String) : HttpReply := ⟨status, [contentText], ascii body⟩

def authorised (token : Bytes) (auth : Option Bytes) : Bool :=
  token = [] ∨ auth = some (cut (BJM_TOKEN_MAX + 16) (ascii "Bearer " ++ token))

def hJob (W : Worker) (auth subject : Option Bytes) (body : Option Record) : HttpReply :=
  if !authorised W.token auth then textReply 401 "bad or missing bearer token\n"
  else match body with
    | none => textReply 400 "empty delivery\n"
    | some r => match bjDecode (jsVisit W (subject.getD [])) r .blank with
      | .error _ => textReply 400 "malformed delivery\n"
      | .ok sc =>
        if sc.ndone = 0 then textReply 500 "handler failed\n"
        else ⟨200, (if sc.nfailed ≠ 0 then [(ascii "X-Sukkal-Done", sc.done)] else []) ++
          [contentText], []⟩

/-! ### The Python worker -/

namespace PyProtocol

variable {D : Type}

def Delivery.index : Delivery D → ℤ
  | .message m => m.index
  | .job j => j.index

/-- `Client._handle_jobs`; the handler returns, or raises. -/
def handleJobs (P : PyBinjson.PyRuntime D) (C : PyConversions D) (body : Bytes)
    (info : DeliveryInfo) (handler : Delivery D → Bool) : HttpReply :=
  match parseDelivery P C body info true with
  | .error _ => textReply 400 "malformed delivery\n"
  | .ok jobs =>
    let done := (jobs.filter handler).map Delivery.index
    if done = [] then textReply 500 "handler failed\n"
    else ⟨200, contentText :: (if done.length < jobs.length then
      [(ascii "X-Sukkal-Done", [0x2C].intercalate (done.map lldText))] else []), []⟩

end PyProtocol

/-! ### What an answer says of a batch -/

/-- The answer says that of these jobs those are finished. -/
structure Reporting (js : List ℕ) (done : ℕ → Bool) (h : HttpReply) : Prop where
  nothing : js.filter done = [] → ¬ (200 ≤ h.status ∧ h.status < 300)
  something : js.filter done ≠ [] → h.status = 200
  heard : js.filter done ≠ [] → ∀ s : Psub, s.doneList = none →
    ((h.headers.map headerLine).foldl Psub.onHdr s).doneList = some (js.filter done) ∨
      ((h.headers.map headerLine).foldl Psub.onHdr s).doneList = none ∧ js.filter done = js

theorem Reporting.finished {js : List ℕ} {done : ℕ → Bool} {h : HttpReply} {r : Reply} {s : Psub}
    (hrep : Reporting js done h) (hr : Conveys h r) (hs : s.doneList = none) {j : ℕ} (hj : j ∈ js) :
    ({ s.hear r with inflight := false } : Psub).finished r.ok j = done j := by
  have hok : r.ok = decide (200 ≤ h.status ∧ h.status < 300) := by
    simp only [Reply.ok, hr.reached, hr.status, Bool.true_and, Bool.decide_and]
  by_cases hnone : js.filter done = []
  · have hfail : r.ok = false := by
      rw [hok]
      exact decide_eq_false (hrep.nothing hnone)
    have hnot : done j = false := by
      have := List.filter_eq_nil_iff.mp hnone j hj
      simpa using this
    simp only [Psub.finished, hfail, hnot, Bool.false_and]
  · have hgood : r.ok = true := by
      rw [hok, hrep.something hnone]
      rfl
    have hlist := (Psub.hear_conveyed hr s).2
    rcases hrep.heard hnone s hs with hsome | ⟨hall, hfull⟩
    · rw [hsome] at hlist
      simp only [Psub.finished, hgood, hlist, Bool.true_and]
      simp [hj]
    · rw [hall] at hlist
      simp only [Psub.finished, hgood, hlist, Bool.true_and]
      exact (List.filter_eq_self.mp hfull j hj).symm

/-- A call of `finish_jobs`: `bjm_done`, or `bjm_fail` with the group's own backoff. -/
structure JobCall where
  finish : Bool
  subject : Bytes
  group : Bytes
  index : ℕ
deriving DecidableEq

namespace JobCall

/-- What the store is after the call; its errors are not reported. -/
def make (clock : ℕ) (st : Store) (c : JobCall) : Store :=
  let r := if c.finish then st.bjmDone clock c.subject c.group c.index
    else st.bjmFail clock c.subject c.group c.index UINT64_MAX
  match r with
  | .error _ => st
  | .ok r => r.store

def settling (name group : Bytes) (done : ℕ → Bool) (jobs : List ℕ) : List JobCall :=
  jobs.map fun j => ⟨done j, name, group, j⟩

end JobCall

/-- The calls of `finish_jobs` on a reply. -/
def Psub.jobCalls (s : Psub) (r : Reply) : List JobCall :=
  if r.reached then JobCall.settling s.subject s.cfg.group (s.finished r.ok) s.jobs else []

def App.jobCalls (b : App) (id : ℕ) (r : Reply) : List JobCall :=
  match b.push.subs.find? (·.id == id) with
  | none => []
  | some s =>
    if s.gone ∨ s.cfg.group = [] then [] else ({ s.hear r with inflight := false }).jobCalls r

/-- A worker's delivery is outstanding, under the registration it was sent for. -/
structure Psub.AwaitsJobs (s : Psub) (jobs : List Job) : Prop where
  here : s.gone = false
  group : s.cfg.group ≠ []
  indexes : s.jobs = jobs.map (·.index)
  unlisted : s.doneList = none

theorem delivered_settles {b : App} {s : Psub} (hids : (b.push.subs.map (·.id)).Nodup)
    (hs : s ∈ b.push.subs) (hg : s.gone = false) (clock : ℕ) (r : Reply) (now : ℕ) :
    ∃ pre suf t x, b.push.subs = pre ++ s :: suf ∧
      t = ({ s.hear r with inflight := false } : Psub) ∧ x = t.settle clock b.store r now ∧
      b.delivered clock s.id r now = ⟨x.store, { b.push with
        subs := pre ++ x.sub :: suf
        inflight := b.push.inflight - 1
        work := x.work || b.push.work }⟩ := by
  rcases b.delivered_cases clock s.id r now with ⟨-, hnone⟩ | ⟨pre, t, suf, hsubs, hid, hcases⟩
  · exact absurd rfl (hnone s hs)
  · have ht : t ∈ b.push.subs := by simp [hsubs]
    obtain rfl := List.inj_on_of_nodup_map hids ht hs hid
    rcases hcases with ⟨hgone, -⟩ | ⟨-, x, hx, heq⟩
    · rw [hg] at hgone
      contradiction
    · exact ⟨pre, suf, _, x, hsubs, rfl, hx, heq⟩

theorem jobCalls_eq {b : App} {s : Psub} (hids : (b.push.subs.map (·.id)).Nodup)
    (hs : s ∈ b.push.subs) (hlive : s.gone = false) (hg : s.cfg.group ≠ []) (r : Reply) :
    b.jobCalls s.id r = ({ s.hear r with inflight := false } : Psub).jobCalls r := by
  have hfind : b.push.subs.find? (·.id == s.id) = some s := by
    cases hf : b.push.subs.find? (·.id == s.id) with
    | none => exact absurd (List.find?_eq_none.mp hf s hs) (by simp)
    | some t =>
      have hid : t.id = s.id := by simpa using List.find?_some hf
      rw [List.inj_on_of_nodup_map hids (List.mem_of_find?_eq_some hf) hs hid]
  simp [App.jobCalls, hfind, hlive, hg]

theorem delivered_jobCalls {b : App} {s : Psub} (hids : (b.push.subs.map (·.id)).Nodup)
    (hs : s ∈ b.push.subs) (hlive : s.gone = false) (hg : s.cfg.group ≠ []) (clock : ℕ) (r : Reply)
    (now : ℕ) : (b.delivered clock s.id r now).store =
      (b.jobCalls s.id r).foldl (JobCall.make clock) b.store := by
  obtain ⟨pre, suf, t, x, -, ht, hx, heq⟩ := delivered_settles hids hs hlive clock r now
  have hgroup : t.cfg.group ≠ [] := by
    rw [ht, Psub.hear_same s r]
    exact hg
  rw [heq, hx, jobCalls_eq hids hs hlive hg, ← ht]
  simp only [Psub.settle, hgroup, ne_eq, not_false_eq_true, if_true, Psub.finishJobs_store,
    Psub.jobCalls]
  split
  · rw [JobCall.settling, List.foldl_map]
    rfl
  · rfl

theorem Reporting.calls {b : App} {s : Psub} {jobs : List Job} {done : ℕ → Bool} {h : HttpReply}
    {r : Reply} (hids : (b.push.subs.map (·.id)).Nodup) (hs : s ∈ b.push.subs)
    (ha : s.AwaitsJobs jobs) (hrep : Reporting (jobs.map (·.index)) done h) (hr : Conveys h r) :
    b.jobCalls s.id r =
      JobCall.settling s.subject s.cfg.group done (jobs.map (·.index)) := by
  have hfin : ∀ j ∈ jobs.map (·.index),
      ({ s.hear r with inflight := false } : Psub).finished r.ok j = done j :=
    fun j => hrep.finished hr ha.unlisted
  rw [jobCalls_eq hids hs ha.here ha.group, Psub.jobCalls, if_pos hr.reached]
  have hsame : ({ s.hear r with inflight := false } : Psub).cfg = s.cfg ∧
      ({ s.hear r with inflight := false } : Psub).subject = s.subject ∧
      ({ s.hear r with inflight := false } : Psub).jobs = s.jobs := by
    rw [Psub.hear_same s r]
    exact ⟨rfl, rfl, rfl⟩
  rw [hsame.1, hsame.2.1, hsame.2.2, ha.indexes]
  exact List.map_congr_left fun j hj => by rw [hfin j hj]

/-! ### What the C worker answers -/

theorem toInt64_small {n : ℕ} (h : n < 10 ^ 15) : toInt64 n = n := by
  have hword : n < 2 ^ 64 := by omega
  rw [toInt64, u64_of_lt hword, if_pos (by omega)]

theorem lldText_natCast (n : ℕ) : lldText n = decimalText n := by
  have hsign : ¬ (n : ℤ) < 0 := by omega
  rw [lldText, if_neg hsign, Int.toNat_natCast]

theorem length_decimalText {n k : ℕ} (hk : 0 < k) (h : n < 10 ^ k) :
    (decimalText n).length ≤ k := by
  rw [decimalText, List.length_map]
  exact (Nat.length_toDigits_le_iff (by decide) hk).mpr h

theorem commaList_cons_cons (m k : ℕ) (ns : List ℕ) :
    commaList (m :: k :: ns) = decimalText m ++ (0x2C :: commaList (k :: ns)) := by
  simp [commaList]

theorem commaList_ne_nil (m : ℕ) (ns : List ℕ) : commaList (m :: ns) ≠ [] := by
  cases ns with
  | nil => simp [commaList, decimalText_ne_nil]
  | cons k ns => simp [commaList_cons_cons]

theorem commaList_concat (ns : List ℕ) (n : ℕ) :
    commaList (ns ++ [n]) =
      commaList ns ++ ((if (commaList ns).length ≠ 0 then [0x2C] else []) ++ decimalText n) := by
  induction ns with
  | nil => simp [commaList]
  | cons m ns ih =>
    have hsome (k : ℕ) (l : List ℕ) : (commaList (k :: l)).length ≠ 0 :=
      fun h => commaList_ne_nil k l (List.length_eq_zero_iff.mp h)
    rw [if_pos (hsome m ns)]
    cases ns with
    | nil => simp [commaList]
    | cons k ns =>
      rw [if_pos (hsome k ns)] at ih
      rw [List.cons_append, List.cons_append, commaList_cons_cons, commaList_cons_cons,
        ← List.cons_append, ih]
      simp

theorem snprintfAt_fits {size : ℕ} {buf text : Bytes} (hsome : text ≠ [])
    (hfits : text.length < size - buf.length) :
    snprintfAt size buf buf.length text = (buf ++ text, (buf ++ text).length) := by
  rw [snprintfAt, List.take_length, List.take_of_length_le (by omega), if_pos ⟨hsome, hfits⟩,
    List.length_append]

theorem length_commaList {ns : List ℕ} (h : ∀ n ∈ ns, n < 10 ^ 15) :
    (commaList ns).length ≤ 16 * ns.length - 1 := by
  induction ns with
  | nil => simp [commaList]
  | cons n ns ih =>
    have hn := length_decimalText (by decide) (h n List.mem_cons_self)
    have hrest := ih fun k hk => h k (List.mem_cons_of_mem _ hk)
    cases ns with
    | nil => simpa [commaList] using hn
    | cons m ns =>
      rw [commaList_cons_cons]
      simp only [List.length_append, List.length_cons] at hrest ⊢
      omega

/-- What the worker knows of the jobs it has run. -/
structure JobScan.Ran (sc : JobScan) (ns : List ℕ) (failed : ℕ) : Prop where
  done : sc.done = commaList ns
  doneLen : sc.doneLen = (commaList ns).length
  ndone : sc.ndone = ns.length
  nfailed : sc.nfailed = failed

def Worker.succeeds (W : Worker) (subject : Bytes) (j : Job) : Bool :=
  W.runJob subject (toInt64 j.index) (toInt64 j.attempts) j.payload

theorem foldl_jsVisit (W : Worker) (subject : Bytes) (sc : JobScan) (j : Job) :
    (jobRecord j).foldl (jsVisit W subject) sc =
      jsVisit W subject { sc with
        key := ascii "payload", index := toInt64 j.index, attempts := toInt64 j.attempts }
        (.binary j.payload) := by
  have hkeys : ascii "attempts" ≠ ascii "index" ∧ ascii "expires_ms" ≠ ascii "index" ∧
      ascii "expires_ms" ≠ ascii "attempts" ∧ ascii "type" ≠ ascii "index" ∧
      ascii "type" ≠ ascii "attempts" := by decide
  have hbuf : keyBuf 16 (ascii "index") = ascii "index" ∧
      keyBuf 16 (ascii "attempts") = ascii "attempts" ∧
      keyBuf 16 (ascii "expires_ms") = ascii "expires_ms" ∧
      keyBuf 16 (ascii "type") = ascii "type" ∧
      keyBuf 16 (ascii "payload") = ascii "payload" := by decide
  simp only [jobRecord, List.foldl_cons, List.foldl_nil, putInt]
  simp only [jsVisit, hbuf, hkeys, if_true, if_false]

theorem JobScan.Ran.step (W : Worker) (subject : Bytes) {sc : JobScan} {ns : List ℕ} {failed : ℕ}
    {j : Job} (h : sc.Ran ns failed) (hns : ∀ n ∈ ns, n < 10 ^ 15)
    (hroom : ns.length < BJM_PUSH_JOBS_MAX) (hj : j.index < 10 ^ 15) :
    ((jobRecord j).foldl (jsVisit W subject) sc).Ran
      (if W.succeeds subject j then ns ++ [j.index] else ns)
      (if W.succeeds subject j then failed else failed + 1) := by
  have hlist := length_commaList hns
  have hdigits := length_decimalText (by decide) hj
  have hroom' : ns.length < 64 := hroom
  have htext : ((if (commaList ns).length ≠ 0 then [0x2C] else []) ++ decimalText j.index).length ≤
      16 := by
    rw [List.length_append]
    split <;> simp only [List.length_singleton, List.length_nil] <;> omega
  have hsize : DONE_SIZE = 1024 := rfl
  rw [foldl_jsVisit]
  simp only [jsVisit, ne_eq, not_true_eq_false, if_false]
  rw [show W.runJob subject (toInt64 j.index) (toInt64 j.attempts) j.payload =
    W.succeeds subject j from rfl]
  cases W.succeeds subject j with
  | false => exact ⟨h.done, h.doneLen, h.ndone, by rw [← h.nfailed]; rfl⟩
  | true =>
    have hprinted : snprintfAt DONE_SIZE (commaList ns) (commaList ns).length
        ((if (commaList ns).length ≠ 0 then [0x2C] else []) ++ decimalText j.index) =
          (commaList (ns ++ [j.index]), (commaList (ns ++ [j.index])).length) := by
      rw [commaList_concat]
      exact snprintfAt_fits (by simp [decimalText_ne_nil]) (by omega)
    simp only [if_true, h.done, h.doneLen, toInt64_small hj, lldText_natCast]
    refine ⟨?_, ?_, ?_, h.nfailed⟩
    · exact congrArg Prod.fst hprinted
    · exact congrArg Prod.snd hprinted
    · rw [h.ndone, List.length_append, List.length_singleton]

theorem JobScan.Ran.run (W : Worker) (subject : Bytes) {jobs : List Job} {sc : JobScan}
    {ns : List ℕ} {failed : ℕ} (h : sc.Ran ns failed) (hns : ∀ n ∈ ns, n < 10 ^ 15)
    (hroom : ns.length + jobs.length ≤ BJM_PUSH_JOBS_MAX) (hj : ∀ j ∈ jobs, j.index < 10 ^ 15) :
    ((jobs.flatMap jobRecord).foldl (jsVisit W subject) sc).Ran
      (ns ++ (jobs.filter (W.succeeds subject)).map (·.index))
      (failed + (jobs.filter fun j => !W.succeeds subject j).length) := by
  induction jobs generalizing sc ns failed with
  | nil => simpa using h
  | cons j jobs ih =>
    rw [List.length_cons] at hroom
    have hfirst := hj j List.mem_cons_self
    have hrest : ∀ i ∈ jobs, i.index < 10 ^ 15 := fun i hi => hj i (List.mem_cons_of_mem _ hi)
    have hstep := h.step W subject hns (by omega) hfirst
    rw [List.flatMap_cons, List.foldl_append]
    cases hok : W.succeeds subject j with
    | true =>
      simp only [hok, if_true] at hstep
      have hall : ∀ n ∈ ns ++ [j.index], n < 10 ^ 15 := by
        intro n hn
        rcases List.mem_append.mp hn with hn | hn
        · exact hns n hn
        · rw [List.mem_singleton.mp hn]
          exact hfirst
      have hcount : (ns ++ [j.index]).length = ns.length + 1 := List.length_append
      have hrun := ih hstep hall (by omega) hrest
      simpa [List.filter_cons, hok] using hrun
    | false =>
      simp only [hok, Bool.false_eq_true, if_false] at hstep
      have hrun := ih hstep hns (by omega) hrest
      simpa [List.filter_cons, hok, Nat.add_assoc, Nat.add_comm] using hrun

section

variable {α β : Type} [DecidableEq β] {f : α → β} {l : List α}

theorem any_key (hnd : (l.map f).Nodup) (p : α → Bool) {x : α} (hx : x ∈ l) :
    (l.any fun y => f y == f x && p y) = p x := by
  rw [Bool.eq_iff_iff, List.any_eq_true]
  constructor
  · rintro ⟨y, hy, hp⟩
    simp only [Bool.and_eq_true, beq_iff_eq] at hp
    obtain rfl := List.inj_on_of_nodup_map hnd hy hx hp.1
    exact hp.2
  · intro hp
    exact ⟨x, hx, by simp [hp]⟩

theorem filter_any_key (hnd : (l.map f).Nodup) (p : α → Bool) :
    (l.map f).filter (fun k => l.any fun y => f y == k && p y) = (l.filter p).map f := by
  rw [List.filter_map]
  exact congrArg _ (List.filter_congr fun x hx => any_key hnd p hx)

end

/-- The worker has let the delivery in, and the command has ended well on the job of this index. -/
def Worker.finishes (W : Worker) (auth subject : Option Bytes) (jobs : List Job) (n : ℕ) : Bool :=
  authorised W.token auth && jobs.any fun j => j.index == n && W.succeeds (subject.getD []) j

theorem reports_of {js : List ℕ} {done : ℕ → Bool} {h : HttpReply}
    (hlen : js.length ≤ BJM_PUSH_JOBS_MAX) (hj : ∀ j ∈ js, j < 10 ^ 15)
    (hnone : js.filter done = [] → ¬ (200 ≤ h.status ∧ h.status < 300))
    (hsome : js.filter done ≠ [] → h.status = 200 ∧
      (h.headers = [contentText] ∧ js.filter done = js ∨
        h.headers = [(ascii "X-Sukkal-Done", commaList (js.filter done)), contentText] ∨
        h.headers = [contentText, (ascii "X-Sukkal-Done", commaList (js.filter done))])) :
    Reporting js done h := by
  have hlist (s : Psub) : Psub.onHdr s
      (headerLine (ascii "X-Sukkal-Done", commaList (js.filter done))) =
        { s with doneList := some (js.filter done) } := by
    refine onHdr_done s (fun n hn => ?_) (Nat.le_trans (List.length_filter_le _ _) hlen)
    have := hj n (List.mem_of_mem_filter hn)
    omega
  have htext (s : Psub) : Psub.onHdr s (headerLine contentText) = s :=
    Psub.onHdr_unmarked unmarked_contentText
  refine ⟨hnone, fun h => (hsome h).1, fun h s hs => ?_⟩
  rcases (hsome h).2 with ⟨hh, hall⟩ | hh | hh
  · right
    rw [hh]
    exact ⟨by simp only [List.map_cons, List.map_nil, List.foldl_cons, List.foldl_nil, htext, hs],
      hall⟩
  · left
    simp only [hh, List.map_cons, List.map_nil, List.foldl_cons, List.foldl_nil, htext, hlist]
  · left
    simp only [hh, List.map_cons, List.map_nil, List.foldl_cons, List.foldl_nil, htext, hlist]

/-- The C worker reports the jobs its command has ended well on. -/
theorem hJob_reports (W : Worker) (auth subject : Option Bytes) {jobs : List Job}
    (hr : Readable (takeRecord jobs)) (hlen : jobs.length ≤ BJM_PUSH_JOBS_MAX)
    (hnd : (jobs.map (·.index)).Nodup) (hj : ∀ j ∈ jobs, j.index < 10 ^ 15) :
    Reporting (jobs.map (·.index)) (W.finishes auth subject jobs)
      (hJob W auth subject (some (takeRecord jobs))) := by
  have hj' : ∀ n ∈ jobs.map (·.index), n < 10 ^ 15 := by
    intro n hn
    obtain ⟨j, hmem, rfl⟩ := List.mem_map.mp hn
    exact hj j hmem
  have hlen' : (jobs.map (·.index)).length ≤ BJM_PUSH_JOBS_MAX := by rwa [List.length_map]
  cases hauth : authorised W.token auth with
  | false =>
    have hnone : (jobs.map (·.index)).filter (W.finishes auth subject jobs) = [] := by
      simp [Worker.finishes, hauth]
    refine reports_of hlen' hj' (fun _ => ?_) fun hsome => absurd hnone hsome
    simp [hJob, hauth, textReply]
  | true =>
    have hdone : (jobs.map (·.index)).filter (W.finishes auth subject jobs) =
        (jobs.filter (W.succeeds (subject.getD []))).map (·.index) := by
      rw [← filter_any_key hnd]
      unfold Worker.finishes
      rw [hauth]
      simp only [Bool.true_and]
    have hblank : JobScan.blank.Ran [] 0 := ⟨rfl, rfl, rfl, rfl⟩
    have hran := hblank.run W (subject.getD []) (by simp) (by simpa using hlen) hj
    rw [List.nil_append, ← hdone] at hran
    have hfold : (takeRecord jobs).foldl (jsVisit W (subject.getD [])) .blank =
        (jobs.flatMap jobRecord).foldl (jsVisit W (subject.getD [])) .blank := by
      simp [takeRecord, jsVisit]
    have hjob : hJob W auth subject (some (takeRecord jobs)) =
        if (jobs.map (·.index)).filter (W.finishes auth subject jobs) = [] then
          textReply 500 "handler failed\n"
        else ⟨200, (if (jobs.filter fun j => !W.succeeds (subject.getD []) j).length ≠ 0 then
          [(ascii "X-Sukkal-Done", commaList
            ((jobs.map (·.index)).filter (W.finishes auth subject jobs)))] else []) ++
          [contentText], []⟩ := by
      simp only [hJob, hauth, Bool.not_true, Bool.false_eq_true, if_false,
        bjDecode_of_readable _ hr, hfold, hran.done, hran.ndone, hran.nfailed, Nat.zero_add,
        List.length_eq_zero_iff]
    rw [hjob]
    refine reports_of hlen' hj' (fun hnone => ?_) fun hsome => ?_
    · rw [if_pos hnone]
      simp [textReply]
    · rw [if_neg hsome]
      refine ⟨rfl, ?_⟩
      by_cases hfailed : (jobs.filter fun j => !W.succeeds (subject.getD []) j).length ≠ 0
      · right
        left
        simp only [hfailed, if_true, List.singleton_append, ne_eq, not_false_eq_true]
      · left
        rw [if_neg hfailed, List.nil_append]
        refine ⟨rfl, ?_⟩
        rw [hdone]
        refine congrArg _ (List.filter_eq_self.mpr fun j hmem => ?_)
        rw [not_not, List.length_eq_zero_iff, List.filter_eq_nil_iff] at hfailed
        simpa using hfailed j hmem

/-! ### What the Python worker answers -/

theorem mapM_forall₂ {α β ε : Type} {f : α → Except ε β} {xs : List α} {ys : List β}
    (h : xs.mapM f = .ok ys) : List.Forall₂ (fun x y => f x = .ok y) xs ys := by
  induction xs generalizing ys with
  | nil =>
    obtain rfl : [] = ys := Except.ok.inj h
    exact .nil
  | cons x xs ih =>
    rw [List.mapM_cons] at h
    cases hx : f x with
    | error e =>
      rw [hx] at h
      contradiction
    | ok y =>
      rw [hx] at h
      cases hxs : xs.mapM f with
      | error e =>
        rw [hxs] at h
        contradiction
      | ok zs =>
        rw [hxs] at h
        obtain rfl : y :: zs = ys := Except.ok.inj h
        exact .cons hx (ih hxs)

namespace PyProtocol

open PyBinjson

variable {P : PyRuntime D} {C : PyConversions D} {info : DeliveryInfo}

theorem parseEntry_index {j : SukkalMsg.Job} {d : Delivery D}
    (h : parseEntry P C info true (.dict (jobEntry j)) = .ok d) : d.index = toInt64 j.index := by
  have hindex : field C (jobEntry (D := D) j) "index" = .ok (toInt64 j.index) := rfl
  simp only [parseEntry, hindex, if_true, bind, Except.bind, pure, Except.pure] at h
  repeat' split at h
  all_goals first
    | contradiction
    | obtain rfl := Except.ok.inj h
      rfl

def finishes (P : PyRuntime D) (C : PyConversions D) (body : Bytes) (info : DeliveryInfo)
    (handler : Delivery D → Bool) (n : ℕ) : Bool :=
  match parseDelivery P C body info true with
  | .error _ => false
  | .ok ds => ds.any fun d => d.index == (n : ℤ) && handler d

/-- What is parsed of a body names its indexes; the worker reports those its handler has returned
on. -/
theorem handleJobs_reports_of {body : Bytes} {js : List ℕ} (handler : Delivery D → Bool)
    (hlen : js.length ≤ BJM_PUSH_JOBS_MAX) (hnd : js.Nodup) (hj : ∀ j ∈ js, j < 10 ^ 15)
    (hindexes : ∀ ds, parseDelivery P C body info true = .ok ds →
      ds.map Delivery.index = js.map (Nat.cast : ℕ → ℤ)) :
    Reporting js (finishes P C body info handler) (handleJobs P C body info handler) := by
  cases hparse : parseDelivery P C body info true with
  | error e =>
    have hnone : js.filter (finishes P C body info handler) = [] := by simp [finishes, hparse]
    refine reports_of hlen hj (fun _ => ?_) fun hsome => absurd hnone hsome
    simp [handleJobs, hparse, textReply]
  | ok ds =>
    have hds := hindexes ds hparse
    have hdistinct : (ds.map Delivery.index).Nodup := by
      rw [hds]
      exact hnd.map fun _ _ => Int.ofNat.inj
    have hdone : (ds.filter handler).map Delivery.index =
        (js.filter (finishes P C body info handler)).map Nat.cast := by
      rw [← filter_any_key hdistinct, hds, List.filter_map]
      refine congrArg _ (List.filter_congr fun n _ => ?_)
      simp only [finishes, hparse, Function.comp_apply]
    have hlength : ds.length = js.length := by simpa using congrArg List.length hds
    have htexts : lldText ∘ (Nat.cast : ℕ → ℤ) = decimalText := funext lldText_natCast
    have hjob : handleJobs P C body info handler =
        if js.filter (finishes P C body info handler) = [] then textReply 500 "handler failed\n"
        else ⟨200, contentText ::
          (if (js.filter (finishes P C body info handler)).length < js.length then
            [(ascii "X-Sukkal-Done", commaList (js.filter (finishes P C body info handler)))]
          else []), []⟩ := by
      simp only [handleJobs, hparse, hdone, List.map_eq_nil_iff, List.length_map, List.map_map,
        hlength, commaList, htexts]
    rw [hjob]
    refine reports_of hlen hj (fun hnone => ?_) fun hsome => ?_
    · rw [if_pos hnone]
      simp [textReply]
    · rw [if_neg hsome]
      refine ⟨rfl, ?_⟩
      by_cases hfew : (js.filter (finishes P C body info handler)).length < js.length
      · right
        right
        rw [if_pos hfew]
      · left
        rw [if_neg hfew]
        refine ⟨rfl, List.filter_eq_self.mpr (List.length_filter_eq_length_iff.mp ?_)⟩
        exact Nat.le_antisymm (List.length_filter_le _ _) (Nat.le_of_not_lt hfew)

theorem handleJobs_reports (handler : Delivery D → Bool) {jobs : List SukkalMsg.Job}
    (hr : Readable (takeRecord jobs))
    (hfit : (Binjson.encode (takeRecord jobs)).length < 2 ^ 32 + 5)
    (hlen : jobs.length ≤ BJM_PUSH_JOBS_MAX) (hnd : (jobs.map (·.index)).Nodup)
    (hj : ∀ j ∈ jobs, j.index < 10 ^ 15) :
    Reporting (jobs.map (·.index))
      (finishes P C (Binjson.encode (takeRecord jobs)) info handler)
      (handleJobs P C (Binjson.encode (takeRecord jobs)) info handler) := by
  have hj' : ∀ n ∈ jobs.map (·.index), n < 10 ^ 15 := by
    intro n hn
    obtain ⟨j, hmem, rfl⟩ := List.mem_map.mp hn
    exact hj j hmem
  refine handleJobs_reports_of handler (by rwa [List.length_map]) hnd hj' fun ds hds => ?_
  simp only [parseDelivery, decode_takeRecord hr hfit, List.mapM_map] at hds
  have hall := mapM_forall₂ hds
  clear hds hr hfit hlen hnd hj'
  induction hall with
  | nil => rfl
  | cons hd _ ih =>
    have hindex := parseEntry_index hd
    rw [toInt64_small (hj _ List.mem_cons_self)] at hindex
    simp only [List.map_cons, hindex, ih fun i hi => hj i (List.mem_cons_of_mem _ hi)]

end PyProtocol

end SukkalMsg
