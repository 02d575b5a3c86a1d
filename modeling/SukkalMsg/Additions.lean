import SukkalMsg.Conveyances
import SukkalMsg.ReceiptBounds

/-!
# What a step adds to the logs

A publish adds its message, unless it repeats one, and a requeue adds the message an
envelope restores. A take and a pass bury jobs: they add envelopes to dead-letter
channels. No other step adds anything, and none loses a message that was not there.
-/

namespace SukkalMsg

open Std Names Binjson OrderedScan BoundedTable Store ActionRuns Windows

/-- One message on one subject. -/
def only (name : Bytes) (e : Entry) : Bytes → List Entry := fun s => if s = name then [e] else []

def nothing : Bytes → List Entry := fun _ => []

/-- What a request publishes itself: a message that is new, or one out of its envelope. -/
def Handler.publishes (H : Host) (b : App) (now : ℕ) (req : Request) : Handler → Bytes → List Entry
  | hPublish => match publication H.vendor req with
    | .error _ => nothing
    | .ok p => match (b.store.publishOnce now p).1 with
      | .ok (_, false) => only p.subject p.entry
      | _ => nothing
  | hRequeue => match subjectAt req (ascii "/requeue/") with
    | .error _ => nothing
    | .ok subject => match b.store.deadEnvelope H subject (req.queryU64 (ascii "index") 0) with
      | .error _ => nothing
      | .ok (origin, e) => only origin e
  | _ => nothing

/-- The message is the envelope of a job, in the channel of a subject. -/
def IsLetter (V : Vendor) (channel : Bytes) (e : Entry) : Prop :=
  ∃ name origin group now d job, deadSubjectOf name = some channel ∧
    e = envelopeEntry V origin group now d job

/-- What a request adds: a take its letters, another what it publishes. -/
def Handler.Adds (H : Host) (b : App) (now : ℕ) (req : Request) (new : Bytes → List Entry) :
    Handler → Prop
  | hTake => ∀ s, ∀ e ∈ new s, ∃ subject group d job,
      queueTarget req (ascii "/take/") = .ok (subject, group) ∧
        deadSubjectOf subject = some s ∧ e = envelopeEntry H.vendor subject group now d job
  | h => new = h.publishes H b now req

/-- What a step adds to the logs. -/
def ServeOp.Adds (H : Host) (b : App) (new : Bytes → List Entry) : ServeOp → Prop
  | .request now method req => match sukkalRoute method req.path with
    | none => new = nothing
    | some h => h.Adds H b now req new
  | .sweep _ => new = nothing
  | .pump .. => ∀ s, ∀ e ∈ new s, IsLetter H.vendor s e
  | .delivered .. => new = nothing

namespace Store

variable {V : Vendor} {st st' st'' : Store} {P Q : Bytes → Entry → Prop}

/-- Each log has kept its messages and gained some such. -/
def Gains (P : Bytes → Entry → Prop) (st st' : Store) : Prop :=
  ∀ s, ∃ es, st'.logOf s = ⟨(st.logOf s).base, (st.logOf s).entries ++ es⟩ ∧ ∀ e ∈ es, P s e

namespace Gains

theorem of_logs (h : st'.logs = st.logs) : Gains P st st' := by
  intro s
  refine ⟨[], ?_, by simp⟩
  simp only [logOf, h, List.append_nil]

theorem trans (h : Gains P st st') (h' : Gains P st' st'') : Gains P st st'' := by
  intro s
  obtain ⟨es, hlog, hes⟩ := h s
  obtain ⟨es', hlog', hes'⟩ := h' s
  refine ⟨es ++ es', ?_, fun e he => ?_⟩
  · rw [hlog', hlog, List.append_assoc]
  · exact (List.mem_append.mp he).elim (hes e) (hes' e)

theorem mono (h : Gains P st st') (hPQ : ∀ s e, P s e → Q s e) : Gains Q st st' := fun s =>
  have ⟨es, hlog, hes⟩ := h s
  ⟨es, hlog, fun e he => hPQ s e (hes e he)⟩

theorem of_publish {now n : ℕ} {name : Bytes} {e : Entry}
    (h : st.bjmPublish now name e = .ok (n, st')) (he : P name e) : Gains P st st' := by
  obtain ⟨-, hlogs, -⟩ := bjmPublish_eq h
  intro s
  rw [logOf_insert hlogs]
  by_cases hs : name = s
  · subst hs
    exact ⟨[e], if_pos rfl, by simpa using he⟩
  · rw [if_neg hs]
    exact ⟨[], by simp [logOf], by simp⟩

theorem appended (h : Gains P st st') (s : Bytes) : ∀ e ∈ st.appended st' s, P s e := by
  obtain ⟨es, hlog, hes⟩ := h s
  rw [appended_append rfl hlog]
  exact hes

end Gains

theorem appended_insert {s : Bytes} {e : Entry}
    (h : st'.logs = st.logs.insert s ((st.logOf s).append e)) : st.appended st' = only s e := by
  funext x
  by_cases hx : s = x
  · subst hx
    have hlog : st'.logOf s = (st.logOf s).append e := by rw [logOf_insert h, if_pos rfl]
    rw [appended_append rfl hlog, only, if_pos rfl]
  · have hlog : st'.logOf x = ⟨(st.logOf x).base, (st.logOf x).entries ++ []⟩ := by
      rw [logOf_insert h, if_neg hx, List.append_nil]
      rfl
    rw [appended_append rfl hlog, only, if_neg (Ne.symm hx)]

variable {now : ℕ} {again : Store → Bytes} {group dead name : Bytes}

theorem gains_deadLetter (st : Store) (d : ℕ × ℕ) :
    Gains (fun c e => c = dead ∧ ∃ d job, e = envelopeEntry V name group now d job) st
      (deadLetter V now name group dead st d) := by
  simp only [deadLetter]
  split
  · exact .of_logs rfl
  split
  · exact .of_logs rfl
  split
  · exact .of_logs rfl
  · rename_i hpub
    exact .of_publish hpub ⟨rfl, _, _, rfl⟩

theorem gains_deadLettersFrom {R : Bytes → Prop} (ha : ∀ st, R (again st)) (ds : List (ℕ × ℕ))
    (hn : R name) (st : Store) :
    Gains (fun c e => c = dead ∧ ∃ origin, R origin ∧
      ∃ d job, e = envelopeEntry V origin group now d job) st
      (deadLettersFrom V now again group dead name ds st) := by
  induction ds generalizing name st with
  | nil => exact .of_logs rfl
  | cons d ds ih =>
    have hone : Gains (fun c e => c = dead ∧ ∃ d job, e = envelopeEntry V name group now d job)
        st (deadLetter V now name group dead st d) := gains_deadLetter st d
    refine (hone.mono fun c e ⟨hc, hd⟩ => ⟨hc, name, hn, hd⟩).trans (ih ?_ _)
    split
    · exact ha _
    · exact hn

theorem gains_take {R : Bytes → Prop} {max : ℤ} {lease : ℕ} {t : Taken} (hn : R name)
    (ha : ∀ st, R (again st)) (h : st.bjmTakeVia V again now name group max lease = .ok t) :
    Gains (fun c e => deadSubjectOf name = some c ∧ ∃ origin, R origin ∧
      ∃ d job, e = envelopeEntry V origin group now d job) st t.store := by
  obtain ⟨log, q, existed, plan, -, -, -, -, -, hst⟩ := bjmTakeVia_eq h
  rw [hst, deadLettersVia]
  cases hdead : deadSubjectOf name with
  | none => exact .of_logs rfl
  | some channel =>
    refine .trans (.of_logs rfl) ((gains_deadLettersFrom ha plan.deadNow.rows hn _).mono ?_)
    rintro c e ⟨rfl, he⟩
    exact ⟨rfl, he⟩

end Store

theorem letters_rule (V : Vendor) : PassRule V fun b b' => b.store.Gains (IsLetter V) b'.store where
  same b b' hst _ := .of_logs (by rw [hst])
  trans b b' b'' h h' := h.trans h'
  take b again now s g max lease t ht := by
    refine (gains_take (R := fun _ => True) trivial (fun _ => trivial) ht).mono ?_
    rintro c e ⟨hc, origin, -, d, job, he⟩
    exact ⟨s, origin, g, now, d, job, hc, he⟩
  skip b s c found st _ _ _ _ hset := .of_logs (by rw [bjmCursorSet_same hset])

/-- An envelope is only found at an index, in a channel of its own. -/
theorem Store.deadEnvelope_guarded {H : Host} {st : Store} {subject : Bytes} {index : ℕ}
    {r : Bytes × Entry} (h : st.deadEnvelope H subject index = .ok r) :
    index ≠ 0 ∧ BJM_DEAD_SUFFIX.isSuffixOf subject = false := by
  simp only [deadEnvelope] at h
  split at h
  · contradiction
  rename_i dead hd
  split at h
  · contradiction
  rename_i log hget
  refine ⟨?_, ?_⟩
  · rintro rfl
    simp [Elog.get] at h
  · simp only [deadSubjectOf] at hd
    split at hd
    · contradiction
    · rename_i hs
      exact Bool.eq_false_iff.mpr fun hsuf => hs (List.isSuffixOf_iff_suffix.mp hsuf)

namespace Handler

variable (H : Host) (b : App) (now : ℕ) (req : Request)

theorem adds_publish : hPublish.Adds H b now req
    (b.store.appended (hPublish.run H b now req).2.store) := by
  have hrun : (hPublish.run H b now req).2.store = (b.store.hPublish H.vendor now req).2 := rfl
  simp only [Adds, publishes, hrun]
  cases hp : publication H.vendor req with
  | error a =>
    funext s
    exact appended_of_logs (by simp only [Store.hPublish, hp]) s
  | ok p =>
    have hlogs := hPublish_once_logs b.store now hp
    rcases publishOnce_logs b.store now (publication_valid hp).1 with ⟨hold, hsame⟩ | ⟨⟨i, hi⟩, hins⟩
    · have hnone : b.store.appended (b.store.hPublish H.vendor now req).2 = nothing :=
        funext (appended_of_logs (hlogs.trans hsame))
      dsimp only
      split
      · rename_i hnew
        exact absurd hnew (hold _)
      · exact hnone
    · simp only [hi]
      exact appended_insert (hlogs.trans hins)

theorem adds_requeue : hRequeue.Adds H b now req
    (b.store.appended (hRequeue.run H b now req).2.store) := by
  have hsame : ∀ {b' : App}, b' = b → b.store.appended b'.store = nothing := fun h =>
    funext (appended_of_logs (by rw [h]))
  simp only [Adds, publishes, run, App.hRequeue]
  cases hs : subjectAt req (ascii "/requeue/") with
  | error a => exact hsame rfl
  | ok subject =>
    dsimp only
    cases henv : b.store.deadEnvelope H subject (req.queryU64 (ascii "index") 0) with
    | error e =>
      simp only [App.requeue, henv]
      repeat' split
      all_goals
        first
        | exact hsame rfl
        | contradiction
    | ok r =>
      obtain ⟨origin, e⟩ := r
      obtain ⟨hindex, hown⟩ := deadEnvelope_guarded henv
      obtain ⟨n, st, hpub⟩ := bjmPublish_ok b.store now e
        (fileFits_of_valid (App.deadEnvelope_valid henv))
      simp only [hindex, if_false, hown, Bool.false_eq_true, App.requeue, henv, hpub]
      exact appended_insert (bjmPublish_eq hpub).2.1

theorem adds_take : hTake.Adds H b now req
    (b.store.appended (hTake.run H b now req).2.store) := by
  have hsame : ∀ {b' : App}, b' = b → ∀ s, b.store.appended b'.store s = [] := fun h =>
    appended_of_logs (by rw [h])
  simp only [Adds, run, App.hTake]
  cases ht : queueTarget req (ascii "/take/") with
  | error a => exact fun s e he => absurd (hsame rfl s ▸ he) List.not_mem_nil
  | ok target =>
    obtain ⟨subject, group⟩ := target
    dsimp only
    split
    · exact fun s e he => absurd (hsame rfl s ▸ he) List.not_mem_nil
    · rename_i t htake
      intro s e he
      obtain ⟨hs, origin, rfl, d, job, heq⟩ :=
        (gains_take (R := fun x => x = subject) rfl (fun _ => rfl) htake).appended s e he
      exact ⟨origin, group, d, job, rfl, hs, heq⟩

theorem adds (h : Handler) : h.Adds H b now req (b.store.appended (h.run H b now req).2.store) := by
  have hcalls := h.calls H b now req
  have hlast := hcalls.last_eq
  cases h with
  | hPublish => exact adds_publish H b now req
  | hRequeue => exact adds_requeue H b now req
  | hTake => exact adds_take H b now req
  | _ =>
    refine funext (appended_of_last (hlast fun x call ha hlog => ?_))
    cases call with
    | trim s before force => exact ⟨s, before, force, rfl⟩
    | publish at_ name e => simp [Asks] at ha
    | take at_ s g max lease => simp [Asks] at ha
    | _ => exact hlog.elim

theorem meets (h : Handler) : b.store.Meets (h.run H b now req).2.store := by
  have hcalls := h.calls H b now req
  by_cases ht : h = hTrim
  · subst ht
    refine .of_last (hcalls.last_eq fun x call ha hlog => ?_)
    cases call with
    | trim s before force => exact ⟨s, before, force, rfl⟩
    | publish at_ name e => simp [Asks] at ha
    | take at_ s g max lease => simp [Asks] at ha
    | _ => exact hlog.elim
  · exact .of_base (hcalls.base_eq fun x s before force ha => ht ha.1)

end Handler

namespace App

variable {H : Host} {b : App} {op : ServeOp}

theorem logs_delivered (b : App) (clock id : ℕ) (r : Reply) (now : ℕ) :
    (b.delivered clock id r now).store.logs = b.store.logs := by
  rcases b.delivered_cases clock id r now with ⟨heq, -⟩ | ⟨pre, t, suf, -, -,
    ⟨-, suf', -, heq⟩ | ⟨-, x, hx, heq⟩⟩
  · rw [heq]
  · rw [heq]
  · rw [heq, hx]
    rcases Psub.settle_cases clock b.store ({ t.hear r with inflight := false } : Psub) r now with
      hsame | ⟨-, -, -, hset⟩ | ⟨-, hset⟩
    · rw [hsame]
    · rw [bjmCursorSet_same hset]
    · rw [hset.same]

theorem last_sweep (b : App) (V : Vendor) (nowS : ℕ) (s : Bytes) :
    ((b.store.bjmRetentionRun V nowS).2.2.logOf s).last = (b.store.logOf s).last := by
  refine (b.store.retentionRun_calls V nowS).last_eq (fun x call ha hlog => ?_) s
  cases call with
  | trim s before force => exact ⟨s, before, force, rfl⟩
  | publish | take => exact ha.elim
  | _ => exact hlog.elim

/-- Whatever a step does, the logs go on. -/
theorem serve_goesOn (hn : ∀ name ∈ b.push.names, slash ∉ name) (hs : Serving b op) :
    b.store.GoesOn (b.serve H op).2.store := by
  cases op with
  | request now method req =>
    rcases dispatch_cases H b now method req with ⟨hd, -, heq⟩ | ⟨-, heq⟩
    · simp only [App.serve, heq]
      exact (hd.calls H b now req).goesOn
    · simp only [App.serve, heq]
      exact .refl
  | sweep nowS => exact (b.store.retentionRun_calls H.vendor nowS).goesOn
  | pump send now clock =>
    rcases b.pump_cases H.vendor send now clock hn hs.words with
      ⟨-, heq⟩ | ⟨-, ss', ds, st, p', w, -, happ, -, hpass, -, -⟩
    · simp only [App.serve, heq]
      exact .refl
    · simp only [App.serve, happ]
      exact .of_passed hpass
  | delivered clock id r now => exact .of_logs (b.logs_delivered clock id r now)

/-- No step loses a message that was not there. -/
theorem serve_meets (hn : ∀ name ∈ b.push.names, slash ∉ name) (hs : Serving b op) :
    b.store.Meets (b.serve H op).2.store := by
  have hsame : ∀ {st : Store}, st.logs = b.store.logs → b.store.Meets st := fun h =>
    .of_base fun s => by simp only [logOf, h]
  cases op with
  | request now method req =>
    rcases dispatch_cases H b now method req with ⟨hd, -, heq⟩ | ⟨-, heq⟩
    · simp only [App.serve, heq]
      exact hd.meets H b now req
    · simp only [App.serve, heq]
      exact hsame rfl
  | sweep nowS => exact .of_last (b.last_sweep H.vendor nowS)
  | pump send now clock =>
    rcases b.pump_cases H.vendor send now clock hn hs.words with
      ⟨-, heq⟩ | ⟨-, ss', ds, st, p', w, -, happ, -, hpass, -, -⟩
    · simp only [App.serve, heq]
      exact hsame rfl
    · simp only [App.serve, happ]
      exact .of_base hpass.base
  | delivered clock id r now => exact hsame (b.logs_delivered clock id r now)

theorem serve_adds (hn : ∀ name ∈ b.push.names, slash ∉ name) (hs : Serving b op) :
    op.Adds H b (b.store.appended (b.serve H op).2.store) := by
  cases op with
  | request now method req =>
    rcases dispatch_cases H b now method req with ⟨hd, hroute, heq⟩ | ⟨hroute, heq⟩
    · simp only [ServeOp.Adds, App.serve, hroute, heq]
      exact hd.adds H b now req
    · simp only [ServeOp.Adds, App.serve, hroute, heq]
      exact funext (appended_of_logs rfl)
  | sweep nowS => exact funext (appended_of_last (b.last_sweep H.vendor nowS))
  | pump send now clock =>
    exact ((letters_rule H.vendor).pump send now clock hn hs.words).1.appended
  | delivered clock id r now => exact funext (appended_of_logs (b.logs_delivered clock id r now))

end App

end SukkalMsg
