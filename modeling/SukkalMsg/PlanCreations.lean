import SukkalMsg.AcceptedBodies
import SukkalMsg.PlanCoverage

/-!
# What a plan creates

A log comes into being when a handler publishes to it, which it asks for. The host creates
the files a plan marks before the handler runs, and does not take back what the handler did
not come to use: such a file is an empty log, and is listed as a subject.
-/

namespace SukkalMsg

open Std Names Binjson OrderedScan BoundedTable Store ActionRuns

namespace Store

variable {V : Vendor} {st st' : Store} {x s : Bytes}

theorem mem_logs_insert (name : Bytes) (log : Elog) :
    x ∈ st.logs.insert name log ↔ x ∈ st.logs ∨ x = name := by
  rw [← ExtTreeMap.isSome_getElem?_iff_mem, ← ExtTreeMap.isSome_getElem?_iff_mem, getElem?_insert]
  split
  · rename_i he
    simp [he]
  · rename_i hne
    simp [Ne.symm hne]

theorem mem_logs_congr (h : st'.logs = st.logs) : x ∈ st'.logs ↔ x ∈ st.logs := by rw [h]

theorem mem_logs_publish {now index : ℕ} {name : Bytes} {e : Entry}
    (h : st.bjmPublish now name e = .ok (index, st')) : x ∈ st'.logs ↔ x ∈ st.logs ∨ x = name := by
  rw [(bjmPublish_eq h).2.1, mem_logs_insert]

theorem mem_logs_publishOnce (now : ℕ) {p : Publication} (hs : bjmSubjectValid p.subject = true) :
    x ∈ (st.publishOnce now p).2.logs ↔
      x ∈ st.logs ∨ .get x true ∈ st.publishOnceGets now p := by
  have hfresh : ∀ st : Store, x ∈ (st.publishFresh now p).2.logs ↔ x ∈ st.logs ∨ x = p.subject := by
    intro st
    rw [publishFresh_appends st now hs, mem_logs_insert]
  have hget : (Access.get x true = .get p.subject true) ↔ x = p.subject := by simp
  simp only [publishOnce, publishOnceGets]
  cases p.id with
  | none => simp [hfresh]
  | some id =>
    have hlogs := (bjmDedupLookup_dedupOnly st now p.subject id).logs_eq
    dsimp only
    generalize st.bjmDedupLookup now p.subject id = r at hlogs
    rcases r with ⟨e | found, st₁⟩
    · simp [mem_logs_congr hlogs]
    · cases found with
      | some index => simp [mem_logs_congr hlogs]
      | none => simp [hfresh, mem_logs_congr hlogs]

theorem mem_logs_hPublish (now : ℕ) {req : Request} : x ∈ (st.hPublish V now req).2.logs ↔
    x ∈ st.logs ∨ ∃ p, publication V req = .ok p ∧ .get x true ∈ st.publishOnceGets now p := by
  cases hp : publication V req with
  | error a => simp [hPublish, hp]
  | ok p =>
    have hack : (st.hPublish V now req).2.logs = (st.publishOnce now p).2.logs := by
      simp only [hPublish, hp]
      cases ho : st.publishOnce now p with
      | mk r st₁ =>
        cases r with
        | error a => rfl
        | ok y =>
          have hsame := congrArg (·.logs) (hPublish_of_once hp ho).1
          simpa only [hPublish, hp, ho] using hsame
    rw [hack, mem_logs_publishOnce now (publication_valid hp).1]
    simp

/-- Burying some jobs brings the channel into being, if one of them is in the log. -/
theorem mem_logs_buried {now : ℕ} {g dead : Bytes} {log : Elog}
    (hget : st.subjectGet s false = .ok log) (hne : dead ≠ s) (hfits : fileFits dead = true)
    (ds : List (ℕ × ℕ)) : x ∈ (ds.foldl (deadLetter V now s g dead) st).logs ↔
      x ∈ st.logs ∨ x = dead ∧ ∃ d ∈ ds, (log.get d.1).isSome = true := by
  induction ds generalizing st with
  | nil => simp
  | cons d ds ih =>
    cases he : log.get d.1 with
    | none =>
      have hstep : deadLetter V now s g dead st d = st := by simp [deadLetter, hget, he]
      simp [hstep, ih hget, he]
    | some e =>
      obtain ⟨index, st₁, hpub⟩ := st.bjmPublish_ok now (envelopeEntry V s g now d e) hfits
      have hstep : deadLetter V now s g dead st d = st₁ := by simp [deadLetter, hget, he, hpub]
      obtain ⟨hsfits, hlog, -⟩ := subjectGet_logOf hget
      have hget₁ : st₁.subjectGet s false = .ok log :=
        subjectGet_of_log st₁ hsfits (((PublishedTo.of_publish hpub).others s hne.symm).trans hlog) false
      simp only [List.foldl_cons, hstep, ih hget₁, mem_logs_publish hpub]
      simp only [List.mem_cons, exists_eq_or_imp, he, Option.isSome_some, true_or, and_true]
      tauto

theorem mem_logs_take {now : ℕ} {g : Bytes} {max : ℤ} {lease : ℕ} {t : Taken}
    (h : st.bjmTake V now s g max lease = .ok t) : x ∈ t.store.logs ↔
      x ∈ st.logs ∨ deadSubjectOf s = some x ∧ ∃ d ∈ t.dead, ((st.logOf s).get d.1).isSome = true := by
  obtain ⟨log, q, existed, plan, hget, -, -, -, hdead, hst⟩ := bjmTake_eq h
  obtain ⟨-, -, rfl⟩ := subjectGet_logOf hget
  rw [hst, hdead]
  generalize hst₁ : ({ st with queues := _ } : Store) = st₁
  have hlogs : st₁.logs = st.logs := by rw [← hst₁]
  have hget₁ : st₁.subjectGet s false = .ok (st.logOf s) := by
    rw [← hst₁]
    exact hget
  simp only [deadLetters]
  cases hd : deadSubjectOf s with
  | none => simp [hlogs]
  | some dead =>
    dsimp only
    rw [mem_logs_buried hget₁ (deadSubjectOf_ne hd) (fileFits_deadSubjectOf hd), hlogs,
      Option.some.injEq, eq_comm]

end Store

namespace Handler

variable {H : Host} {b : App} {now : ℕ} {req : Request} {h : Handler} {x : Bytes}

theorem get_true_cases (ha : .get x true ∈ h.gets H b now req) :
    h = hPublish ∨ h = hTake ∨ h = hRequeue := by
  rcases gets_cases ha with ⟨-, s, -, hown⟩ | ⟨x', c, he, hr⟩
  · rcases hown with ⟨-, hc⟩ | ⟨-, hc, -⟩
    · exact .inl (hc rfl)
    · contradiction
  · obtain ⟨rfl, rfl⟩ := Access.get.inj he
    rcases reaches_kind hr with ⟨hh, -⟩ | ⟨-, hc⟩
    · exact .inr hh
    · contradiction

/-- The calls of other handlers leave the logs alone, or trim one. -/
theorem mem_logs_other (hp : h ≠ hPublish) (ht : h ≠ hTake) (hr : h ≠ hRequeue) :
    x ∈ (h.run H b now req).2.store.logs ↔ x ∈ b.store.logs := by
  refine (h.calls H b now req).preserves (fun st => x ∈ st.logs ↔ x ∈ b.store.logs) .rfl
    fun st call st' hst ha hm => Iff.trans ?_ hst
  by_cases hl : call.Logging
  · cases call with
    | publish => exact (ha.2.2.elim hp hr).elim
    | take => exact absurd ha.1 ht
    | trim s before force =>
      obtain ⟨base, removed, htrim⟩ := hm
      exact mem_logs_trim htrim x
    | _ => exact hl.elim
  · exact mem_logs_congr (hm.logs hl)

variable (H b now req x) in
theorem mem_logs_taken : x ∈ (hTake.run H b now req).2.store.logs ↔
    x ∈ b.store.logs ∨ .get x true ∈ hTake.gets H b now req := by
  have hreach : .get x true ∈ hTake.gets H b now req ↔ hTake.Reaches H b now req x true := by
    refine ⟨fun ha => ?_, reaches_mem⟩
    rcases gets_cases ha with ⟨-, s, -, hown⟩ | ⟨x', c, he, hr⟩
    · rcases hown with ⟨-, hc⟩ | ⟨-, hc, -⟩
      · exact absurd (hc rfl) nofun
      · contradiction
    · obtain ⟨rfl, rfl⟩ := Access.get.inj he
      exact hr
  rw [hreach]
  simp only [run, App.hTake, Reaches]
  cases hq : queueTarget req (ascii "/take/") with
  | error a => simp
  | ok p =>
    obtain ⟨s, g⟩ := p
    dsimp only
    cases htake : b.store.bjmTake H.vendor now s g (toInt32 (req.queryU64 (ascii "max") 1))
        (req.queryU64 (ascii "lease") UINT64_MAX) with
    | error e =>
      refine (or_iff_left ?_).symm
      rintro ⟨-, s', g', t, hq', htake', -⟩
      obtain ⟨rfl, rfl⟩ := Prod.mk.inj (Except.ok.inj hq')
      rw [htake] at htake'
      contradiction
    | ok t =>
      refine (mem_logs_take htake).trans (or_congr_right ⟨fun hd => ?_, ?_⟩)
      · exact ⟨trivial, s, g, t, rfl, htake, hd⟩
      · rintro ⟨-, s', g', t', hq', htake', hd⟩
        obtain ⟨rfl, rfl⟩ := Prod.mk.inj (Except.ok.inj hq')
        obtain rfl := Except.ok.inj (htake.symm.trans htake')
        exact hd

variable (H b now req x) in
theorem mem_logs_requeued : x ∈ (hRequeue.run H b now req).2.store.logs ↔
    x ∈ b.store.logs ∨ .get x true ∈ hRequeue.gets H b now req := by
  have hunread : ∀ l : List Access, (∀ a ∈ l, ∃ y, a = .get y false) → .get x true ∉ l := by
    intro l hl ha
    obtain ⟨y, hy⟩ := hl _ ha
    simp at hy
  simp only [run, App.hRequeue]
  cases hs : subjectAt req (ascii "/requeue/") with
  | error a => simp [gets, App.hRequeueGets, hs]
  | ok s =>
    dsimp only
    split
    · rename_i hindex
      simp [gets, App.hRequeueGets, hs, hindex]
    split
    · rename_i hsuffix
      simp [gets, App.hRequeueGets, hs, hsuffix]
    rename_i hindex _
    cases henv : b.store.deadEnvelope H s (req.queryU64 (ascii "index") 0) with
    | error e =>
      have hnot : .get x true ∉ hRequeue.gets H b now req := by
        simp only [gets, App.hRequeueGets, hs, henv]
        repeat' split
        all_goals exact hunread _ (by simp)
      simp only [App.requeue, henv, hnot, or_false]
      cases e <;> rfl
    | ok p =>
      obtain ⟨origin, e⟩ := p
      obtain ⟨dead, -, hdead, -⟩ := channel_of_envelope henv
      obtain ⟨at_, st, hpub⟩ := b.store.bjmPublish_ok now e
        (fileFits_of_valid (App.deadEnvelope_valid henv))
      rw [requeueGets_of_envelope hs hindex henv hdead]
      simp only [App.requeue, henv, hpub]
      exact (mem_logs_publish hpub).trans (by simp)

/-- A log comes into being exactly when its handler asks for it to publish there. -/
theorem created_iff : x ∈ (h.run H b now req).2.store.logs ↔
    x ∈ b.store.logs ∨ .get x true ∈ h.gets H b now req := by
  by_cases hp : h = hPublish
  · subst hp
    refine (mem_logs_hPublish now).trans (or_congr_right ?_)
    simp only [gets]
    cases publication H.vendor req <;> simp
  by_cases ht : h = hTake
  · subst ht
    exact mem_logs_taken H b now req x
  by_cases hr : h = hRequeue
  · subst hr
    exact mem_logs_requeued H b now req x
  · rw [mem_logs_other hp ht hr, or_iff_left]
    exact fun ha => (get_true_cases ha).elim hp fun ha => ha.elim ht hr

end Handler

/-- `#openPlanned`: the files there are once the host has opened a plan's names. A name
that must be there, and is not, is passed over. -/
def openPlanned (files : List Bytes) (plan : List Opening) : List Bytes :=
  plan.foldl (fun files o =>
    if o.create && !files.contains o.file then files ++ [o.file] else files) files

theorem mem_openPlanned {files : List Bytes} {plan : List Opening} {f : Bytes} :
    f ∈ openPlanned files plan ↔ f ∈ files ∨ ⟨f, true⟩ ∈ plan := by
  induction plan generalizing files with
  | nil => simp [openPlanned]
  | cons o plan ih =>
    have hone : f ∈ (if o.create && !files.contains o.file then files ++ [o.file] else files) ↔
        f ∈ files ∨ o = ⟨f, true⟩ := by
      obtain ⟨file, create⟩ := o
      cases create with
      | false => simp
      | true =>
        by_cases hf : file ∈ files
        · have hsame : file = f → f ∈ files := fun he => he ▸ hf
          simpa [hf] using hsame
        · simp [hf, eq_comm]
    rw [openPlanned, List.foldl_cons]
    refine ih.trans ?_
    rw [hone, List.mem_cons, or_assoc, eq_comm (a := o)]

theorem mem_listedSubjects {files : List Bytes} {x : Bytes} :
    x ∈ listedSubjects files ↔ x ≠ [] ∧ liveName x ∈ files := by
  have hsuffix : SUBJECT_SUFFIX.length = 5 := by decide
  simp only [listedSubjects, List.mem_filterMap]
  constructor
  · rintro ⟨f, hf, hx⟩
    split at hx
    · contradiction
    rename_i hlong
    split at hx
    · rename_i hend
      obtain ⟨name, rfl⟩ := List.isSuffixOf_iff_suffix.mp hend
      rw [List.length_append, Nat.add_sub_cancel, List.take_left'] at hx
      · obtain rfl := Option.some.inj hx
        refine ⟨?_, hf⟩
        rintro rfl
        simp at hlong
      · rfl
    · contradiction
  · rintro ⟨hne, hf⟩
    refine ⟨liveName x, hf, ?_⟩
    have hpos : 0 < x.length := List.length_pos_iff.mpr hne
    rw [if_neg, if_pos]
    · simp [liveName]
    · simp [liveName, List.isSuffixOf_iff_suffix]
    · rw [liveName, List.length_append]
      omega

namespace Handler

variable {H : Host} {b : App} {now : ℕ} {req : Request} {h : Handler} {x : Bytes}
  {method path : Bytes}

theorem covers_true_iff {plan : List Opening} {f : Bytes} :
    Covers plan ⟨f, true⟩ ↔ ⟨f, true⟩ ∈ plan := by
  constructor
  · rintro ⟨⟨file, create⟩, hp, rfl, hc⟩
    obtain rfl : create = true := hc rfl
    exact hp
  · exact fun hp => ⟨_, hp, rfl, id⟩

/-- The logs a plan has created: the subject's where something may be published to it, and
the channel of a subject whose job is settled. -/
theorem planned_live_iff (hroute : sukkalRoute method path = some h) :
    ⟨liveName x, true⟩ ∈ hostPlan method path ↔ ∃ s, planSubject path = some s ∧
      (x = s ∧ (h = hPublish ∨ h = hRequeue) ∨
        x = s ++ BJM_DEAD_SUFFIX ∧ (h = hDone ∨ h = hFail)) := by
  rw [← covers_true_iff]
  cases hs : planSubject path with
  | none =>
    refine iff_of_false (not_covers_live hs) ?_
    rintro ⟨s, hs', -⟩
    contradiction
  | some s =>
    have hstar : h.Starred := by
      by_contra hstar
      have hexact : path = h.row.path := by
        have hmatch := (row_of_route hroute).2
        have hlast : h.row.path.getLast? ≠ some star := hstar
        rw [pathMatches, if_neg hlast] at hmatch
        exact of_decide_eq_true hmatch
      have hnone : planSubject h.row.path = none := by
        revert hstar
        cases h <;> decide
      rw [← hexact, hs] at hnone
      contradiction
    rw [covers_live_iff hroute hstar hs]
    simp only [true_imp_iff, Option.some.injEq, exists_eq_left']
    tauto

end Handler

/-- Of the logs that a request finds nowhere, these are listed after it though nothing was
published to them: the path's, where nothing was published after all, and the dead-letter
channel of any job that is settled. -/
theorem conjured_iff {H : Host} {b : App} {now : ℕ} {req : Request} {h : Handler} {x method : Bytes}
    (hroute : sukkalRoute method req.path = some h) {files : List Bytes}
    (hfiles : x ∉ listedSubjects files) (hlogs : x ∉ b.store.logs) :
    x ∈ listedSubjects (openPlanned files (hostPlan method req.path)) ∧
        x ∉ (h.run H b now req).2.store.logs ↔
      ∃ s, planSubject req.path = some s ∧
        (x = s ∧ (h = .hPublish ∨ h = .hRequeue) ∧ .get x true ∉ h.gets H b now req ∨
          x = s ++ BJM_DEAD_SUFFIX ∧ (h = .hDone ∨ h = .hFail)) := by
  have hnew : x ∉ (h.run H b now req).2.store.logs ↔ .get x true ∉ h.gets H b now req := by
    rw [Handler.created_iff, not_or, and_iff_right hlogs]
  rw [hnew, mem_listedSubjects, mem_openPlanned, Handler.planned_live_iff hroute]
  rw [mem_listedSubjects] at hfiles
  constructor
  · rintro ⟨⟨hne, hfile | ⟨s, hs, hcase⟩⟩, hget⟩
    · exact absurd ⟨hne, hfile⟩ hfiles
    · refine ⟨s, hs, hcase.imp_left ?_⟩
      exact fun hx => ⟨hx.1, hx.2, hget⟩
  · rintro ⟨s, hs, hcase⟩
    have hvalid := planSubject_valid hs
    have hne : s ≠ [] := by
      rintro rfl
      contradiction
    rcases hcase with ⟨rfl, hh, hget⟩ | ⟨rfl, hh⟩
    · exact ⟨⟨hne, .inr ⟨x, hs, .inl ⟨rfl, hh⟩⟩⟩, hget⟩
    · refine ⟨⟨by simp [hne], .inr ⟨s, hs, .inr ⟨rfl, hh⟩⟩⟩, fun hget => ?_⟩
      rcases Handler.get_true_cases hget with rfl | rfl | rfl <;> simp at hh

/-- A job nobody has is settled. -/
def settleNothing : Request :=
  .plain (ascii "/done/orders") [(ascii "group", ascii "workers"), (ascii "index", ascii "1")]

theorem settleNothing_conjures :
    ascii "orders.dead" ∈ listedSubjects (openPlanned [] (hostPlan POST settleNothing.path)) ∧
    ascii "orders.dead" ∉
      (Handler.hDone.run (plainHost wholeBodies) (.start .empty [] 0) 1 settleNothing).2.store.logs := by
  have hroute : sukkalRoute POST settleNothing.path = some .hDone := by decide +kernel
  refine (conjured_iff hroute (by simp [listedSubjects]) ?_).mpr
    ⟨ascii "orders", by decide, .inr ⟨by decide, .inl rfl⟩⟩
  exact ExtTreeMap.not_mem_empty

end SukkalMsg
