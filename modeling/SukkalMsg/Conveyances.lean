import SukkalMsg.LogWindows
import SukkalMsg.PassRules
import SukkalMsg.RequestCalls

/-!
# What readers are handed

A delivery carries messages of the log it was made from, where they lie in it: a batch
from its first index on, or the jobs of a lease. A request is answered with messages
only by the routes that read a log, and these lie in it from an index above its base.
-/

namespace SukkalMsg

open Std Names Binjson OrderedScan BoundedTable Store ActionRuns Windows

/-- What a delivery carries is what one log has: all messages from its first index to its
last, or each job's own. The subject it tells is that log's, jobs' where names stay readable. -/
def Store.Gives (V : Vendor) (st : Store) (t : Psub) : Prop :=
  match t.body with
  | .batch es => 0 < t.first ∧ t.first ≤ t.last ∧ t.last ≤ (st.logOf t.subject).last ∧
      es.length = t.last + 1 - t.first ∧
      ∀ k, k < es.length → es[k]? = (st.logOf t.subject).get (t.first + k)
  | .lease jobs => ∃ name, (V.KeepsNames → t.subject = name) ∧
      ∀ j ∈ jobs, (st.logOf name).get j.index = some ⟨j.type, j.payload⟩

theorem takenJobs_get {now lease : ℕ} {log : Elog} {chosen : List (ℕ × ℕ)} {j : Job}
    (hj : j ∈ takenJobs now lease log chosen) : log.get j.index = some ⟨j.type, j.payload⟩ := by
  obtain ⟨c, -, hc⟩ := List.mem_filterMap.mp hj
  cases hg : log.get c.1 with
  | none => simp [hg] at hc
  | some e =>
    rw [hg] at hc
    obtain rfl := Option.some.inj hc
    exact hg

namespace Scan

variable {V : Vendor} {clock : ℕ} {a b : Scan}

theorem gives_offerJobs {i count : ℕ} {name : Bytes}
    (h : a.offerJobs V clock i name = (b, some count)) : b.store.Gives V b.sub := by
  simp only [offerJobs] at h
  split at h
  · simp at h
  rename_i c n hc
  obtain ⟨rfl, -⟩ := Prod.mk.inj h
  simp only [takeBatch] at hc
  split at hc
  · simp at hc
  rename_i t ht
  split at hc
  · simp at hc
  split at hc
  · obtain ⟨rfl, -⟩ := Prod.mk.inj hc
    obtain ⟨log, q, existed, plan, hget, -, -, hj, -, -⟩ := bjmTakeVia_eq ht
    obtain ⟨-, -, rfl⟩ := subjectGet_logOf hget
    refine ⟨name, fun hV => subject_of_keepsNames hV _ name _, fun j hm => ?_⟩
    rw [hj] at hm
    have hfound := takenJobs_get hm
    have hin := Elog.get_isSome_iff.mp (by rw [hfound]; rfl)
    have hpass := passed_take ht
    exact ((GoesOn.of_passed hpass).get (by rw [hpass.base]; exact hin.1) hin.2).trans hfound
  · simp at hc

theorem gives_offer (ha : a.Sound) {i count : ℕ} {name : Bytes} (hn : slash ∉ name)
    (h : a.offer V clock i name = (b, some count)) : b.store.Gives V b.sub := by
  simp only [offer] at h
  split at h
  · exact gives_offerJobs h
  · obtain ⟨hb, -⟩ := behind_offerBatch ha hn h
    obtain ⟨es, hbody, hlen, hes⟩ := hb.contiguous
    simp only [Store.Gives, hbody]
    exact ⟨by rw [hb.first]; omega, hb.nonempty, hb.within, hlen, hes⟩

theorem gives_loop (ha : a.Sound) {fuel n count : ℕ}
    (h : loop V clock fuel n a = (b, some count)) : b.store.Gives V b.sub := by
  induction fuel generalizing a n with
  | zero => simp [loop] at h
  | succ fuel ih =>
    simp only [loop] at h
    split at h
    · have hname := names_getD ha.names ((a.sub.rr + n) % a.push.names.length)
      split at h
      · have hoffer := searched_offer V clock ha
          ((a.sub.rr + n) % a.push.names.length) hname
        split at h
        · rename_i c hc
          rw [hc] at hoffer
          exact ih (hoffer.sound ha) h
        · rename_i c m hc
          obtain ⟨rfl, -⟩ := Prod.mk.inj h
          exact gives_offer ha hname hc
      · exact ih ha h
    · simp at h

/-- A delivery that is started carries what the log has. -/
theorem gives_startDelivery (ha : a.Sound) {send : Psub → Bool}
    (h : a.startDelivery V clock send = (true, b)) : b.store.Gives V b.sub := by
  rcases startDelivery_cases V clock send (a := a) with
    ⟨hstart, -⟩ | ⟨count, hcount, ⟨-, hstart⟩ | ⟨-, hstart⟩⟩ <;> rw [hstart] at h
  · simp at h
  · simp at h
  · obtain ⟨-, rfl⟩ := Prod.mk.inj h
    have hsearch : a.search V clock = ((a.search V clock).1, some count) := by rw [← hcount]
    have hgives : (a.search V clock).1.store.Gives V (a.search V clock).1.sub :=
      gives_loop (a := { a with sub := { a.sub with wakeMs := 0 } }) ⟨ha.names, ha.base⟩ hsearch
    exact hgives

end Scan

namespace Pass

variable (V : Vendor) (send : Psub → Bool) (now clock : ℕ)

theorem gives_ask {t : Pass} (ht : t.Sound) (s : Psub) :
    ∀ d ∈ (t.ask V send now clock s).1.sent, d ∈ t.sent ∨ d.store.Gives V d.sub := by
  intro d hd
  by_cases helig : s.Eligible now
  · generalize hstart : Scan.startDelivery V clock send ⟨t.store, t.push, s⟩ = r
    obtain ⟨started, b⟩ := r
    obtain ⟨-, -, -, -, hsent⟩ := ask_of_start helig hstart
    rw [hsent] at hd
    cases started with
    | false => exact .inl hd
    | true =>
      rcases List.mem_append.mp hd with hd | hd
      · exact .inl hd
      · obtain rfl := List.mem_singleton.mp hd
        exact .inr (Scan.gives_startDelivery ⟨ht.names, ht.base⟩ hstart)
  · obtain ⟨-, -, -, -, hsent⟩ := ask_of_not_eligible V send clock (t := t) helig
    exact .inl (hsent ▸ hd)

theorem gives_askAll {t : Pass} (ht : t.Sound) (ss : List Psub) :
    ∀ d ∈ (askAll V send now clock t ss).1.sent, d ∈ t.sent ∨ d.store.Gives V d.sub := by
  induction ss generalizing t with
  | nil => exact fun d hd => .inl hd
  | cons s ss ih =>
    intro d hd
    rcases ih (ask_sound V send now clock ht s).1 d hd with hd | hd
    · exact gives_ask V send now clock ht s d hd
    · exact .inr hd

end Pass

theorem App.gives_pump (V : Vendor) (send : Psub → Bool) (now clock : ℕ) {b : App}
    (hn : ∀ name ∈ b.push.names, slash ∉ name) (hw : b.store.Words) :
    ∀ d ∈ (b.pump V send now clock).sent, d.store.Gives V d.sub := by
  simp only [App.pump]
  split
  · intro d hd
    exact (Pass.gives_askAll V send now clock (t := ⟨b.store, b.push, 0, false, 0, []⟩)
      ⟨hn, fun s => base_lt_of_words hw s⟩ b.push.subs d hd).resolve_left List.not_mem_nil
  · exact fun d hd => absurd hd List.not_mem_nil

/-- The subject a read is of: the path's, or its dead-letter channel. -/
def Handler.ReadsOf (req : Request) (s : Bytes) : Handler → Prop
  | .hSubscribe => subjectAt req (ascii "/sub/") = .ok s
  | .hDead => ∃ subject, subjectAt req (ascii "/dead/") = .ok subject ∧
      s = subject ++ BJM_DEAD_SUFFIX
  | _ => False

/-- The answer carries no messages of a log. -/
def Response.Bare (r : Response) : Prop := ∀ es, r.payload ≠ .batch es

namespace Response.Bare

variable {req : Request} {pre : Bytes} {r : Response}

theorem err (status : ℕ) (msg : String) : (resErr status msg).Bare := nofun

theorem bj (r : Record) : (resBj r).Bare := nofun

theorem answer (a : Answer) : a.response.Bare := by
  cases a with
  | err => exact nofun
  | published => exact bj _

theorem subject (h : subjectAt req pre = .error r) : r.Bare := by
  simp only [subjectAt] at h
  split at h
  · rw [← Except.error.inj h]
    exact answer _
  · contradiction

theorem name {key : Bytes} {size : ℕ} {valid : Bytes → Bool} {msg : String}
    (h : req.queryName key size valid msg = .error r) : r.Bare := by
  simp only [Request.queryName] at h
  split at h
  · contradiction
  · rw [← Except.error.inj h]
    exact err _ _
  · split at h
    · contradiction
    · rw [← Except.error.inj h]
      exact err _ _

theorem consumer (h : consumerTarget req pre = .error r) : r.Bare := by
  simp only [consumerTarget] at h
  split at h
  · rename_i a hs
    obtain rfl := Except.error.inj h
    exact subject hs
  · split at h
    · rename_i a hc
      obtain rfl := Except.error.inj h
      exact name hc
    · rw [← Except.error.inj h]
      exact err _ _
    · contradiction

theorem queue (h : queueTarget req pre = .error r) : r.Bare := by
  simp only [queueTarget] at h
  split at h
  · rename_i a hs
    obtain rfl := Except.error.inj h
    exact subject hs
  · split at h
    · rename_i a hg
      obtain rfl := Except.error.inj h
      exact name hg
    · rw [← Except.error.inj h]
      exact err _ _
    · contradiction

theorem callback (h : callbackOf req = .error r) : r.Bare := by
  simp only [callbackOf] at h
  split at h
  · split at h
    · contradiction
    · rw [← Except.error.inj h]
      exact err _ _
  · rw [← Except.error.inj h]
    exact err _ _

theorem token (h : tokenOf req = .error r) : r.Bare := by
  simp only [tokenOf] at h
  split at h
  · split at h
    · contradiction
    · rw [← Except.error.inj h]
      exact err _ _
  · contradiction

theorem pattern (h : patternOf req pre = .error r) : r.Bare := by
  by_cases hvalid : (if bjmPatternIs (req.path.drop pre.length) then
      bjmPatternValid (req.path.drop pre.length)
      else bjmSubjectValid (req.path.drop pre.length)) = true
  · rw [patternOf, if_pos hvalid] at h
    contradiction
  · rw [patternOf, if_neg hvalid] at h
    rw [← Except.error.inj h]
    exact err _ _

theorem registration (h : registration req = .error r) : r.Bare := by
  simp only [SukkalMsg.registration] at h
  split at h
  · rename_i a hp
    obtain rfl := Except.error.inj h
    exact pattern hp
  split at h
  · rename_i a hc
    obtain rfl := Except.error.inj h
    exact name hc
  · rw [← Except.error.inj h]
    exact err _ _
  split at h
  · rename_i a hc
    obtain rfl := Except.error.inj h
    exact callback hc
  split at h
  · rename_i a ht
    obtain rfl := Except.error.inj h
    exact token ht
  split at h
  · rename_i a hg
    obtain rfl := Except.error.inj h
    exact name hg
  · contradiction

theorem receipt {st st' : Store} {s c : Bytes}
    (h : st.readReceipt s c req = (.error r, st')) : r.Bare := by
  simp only [readReceipt] at h
  repeat' split at h
  all_goals
    first
    | (rw [← Except.error.inj (Prod.mk.inj h).1]; exact err _ _)
    | cases (Prod.mk.inj h).1

end Response.Bare

/-- A read that is answered starts above the base of the log. -/
theorem Store.bjmRead_above {V : Vendor} {st : Store} {s : Bytes} {start max : ℕ} {r : ℕ × ℕ}
    (h : st.bjmRead V s start max = .ok r) :
    (st.logOf s).base < start ∨ start = 0 ∧ (st.logOf s).base = 0 := by
  simp only [bjmRead] at h
  split at h
  · contradiction
  rename_i log hget
  obtain ⟨-, -, rfl⟩ := subjectGet_logOf hget
  by_cases hzero : start = 0
  · refine .inr ⟨hzero, ?_⟩
    by_contra hbase
    have hlow : 1 ≤ (st.logOf s).base := Nat.pos_of_ne_zero hbase
    simp [hzero, hlow] at h
  · refine .inl (Nat.lt_of_not_le fun hlow => ?_)
    simp [hzero, hlow] at h

/-- Settling where a consumer reads on writes receipts only. -/
theorem Store.logs_readReceipt (st : Store) (s c : Bytes) (req : Request) :
    (st.readReceipt s c req).2.logs = st.logs := by
  have hset : ∀ {x y : Store} {n : ℕ}, x.bjmCursorSet s c n = .ok y → y.logs = x.logs := by
    intro x y n h
    rw [bjmCursorSet_same h]
  simp only [readReceipt]
  split
  · rfl
  rename_i st₁ hack
  have hacked : st₁.logs = st.logs := by
    split at hack
    · exact hset hack
    · rw [Except.ok.inj hack]
  split
  · exact hacked
  · exact hacked
  · split
    · exact hacked
    · rename_i st₂ hbegin
      exact (hset hbegin).trans hacked

namespace App

variable {H : Host} {b : App} {now : ℕ} {req : Request} {es : List Entry}

/-- The messages of a read lie in the log from an index above its base on. -/
theorem batch_readAnswer {V : Vendor} {st : Store} {s : Bytes} {start max skipped : ℕ}
    {acked : Option ℕ} (h : (readAnswer V st s start max skipped acked).payload = .batch es) :
    ∃ count, es = st.readEntries s start count ∧ ((st.logOf s).base < start ∨
      start = 0 ∧ (st.logOf s).base = 0) := by
  simp only [readAnswer] at h
  split at h
  · contradiction
  · contradiction
  · rename_i count last hread
    exact ⟨count, (Payload.batch.inj h).symm, bjmRead_above hread⟩

end App

/-- Only the routes that read a log answer with its messages. -/
theorem Handler.bare {H : Host} {b : App} {now : ℕ} {req : Request} {h : Handler}
    (hs : h ≠ hSubscribe) (hd : h ≠ hDead) : (h.run H b now req).1.Bare := by
  cases h with
  | hSubscribe => exact absurd rfl hs
  | hDead => exact absurd rfl hd
  | hPublish => exact .answer _
  | hPushDelete =>
    simp only [run, App.hPushDelete, App.unregistration]
    split
    · rename_i a hc
      split at hc
      · rename_i a' hn
        obtain rfl := Except.error.inj hc
        exact .name hn
      · rw [← Except.error.inj hc]
        exact .err _ _
      · contradiction
    · split <;> exact .bj _
  | _ =>
    simp only [run, App.hPushPut, App.hPushList, App.hAck, App.hTrim, App.hTake, App.hDone,
      App.hFail, App.hJobEnd, App.hRequeue, App.hQueues, App.hQueueConfig, App.hQueueDelete,
      App.hConsumers, App.hUnsubscribe, App.hInfo, App.hPolicyGet, App.hPolicyPut,
      App.hPolicyDelete, App.hPolicies, App.hSubjects, App.hHealth]
    repeat' split
    all_goals
      first
      | exact .err _ _
      | exact .bj _
      | exact .subject (by assumption)
      | exact .consumer (by assumption)
      | exact .queue (by assumption)
      | exact .registration (by assumption)
      | contradiction

/-- Messages are answered by a read, from an index above the base of the log on. -/
theorem Handler.batch_read {H : Host} {b : App} {now : ℕ} {req : Request} {h : Handler}
    {es : List Entry} (hbody : (h.run H b now req).1.payload = .batch es) :
    ∃ s start count, h.ReadsOf req s ∧ es = b.store.readEntries s start count ∧
      ((b.store.logOf s).base < start ∨ start = 0 ∧ (b.store.logOf s).base = 0) := by
  cases h with
  | hSubscribe =>
    simp only [run, App.hSubscribe] at hbody
    split at hbody
    · rename_i a hs
      exact absurd hbody (Response.Bare.subject hs es)
    rename_i s hs
    split at hbody
    · contradiction
    split at hbody
    · rename_i a hc
      exact absurd hbody (Response.Bare.name hc es)
    · rename_i consumer hc
      split at hbody
      · rename_i a st hread
        exact absurd hbody (Response.Bare.receipt hread es)
      · rename_i acked st hread
        obtain ⟨count, hes, hlow⟩ := App.batch_readAnswer hbody
        have hlog : st.logOf s = b.store.logOf s := by
          have hlogs : st.logs = b.store.logs := by
            simpa only [hread] using b.store.logs_readReceipt s consumer req
          simp only [logOf, hlogs]
        simp only [readEntries, hlog] at hes hlow
        exact ⟨s, _, count, hs, hes, hlow⟩
    · split at hbody
      · obtain ⟨count, hes, hlow⟩ := App.batch_readAnswer hbody
        exact ⟨s, _, count, hs, hes, hlow⟩
      · obtain ⟨count, hes, hlow⟩ := App.batch_readAnswer hbody
        exact ⟨s, _, count, hs, hes, hlow⟩
  | hDead =>
    simp only [run, App.hDead] at hbody
    split at hbody
    · rename_i a hs
      exact absurd hbody (Response.Bare.subject hs es)
    rename_i s hs
    split at hbody
    · contradiction
    split at hbody
    · contradiction
    split at hbody
    · contradiction
    · contradiction
    · rename_i count last hread
      refine ⟨_, _, count, ⟨s, hs, rfl⟩, (Payload.batch.inj hbody).symm, ?_⟩
      exact bjmRead_above hread
  | _ => exact absurd hbody (bare (by simp) (by simp) es)

end SukkalMsg
