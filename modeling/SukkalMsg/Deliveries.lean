import Mathlib.Data.List.Nodup
import SukkalMsg.PusherSteps

/-!
# What a delivery holds

A batch starts right behind the receipt, or at the log's first message when the
receipt lies below it, and holds consecutive messages. A lease holds jobs whose
messages exist. Either is described in the subscription it is sent for, and stays
described there until its reply.
-/

namespace SukkalMsg

open Std Names Binjson OrderedScan BoundedTable Store

/-- The batch a subscription describes lies right behind its receipt. -/
structure Store.Behind (st : Store) (s : Psub) : Prop where
  first : s.first = max (st.receiptOf s.subject s.consumer) (st.logOf s.subject).base + 1
  nonempty : s.first ≤ s.last
  within : s.last ≤ (st.logOf s.subject).last
  contiguous : ∃ es, s.body = .batch es ∧ es.length = s.last + 1 - s.first ∧
    ∀ k, k < es.length → es[k]? = (st.logOf s.subject).get (s.first + k)

/-- A table that is moved leaves its names readable where they stood. -/
def Vendor.KeepsNames (V : Vendor) : Prop := ∀ st name, V.stale st name = name

/-- The jobs a subscription describes have their messages in the log they were leased from, which
is its subject's if that was read as it stood. -/
structure Store.Leased (V : Vendor) (st : Store) (s : Psub) : Prop where
  some : s.jobs ≠ []
  first : s.first = s.jobs.headD 0
  last : s.last = s.jobs.getLastD 0
  words : ∀ j ∈ s.jobs, j < 2 ^ 64
  under : ∃ name, slash ∉ name ∧ (∀ j ∈ s.jobs, j ≤ (st.logOf name).last) ∧
    (V.KeepsNames → s.subject = name)

/-- What is described is a batch, or jobs of the group. -/
structure Store.Describes (V : Vendor) (st : Store) (s : Psub) : Prop where
  subject : s.cfg.group = [] → slash ∉ s.subject
  batch : s.cfg.group = [] → st.Behind s
  lease : s.cfg.group ≠ [] → st.Leased V s

theorem Store.Leased.last_mem {V : Vendor} {st : Store} {s : Psub} (h : st.Leased V s) :
    s.last ∈ s.jobs := by
  rw [h.last, List.getLastD_eq_getLast?, List.getLast?_eq_some_getLast h.some]
  exact List.getLast_mem h.some

namespace Store.Describes

variable {V : Vendor} {st : Store} {s : Psub}

theorem within (h : st.Describes V s) (hV : s.cfg.group = [] ∨ V.KeepsNames) :
    slash ∉ s.subject ∧ s.last ≤ (st.logOf s.subject).last := by
  by_cases hg : s.cfg.group = []
  · exact ⟨h.subject hg, (h.batch hg).within⟩
  · obtain ⟨name, hslash, hin, hkept⟩ := (h.lease hg).under
    obtain rfl := hkept (hV.resolve_left hg)
    exact ⟨hslash, hin _ (h.lease hg).last_mem⟩

theorem ends (h : st.Describes V s) : s.last < 2 ^ 64 ∨ s.last ≤ (st.logOf s.subject).last := by
  by_cases hg : s.cfg.group = []
  · exact .inr (h.batch hg).within
  · exact .inl ((h.lease hg).words _ (h.lease hg).last_mem)

theorem sent (h : st.Describes V s) (count : ℕ) :
    st.Describes V { s.prepared count with inflight := true } where
  subject := h.subject
  batch hg := ⟨(h.batch hg).first, (h.batch hg).nonempty, (h.batch hg).within,
    (h.batch hg).contiguous⟩
  lease hg := ⟨(h.lease hg).some, (h.lease hg).first, (h.lease hg).last, (h.lease hg).words,
    (h.lease hg).under⟩

end Store.Describes

private theorem foldl_jobRecord (j : Job) (g : Bytes × List ℕ) :
    (jobRecord j).foldl jobVisit g =
      (ascii "payload", if g.2.length < BJM_PUSH_JOBS_MAX then g.2 ++ [u64 j.index] else g.2) := by
  obtain ⟨k, l⟩ := g
  have hkeys : ascii "attempts" ≠ ascii "index" ∧ ascii "expires_ms" ≠ ascii "index" ∧
      ascii "type" ≠ ascii "index" := by decide
  have hbuf : keyBuf 16 (ascii "index") = ascii "index" ∧
      keyBuf 16 (ascii "attempts") = ascii "attempts" ∧
      keyBuf 16 (ascii "expires_ms") = ascii "expires_ms" ∧
      keyBuf 16 (ascii "type") = ascii "type" ∧
      keyBuf 16 (ascii "payload") = ascii "payload" := by decide
  simp only [jobRecord, List.foldl_cons, List.foldl_nil, jobVisit, putInt, hbuf.1, hbuf.2.1,
    hbuf.2.2.1, hbuf.2.2.2.1, hbuf.2.2.2.2, ofDouble_toInt64_eq, hkeys.1, hkeys.2.1, hkeys.2.2,
    true_and, false_and, if_false]
  split <;> rfl

private theorem foldl_jobRecords (jobs : List Job) (g : Bytes × List ℕ) :
    ((jobs.flatMap jobRecord).foldl jobVisit g).2 =
      g.2 ++ (jobs.map fun j => u64 j.index).take (BJM_PUSH_JOBS_MAX - g.2.length) := by
  induction jobs generalizing g with
  | nil => simp
  | cons j jobs ih =>
    rw [List.flatMap_cons, List.foldl_append, foldl_jobRecord j, ih]
    dsimp only
    split
    · rename_i hroom
      obtain ⟨n, hn⟩ : ∃ n, BJM_PUSH_JOBS_MAX - g.2.length = n + 1 :=
        ⟨BJM_PUSH_JOBS_MAX - g.2.length - 1, by omega⟩
      have hleft : BJM_PUSH_JOBS_MAX - (g.2 ++ [u64 j.index]).length = n := by
        rw [List.length_append, List.length_singleton]
        omega
      rw [hleft, hn, List.map_cons, List.take_succ_cons, List.append_assoc, List.singleton_append]
    · rename_i hfull
      have hnone : BJM_PUSH_JOBS_MAX - g.2.length = 0 := by omega
      rw [hnone, List.take_zero, List.take_zero]

theorem grabJobs_takeRecord {jobs : List Job} (hr : Readable (takeRecord jobs)) :
    grabJobs (takeRecord jobs) = (jobs.map fun j => u64 j.index).take BJM_PUSH_JOBS_MAX := by
  have hall : (takeRecord jobs).takeWhile (fun it => decide it.Safe) = takeRecord jobs :=
    List.takeWhile_eq_self_iff.mpr fun it hit => decide_eq_true (hr it hit)
  have hfold := foldl_jobRecords jobs (([], []) : Bytes × List ℕ)
  rw [grabJobs, hall]
  simp only [takeRecord, List.foldl_append, List.foldl_cons, List.foldl_nil, jobVisit,
    List.cons_append]
  rw [hfold]
  simp

namespace Scan

variable {V : Vendor} {clock : ℕ} {a b : Scan}

/-- Skipping leaves the receipt and the log where they allow a batch to begin. -/
theorem skipTrimmed_max (ha : a.Sound) {name : Bytes} (hn : slash ∉ name) {found : Option ℕ}
    (hget : a.store.bjmCursorGet name a.sub.consumer = .ok found) :
    let b := a.skipTrimmed name (found.getD 0) (a.store.logOf name).base
    b.sub = a.sub ∧ b.store.logs = a.store.logs ∧
      max (b.store.receiptOf name a.sub.consumer) (b.store.logOf name).base =
        max (found.getD 0) (a.store.logOf name).base := by
  have hr : a.store.receiptOf name a.sub.consumer = found.getD 0 := by
    cases found with
    | none => exact receiptOf_of_get_none hget
    | some n => exact receiptOf_of_get hget
  have hs := searched_skipTrimmed ha hn hget
  have hrec := hs.store.receipt name a.sub.consumer hn
  have hbase := hs.store.base name
  refine ⟨?_, ?_, ?_⟩
  · simp only [skipTrimmed]
    split
    · split <;> rfl
    · rfl
  · simp only [skipTrimmed]
    split
    · split
      · rfl
      · rename_i hset
        rcases bjmCursorSet_eq hset with ⟨rfl, -⟩ | ⟨rfl, -⟩ <;> rfl
    · rfl
  · omega

/-- What `bjm_read` packs, described in the subscription. -/
theorem behind_readBatch {i : ℕ} {name : Bytes} {acked count : ℕ}
    (hacked : acked = max (a.store.receiptOf name a.sub.consumer) (a.store.logOf name).base)
    (h : a.readBatch V i name acked = (b, some count)) :
    b.store.Behind b.sub ∧ b.sub.subject = name := by
  simp only [readBatch] at h
  split at h
  · simp at h
  · rename_i n logLast hread
    split at h
    · simp at h
    rename_i hpos
    obtain ⟨rfl, -⟩ := Prod.mk.inj h
    simp only [bjmRead] at hread
    split at hread
    · contradiction
    rename_i log hget
    obtain ⟨-, -, rfl⟩ := subjectGet_logOf hget
    have hstart : (if acked + 1 = 0 then 1 else acked + 1) = acked + 1 := by simp
    rw [hstart] at hread
    split at hread
    · contradiction
    rename_i hbase
    obtain ⟨hn, -⟩ := Prod.mk.inj (Except.ok.inj hread)
    have hle : n ≤ (a.store.logOf name).last + 1 - (acked + 1) := by
      rw [← hn]
      exact Nat.min_le_right _ _
    have hlen : ((a.store.logOf name).entries.drop (acked - (a.store.logOf name).base)).length =
        (a.store.logOf name).last - acked := by
      rw [List.length_drop, Elog.last]
      omega
    refine ⟨⟨by simp only [hacked], ?_, ?_, _, rfl, ?_, fun k hk => ?_⟩, rfl⟩
    · dsimp only
      omega
    · dsimp only
      omega
    · rw [List.length_take, hlen]
      dsimp only
      omega
    · rw [List.length_take] at hk
      have hidx : acked + 1 + k - (a.store.logOf name).base - 1 =
          acked - (a.store.logOf name).base + k := by omega
      have hnot : ¬ acked + 1 + k ≤ (a.store.logOf name).base := by omega
      dsimp only
      rw [List.getElem?_take, if_pos (by omega), List.getElem?_drop]
      simp only [Elog.get, hnot, if_false, hidx]

theorem behind_offerBatch (ha : a.Sound) {i : ℕ} {name : Bytes} (hn : slash ∉ name) {count : ℕ}
    (h : a.offerBatch V i name = (b, some count)) :
    b.store.Behind b.sub ∧ b.sub.subject = name := by
  simp only [offerBatch] at h
  split at h
  · simp at h
  · rename_i base last bytes hinfo
    obtain ⟨-, rfl, rfl⟩ := subjectInfo_eq hinfo
    split at h
    · simp at h
    rename_i found hget
    split at h
    · simp at h
    split at h
    · simp at h
    obtain ⟨hsub, -, hmax⟩ := skipTrimmed_max ha hn hget
    refine behind_readBatch ?_ h
    rw [hsub]
    exact hmax.symm

theorem takenJobs_within {now lease : ℕ} {log : Elog} {chosen : List (ℕ × ℕ)} :
    ∀ j ∈ takenJobs now lease log chosen, j.index ≤ log.last := by
  intro j hj
  obtain ⟨c, -, hc⟩ := List.mem_filterMap.mp hj
  cases hg : log.get c.1 with
  | none => simp [hg] at hc
  | some e =>
    rw [hg] at hc
    obtain rfl := Option.some.inj hc
    exact (Elog.get_isSome_iff.mp (by rw [hg]; rfl)).2

/-- A take that moves the names has published to a channel whose name fits. -/
theorem length_of_movedTo {a : Scan} {st : Store} {name : Bytes} {ds : List (ℕ × ℕ)}
    (h : movedTo a.push (a.push.notifyDead st name ds) = true) : name.length ≤ BJM_SUBJECT_MAX := by
  simp only [Pusher.notifyDead] at h
  split at h
  · simp [movedTo] at h
  · rename_i channel hd
    simp only [deadSubjectOf] at hd
    split at hd
    · contradiction
    · split at hd
      · contradiction
      · rename_i hfits
        simp only [Bool.or_eq_true, decide_eq_true_eq, not_or, ge_iff_le, Nat.not_le,
          List.length_append] at hfits
        omega

theorem cut_of_length {cap : ℕ} {s : Bytes} (h : s.length < cap) : cut cap s = s :=
  List.take_of_length_le (by omega)

theorem reread_of_keepsNames (hV : V.KeepsNames) (name : Bytes) : a.reread V b name = name := by
  simp only [reread, hV b.store name, ite_self]

theorem subject_of_keepsNames (hV : V.KeepsNames) (st : Store) (name : Bytes) (ds : List (ℕ × ℕ)) :
    (if movedTo a.push (a.push.notifyDead st name ds) then
      cut (BJM_SUBJECT_MAX + 1) (a.reread V b name) else name) = name := by
  split
  · rename_i hmoved
    rw [reread_of_keepsNames hV, cut_of_length (Nat.lt_succ_of_le (length_of_movedTo hmoved))]
  · rfl

theorem leased_offerJobs {i : ℕ} {name : Bytes} (hn : slash ∉ name) {count : ℕ}
    (h : a.offerJobs V clock i name = (b, some count)) : b.store.Leased V b.sub := by
  simp only [offerJobs] at h
  split at h
  · simp at h
  rename_i c n hc
  obtain ⟨rfl, -⟩ := Prod.mk.inj h
  simp only [takeBatch] at hc
  split at hc
  · simp at hc
  rename_i t ht
  split at hc
  · simp at hc
  split at hc
  · rename_i hjobs hr
    obtain ⟨rfl, -⟩ := Prod.mk.inj hc
    obtain ⟨log, q, existed, plan, hget, -, -, hj, -, -⟩ := bjmTakeVia_eq ht
    obtain ⟨-, -, rfl⟩ := subjectGet_logOf hget
    have hin : ∀ j ∈ t.jobs, j.index ≤ (a.store.logOf name).last := by
      rw [hj]
      exact takenJobs_within
    refine ⟨hr.2, rfl, rfl, fun j hm => ?_, name, hn, fun j hm => ?_, fun hV => ?_⟩
    · dsimp only at hm
      rw [grabJobs_takeRecord hr.1] at hm
      obtain ⟨x, -, rfl⟩ := List.mem_map.mp (List.mem_of_mem_take hm)
      exact u64_lt _
    · dsimp only at hm
      rw [grabJobs_takeRecord hr.1] at hm
      obtain ⟨x, hx, rfl⟩ := List.mem_map.mp (List.mem_of_mem_take hm)
      exact Nat.le_trans (Nat.mod_le _ _) (Nat.le_trans (hin x hx) ((passed_take ht).last_le name))
    · exact subject_of_keepsNames hV _ name _
  · simp at hc

theorem describes_offer (ha : a.Sound) {i : ℕ} {name : Bytes} (hn : slash ∉ name) {count : ℕ}
    (h : a.offer V clock i name = (b, some count)) : b.store.Describes V b.sub := by
  have hs := searched_offer V clock ha i hn
  rw [h] at hs
  simp only [offer] at h
  split at h
  · rename_i hg
    have hg' : ¬ b.sub.cfg.group = [] := fun heq => absurd (hs.sub.cfg_eq ▸ heq) hg
    exact ⟨fun heq => absurd heq hg', fun heq => absurd heq hg', fun _ => leased_offerJobs hn h⟩
  · rename_i hg
    obtain ⟨hb, rfl⟩ := behind_offerBatch ha hn h
    rw [not_not] at hg
    exact ⟨fun _ => hn, fun _ => hb, fun hg' => absurd (hs.sub.cfg_eq ▸ hg) hg'⟩

theorem describes_loop (ha : a.Sound) {fuel n count : ℕ}
    (h : loop V clock fuel n a = (b, some count)) : b.store.Describes V b.sub := by
  induction fuel generalizing a n with
  | zero => simp [loop] at h
  | succ fuel ih =>
    simp only [loop] at h
    split at h
    · have hname := names_getD ha.names ((a.sub.rr + n) % a.push.names.length)
      split at h
      · have hoffer := searched_offer V clock ha
          ((a.sub.rr + n) % a.push.names.length) hname
        split at h
        · rename_i c hc
          rw [hc] at hoffer
          exact ih (hoffer.sound ha) h
        · rename_i c m hc
          obtain ⟨rfl, -⟩ := Prod.mk.inj h
          exact describes_offer ha hname hc
      · exact ih ha h
    · simp at h

variable (V clock) in
theorem describes_search (ha : a.Sound) {count : ℕ} (h : a.search V clock = (b, some count)) :
    b.store.Describes V b.sub :=
  describes_loop (a := { a with sub := { a.sub with wakeMs := 0 } }) ⟨ha.names, ha.base⟩ h

end Scan

/-- A pass asks the subscription: it is there, idle, and not in backoff. -/
structure Psub.Eligible (now : ℕ) (s : Psub) : Prop where
  here : s.gone = false
  idle : s.inflight = false
  due : s.dueMs ≤ now

/-- How a pass leaves one subscription, and what it has sent for it. -/
inductive PumpTurn (V : Vendor) (now : ℕ) (s : Psub) : Psub → List Sent → Prop
  | skipped (h : ¬ s.Eligible now) : PumpTurn V now s s []
  | asked {s' : Psub} (h : s.Eligible now) (ha : s.Asked s') (hf : s'.inflight = false) :
    PumpTurn V now s s' []
  | sent {d : Sent} (h : s.Eligible now) (ha : s.Asked d.sub) (hf : d.sub.inflight = true)
    (hint : d.sub.ackHint = none) (hdone : d.sub.doneList = none)
    (hd : d.store.Describes V d.sub) : PumpTurn V now s d.sub [d]

/-- How a pass leaves the table. -/
inductive PumpTurns (V : Vendor) (now : ℕ) : List Psub → List Psub → List Sent → Prop
  | nil : PumpTurns V now [] [] []
  | cons {s s' : Psub} {ss ss' : List Psub} {ds ds' : List Sent} (h : PumpTurn V now s s' ds)
    (hs : PumpTurns V now ss ss' ds') : PumpTurns V now (s :: ss) (s' :: ss') (ds ++ ds')

theorem PumpTurn.toAsked {V : Vendor} {now : ℕ} {s s' : Psub} {ds : List Sent}
    (h : PumpTurn V now s s' ds) : s.Asked s' := by
  cases h with
  | skipped _ => exact .refl
  | asked _ ha _ => exact ha
  | sent _ ha _ _ _ _ => exact ha

theorem PumpTurn.sent_inv {V : Vendor} {now : ℕ} {s s' : Psub} {l : List Sent} {d : Sent}
    (h : PumpTurn V now s s' l) (hd : d ∈ l) : s.Eligible now ∧ s.Asked d.sub ∧ d.sub = s' ∧
      s'.inflight = true ∧ s'.ackHint = none ∧ s'.doneList = none ∧ d.store.Describes V d.sub := by
  cases h with
  | skipped _ => exact absurd hd List.not_mem_nil
  | asked _ _ _ => exact absurd hd List.not_mem_nil
  | sent h ha hf hint hdone hdesc =>
    obtain rfl := List.mem_singleton.mp hd
    exact ⟨h, ha, rfl, hf, hint, hdone, hdesc⟩

namespace PumpTurns

variable {V : Vendor} {now : ℕ} {ss ss' : List Psub} {ds : List Sent}

theorem ids (h : PumpTurns V now ss ss' ds) : ss'.map Psub.id = ss.map Psub.id := by
  induction h with
  | nil => rfl
  | cons h _ ih =>
    rw [List.map_cons, List.map_cons, ih, h.toAsked.id_eq]

theorem turn_of_mem (h : PumpTurns V now ss ss' ds) {s' : Psub} (hs : s' ∈ ss') :
    ∃ s ∈ ss, ∃ l, PumpTurn V now s s' l ∧ l ⊆ ds := by
  induction h with
  | nil => exact absurd hs List.not_mem_nil
  | @cons s t ss ss' l ls h _ ih =>
    rcases List.mem_cons.mp hs with rfl | hs
    · exact ⟨s, List.mem_cons_self, l, h, List.subset_append_left _ _⟩
    · obtain ⟨u, hu, l', ht, hl⟩ := ih hs
      exact ⟨u, List.mem_cons_of_mem _ hu, l', ht, List.subset_append_of_subset_right _ hl⟩

theorem turn_of_mem_left (h : PumpTurns V now ss ss' ds) {s : Psub} (hs : s ∈ ss) :
    ∃ s' ∈ ss', ∃ l, PumpTurn V now s s' l ∧ l ⊆ ds := by
  induction h with
  | nil => exact absurd hs List.not_mem_nil
  | @cons u t ss ss' l ls h _ ih =>
    rcases List.mem_cons.mp hs with rfl | hs
    · exact ⟨t, List.mem_cons_self, l, h, List.subset_append_left _ _⟩
    · obtain ⟨v, hv, l', ht, hl⟩ := ih hs
      exact ⟨v, List.mem_cons_of_mem _ hv, l', ht, List.subset_append_of_subset_right _ hl⟩

theorem turn_of_sent (h : PumpTurns V now ss ss' ds) {d : Sent} (hd : d ∈ ds) :
    d.sub ∈ ss' ∧ ∃ s ∈ ss, PumpTurn V now s d.sub [d] := by
  induction h with
  | nil => exact absurd hd List.not_mem_nil
  | @cons s t ss ss' l ls h _ ih =>
    rcases List.mem_append.mp hd with hd | hd
    · cases h with
      | skipped h => exact absurd hd List.not_mem_nil
      | asked h ha hf => exact absurd hd List.not_mem_nil
      | sent h ha hf hint hdone hdesc =>
        obtain rfl := List.mem_singleton.mp hd
        exact ⟨List.mem_cons_self, s, List.mem_cons_self, .sent h ha hf hint hdone hdesc⟩
    · obtain ⟨hm, u, hu, ht⟩ := ih hd
      exact ⟨List.mem_cons_of_mem _ hm, u, List.mem_cons_of_mem _ hu, ht⟩

theorem sent_ids (h : PumpTurns V now ss ss' ds) :
    (ds.map fun d => d.sub.id).Sublist (ss.map Psub.id) := by
  induction h with
  | nil => exact List.Sublist.refl _
  | @cons s t ss ss' l ls h _ ih =>
    rw [List.map_append, List.map_cons]
    cases h with
    | skipped h => exact ih.cons _
    | asked h ha hf => exact ih.cons _
    | sent h ha hf hint hdone hdesc =>
      rw [List.map_singleton, ha.id_eq]
      exact ih.cons_cons _

theorem find_sent (h : PumpTurns V now ss ss' ds) (hids : (ss.map Psub.id).Nodup) {d : Sent}
    (hd : d ∈ ds) : ds.reverse.find? (·.sub.id == d.sub.id) = some d := by
  cases hf : ds.reverse.find? (·.sub.id == d.sub.id) with
  | none =>
    have := List.find?_eq_none.mp hf d (List.mem_reverse.mpr hd)
    simp at this
  | some e =>
    have he : e ∈ ds := List.mem_reverse.mp (List.mem_of_find?_eq_some hf)
    have hid : e.sub.id = d.sub.id := by simpa using List.find?_some hf
    rw [List.inj_on_of_nodup_map (hids.sublist h.sent_ids) he hd hid]

end PumpTurns

/-- What a pass does to the engine: it learns of channels and counts its deliveries. -/
structure Pusher.Pumped (sent : List Sent) (p p' : Pusher) : Prop where
  same : p' = { p with
    names := p'.names
    work := p'.work
    inflight := p.inflight + sent.length }
  names : ∃ l, p'.names = p.names ++ l ∧ ∀ name ∈ l, slash ∉ name
  work : p.work = true → p'.work = true

namespace Pusher.Pumped

variable {ds ds' : List Sent} {p p' p'' : Pusher}

theorem refl : Pusher.Pumped [] p p := ⟨rfl, ⟨[], by simp⟩, fun h => h⟩

theorem trans (h : Pusher.Pumped ds p p') (h' : Pusher.Pumped ds' p' p'') :
    Pusher.Pumped (ds ++ ds') p p'' := by
  obtain ⟨l, hl, hs⟩ := h.names
  obtain ⟨l', hl', hs'⟩ := h'.names
  refine ⟨?_, ⟨l ++ l', by rw [hl', hl, List.append_assoc], fun name hname => ?_⟩,
    fun hw => h'.work (h.work hw)⟩
  · rw [h'.same, h.same, List.length_append, ← Nat.add_assoc]
  · rcases List.mem_append.mp hname with hname | hname
    · exact hs name hname
    · exact hs' name hname

theorem slash_notMem (h : Pusher.Pumped ds p p') (hp : ∀ name ∈ p.names, slash ∉ name) :
    ∀ name ∈ p'.names, slash ∉ name := by
  obtain ⟨l, hl, hs⟩ := h.names
  intro name hname
  rw [hl] at hname
  rcases List.mem_append.mp hname with hname | hname
  · exact hp name hname
  · exact hs name hname

end Pusher.Pumped

namespace Scan

variable {V : Vendor} {clock : ℕ} {send : Psub → Bool} {a : Scan}

variable (V clock send) in
/-- Asking one subscription: nothing is found, the transport refuses, or it is sent. -/
theorem startDelivery_cases :
    let b := (a.search V clock).1
    (a.startDelivery V clock send = (false, b) ∧ (a.search V clock).2 = none) ∨
      ∃ count, (a.search V clock).2 = some count ∧
        ((b.push.xfer && send (b.sub.prepared count)) = false ∧
            a.startDelivery V clock send = (false, { b with sub := b.sub.prepared count }) ∨
          (b.push.xfer && send (b.sub.prepared count)) = true ∧
            a.startDelivery V clock send = (true,
              { b with
                sub := { b.sub.prepared count with inflight := true }
                push.inflight := b.push.inflight + 1 })) := by
  simp only [startDelivery]
  cases h : a.search V clock with
  | mk b r =>
    cases r with
    | none => exact .inl ⟨rfl, rfl⟩
    | some count =>
      refine .inr ⟨count, rfl, ?_⟩
      simp only [sendBatch]
      cases hs : b.push.xfer && send (b.sub.prepared count) with
      | false => exact .inl ⟨rfl, by simp⟩
      | true => exact .inr ⟨rfl, by simp⟩

end Scan

namespace Pass

variable {V : Vendor} {send : Psub → Bool} {now clock : ℕ}

/-- A pass may go on from here. -/
structure Sound (t : Pass) : Prop where
  names : ∀ name ∈ t.push.names, slash ∉ name
  base : ∀ s, (t.store.logOf s).base < 2 ^ 64

@[simp] theorem waitFor_store (t : Pass) (due : ℕ) : (t.waitFor due).store = t.store := rfl
@[simp] theorem waitFor_push (t : Pass) (due : ℕ) : (t.waitFor due).push = t.push := rfl
@[simp] theorem waitFor_sent (t : Pass) (due : ℕ) : (t.waitFor due).sent = t.sent := rfl
@[simp] theorem waitFor_started (t : Pass) (due : ℕ) : (t.waitFor due).started = t.started := rfl

/-- The live subscriptions of a table, by name. -/
def Live (ss : List Psub) (c : Bytes) : Prop := ∃ s ∈ ss, s.gone = false ∧ s.consumer = c

theorem ask_of_start {t : Pass} {s : Psub} {started : Bool} {a : Scan} (h : s.Eligible now)
    (hs : Scan.startDelivery V clock send ⟨t.store, t.push, s⟩ = (started, a)) :
    (t.ask V send now clock s).2 = a.sub ∧ (t.ask V send now clock s).1.store = a.store ∧
      (t.ask V send now clock s).1.push = a.push ∧
      (t.ask V send now clock s).1.started = (if started then t.started + 1 else t.started) ∧
      (t.ask V send now clock s).1.sent =
        if started then t.sent ++ [⟨a.store, a.sub⟩] else t.sent := by
  have hdue : ¬ now < s.dueMs := Nat.not_lt.mpr h.due
  simp only [ask, h.here, h.idle, hdue, hs, Bool.false_eq_true, if_false]
  refine ⟨trivial, ?_, ?_, ?_, ?_⟩ <;> split <;> rfl

variable (V send clock) in
theorem ask_of_not_eligible {t : Pass} {s : Psub} (h : ¬ s.Eligible now) :
    (t.ask V send now clock s).2 = s ∧ (t.ask V send now clock s).1.store = t.store ∧
      (t.ask V send now clock s).1.push = t.push ∧
      (t.ask V send now clock s).1.started = t.started ∧
      (t.ask V send now clock s).1.sent = t.sent := by
  simp only [ask]
  split
  · exact ⟨rfl, rfl, rfl, rfl, rfl⟩
  split
  · exact ⟨rfl, rfl, rfl, rfl, rfl⟩
  split
  · exact ⟨rfl, rfl, rfl, rfl, rfl⟩
  rename_i hgone hidle hdue
  exact absurd ⟨by simpa using hgone, by simpa using hidle, by omega⟩ h

variable (V send now clock) in
/-- What one turn does. -/
theorem ask_pumpTurn {t : Pass} (ht : t.Sound) (s : Psub) :
    ∃ ds, (t.ask V send now clock s).1.sent = t.sent ++ ds ∧
      PumpTurn V now s (t.ask V send now clock s).2 ds ∧
      Passed (Live [s]) t.store (t.ask V send now clock s).1.store ∧
      t.push.Pumped ds (t.ask V send now clock s).1.push ∧
      (t.ask V send now clock s).1.started = t.started + ds.length ∧
      ∀ d ∈ ds, d.store = (t.ask V send now clock s).1.store := by
  by_cases helig : s.Eligible now
  · have hsound : Scan.Sound ⟨t.store, t.push, s⟩ := ⟨ht.names, ht.base⟩
    have hcases := Scan.startDelivery_cases V clock send (a := ⟨t.store, t.push, s⟩)
    have hsearch := Scan.searched_search V clock hsound
    have hdesc := fun (count : ℕ) (h : Scan.search V clock ⟨t.store, t.push, s⟩ =
      ((Scan.search V clock ⟨t.store, t.push, s⟩).1, some count)) =>
        Scan.describes_search V clock hsound h
    generalize hb : Scan.search V clock ⟨t.store, t.push, s⟩ = r at hcases hsearch hdesc
    obtain ⟨b, found⟩ := r
    have hstore : Passed (Live [s]) t.store b.store :=
      hsearch.store.mono fun c hc => ⟨s, List.mem_singleton_self s, helig.here, hc.symm⟩
    have hpush := hsearch.push
    have hidle : b.sub.inflight = false := hsearch.sub.inflight_eq.trans helig.idle
    rcases hcases with ⟨hstart, -⟩ | ⟨count, hfound, ⟨-, hstart⟩ | ⟨-, hstart⟩⟩
    · obtain ⟨h₁, h₂, h₃, h₄, h₅⟩ := ask_of_start helig hstart
      rw [h₁, h₂, h₃, h₄, h₅]
      exact ⟨[], by simp, .asked helig hsearch.sub.toAsked hidle, hstore,
        ⟨hpush.same, hpush.names, hpush.work⟩, rfl, by simp⟩
    · obtain ⟨h₁, h₂, h₃, h₄, h₅⟩ := ask_of_start helig hstart
      rw [h₁, h₂, h₃, h₄, h₅]
      exact ⟨[], by simp,
        .asked helig (hsearch.sub.toAsked.trans (Psub.asked_prepared _ count))
          ((Psub.prepared_inflight _ count).trans hidle), hstore, ⟨hpush.same, hpush.names, hpush.work⟩, rfl, by simp⟩
    · obtain ⟨h₁, h₂, h₃, h₄, h₅⟩ := ask_of_start helig hstart
      rw [h₁, h₂, h₃, h₄, h₅]
      refine ⟨[⟨b.store, { b.sub.prepared count with inflight := true }⟩], rfl, ?_, hstore, ?_,
        rfl, ?_⟩
      · exact PumpTurn.sent (d := ⟨b.store, { b.sub.prepared count with inflight := true }⟩) helig
          ((hsearch.sub.toAsked.trans (Psub.asked_prepared _ count)).trans (Psub.asked_flying _))
          rfl rfl rfl
          ((hdesc count (Prod.ext rfl hfound)).sent count)
      · refine ⟨?_, hpush.names, hpush.work⟩
        rw [hpush.same]
        rfl
      · intro d hd
        obtain rfl := List.mem_singleton.mp hd
        rfl
  · obtain ⟨h₁, h₂, h₃, h₄, h₅⟩ := ask_of_not_eligible V send clock (t := t) helig
    rw [h₁, h₂, h₃, h₄, h₅]
    exact ⟨[], by simp, .skipped helig, .refl, .refl, rfl, by simp⟩

theorem Sound.passed {t t' : Pass} {who : Bytes → Prop} {ds : List Sent} (ht : t.Sound)
    (hs : Passed who t.store t'.store) (hp : t.push.Pumped ds t'.push) : t'.Sound :=
  ⟨hp.slash_notMem ht.names, fun s => by rw [hs.base s]; exact ht.base s⟩

variable (V send now clock) in
/-- What a whole pass does. -/
theorem askAll_pumpTurns {t : Pass} (ht : t.Sound) (ss : List Psub) :
    ∃ ds, (askAll V send now clock t ss).1.sent = t.sent ++ ds ∧
      PumpTurns V now ss (askAll V send now clock t ss).2 ds ∧
      Passed (Live ss) t.store (askAll V send now clock t ss).1.store ∧
      t.push.Pumped ds (askAll V send now clock t ss).1.push ∧
      (askAll V send now clock t ss).1.started = t.started + ds.length ∧
      ∀ d ∈ ds, Passed (Live ss) t.store d.store ∧
        Passed (Live ss) d.store (askAll V send now clock t ss).1.store := by
  induction ss generalizing t with
  | nil => exact ⟨[], by simp [askAll], .nil, .refl, .refl, rfl, by simp⟩
  | cons s ss ih =>
    obtain ⟨ds, hsent, hturn, hstore, hpush, hstarted, hds⟩ :=
      ask_pumpTurn V send now clock ht s
    obtain ⟨ds', hsent', hturns, hstore', hpush', hstarted', hds'⟩ := ih (ht.passed hstore hpush)
    have hhead : ∀ c, Live [s] c → Live (s :: ss) c := by
      rintro c ⟨u, hu, hg, hc⟩
      exact ⟨u, List.mem_cons.mpr (.inl (List.mem_singleton.mp hu)), hg, hc⟩
    have htail : ∀ c, Live ss c → Live (s :: ss) c := by
      rintro c ⟨u, hu, hg, hc⟩
      exact ⟨u, List.mem_cons_of_mem _ hu, hg, hc⟩
    refine ⟨ds ++ ds', ?_, .cons hturn hturns, (hstore.mono hhead).trans (hstore'.mono htail),
      hpush.trans hpush', ?_, fun d hd => ?_⟩
    · simp only [askAll, hsent', hsent, List.append_assoc]
    · simp only [askAll, hstarted', hstarted, List.length_append, Nat.add_assoc]
    · rcases List.mem_append.mp hd with hd | hd
      · rw [hds d hd]
        exact ⟨hstore.mono hhead, hstore'.mono htail⟩
      · exact ⟨(hstore.mono hhead).trans ((hds' d hd).1.mono htail), (hds' d hd).2.mono htail⟩

end Pass

namespace App

variable {V : Vendor} {send : Psub → Bool} {now clock : ℕ} {b : App}

variable (V send now clock) in
/-- What a pump does: nothing while its work flag is down, else a pass. -/
theorem pump_cases (hn : ∀ name ∈ b.push.names, slash ∉ name) (hw : b.store.Words) :
    (b.push.work = false ∧
        b.pump V send now clock = ⟨pumpWait b.push 0 now, [], b⟩) ∨
      (b.push.work = true ∧ ∃ ss' ds st p' w,
        (b.pump V send now clock).sent = ds ∧
        (b.pump V send now clock).app = ⟨st, { p' with subs := ss', work := w }⟩ ∧
        PumpTurns V now b.push.subs ss' ds ∧
        Passed (Pass.Live b.push.subs) b.store st ∧ b.push.Pumped ds p' ∧
        ∀ d ∈ ds, Passed (Pass.Live b.push.subs) b.store d.store ∧
          Passed (Pass.Live b.push.subs) d.store st) := by
  simp only [pump]
  cases hwork : b.push.work with
  | false => exact .inl ⟨rfl, rfl⟩
  | true =>
    have hsound : Pass.Sound ⟨b.store, b.push, 0, false, 0, []⟩ :=
      ⟨hn, fun s => base_lt_of_words hw s⟩
    obtain ⟨ds, hsent, hturns, hstore, hpush, -, hds⟩ :=
      Pass.askAll_pumpTurns V send now clock hsound
        b.push.subs
    refine .inr ⟨rfl, (pumpPass V send now clock b).2, ds, (pumpPass V send now clock b).1.store,
      (pumpPass V send now clock b).1.push, _, ?_, rfl, hturns, hstore, hpush, hds⟩
    simpa [pumpPass] using hsent

end App

end SukkalMsg
