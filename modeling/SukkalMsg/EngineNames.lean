import SukkalMsg.Fairness
import SukkalMsg.PassRules

/-!
# The engine's names are the store's subjects

The engine keeps a list of names of its own. It begins as the listing of the store's
directory, and whoever makes a subject's log tells the engine of the subject. So at any
time of a run the list holds exactly the subjects that have a log.
-/

namespace SukkalMsg

open Std Names Binjson OrderedScan BoundedTable Store ActionRuns

/-- The engine knows every subject that has a log, and no other. -/
def App.Counts (b : App) : Prop :=
  ∀ x, bjmSubjectValid x = true → (x ∈ b.push.names ↔ x ∈ b.store.logs)

theorem App.Counts.of_same {b b' : App} (hb : b.Counts) (hn : b'.push.names = b.push.names)
    (hl : b'.store.logs = b.store.logs) : b'.Counts := by
  intro x hx
  rw [hn, hl]
  exact hb x hx

namespace Pusher

theorem mem_namesAdd_iff (p : Pusher) {name x : Bytes} (h : bjmSubjectValid name = true) :
    x ∈ (p.namesAdd name).names ↔ x ∈ p.names ∨ x = name := by
  rw [p.namesAdd_of_valid h]
  split
  · rename_i hmem
    exact ⟨.inl, fun h => h.elim id fun he => he ▸ hmem⟩
  · simp

theorem mem_notifyDead_iff (p : Pusher) {st : Store} {s x : Bytes} {ds : List (ℕ × ℕ)} :
    x ∈ (p.notifyDead st s ds).names ↔ x ∈ p.names ∨
      deadSubjectOf s = some x ∧ (ds.any fun d => ((st.logOf s).get d.1).isSome) = true := by
  simp only [notifyDead]
  cases hd : deadSubjectOf s with
  | none => simp
  | some dead =>
    dsimp only
    split
    · rename_i hany
      simp only [notify, p.mem_namesAdd_iff (deadSubjectOf_valid hd), hany, and_true,
        Option.some.injEq, eq_comm]
    · rename_i hany
      simp [hany]

end Pusher

namespace Store

variable {V : Vendor} {st st' : Store}

theorem mem_logs_deadLettersVia (now : ℕ) (again : Store → Bytes) {s g x : Bytes} {log : Elog}
    (hget : st.subjectGet s false = .ok log) (ds : List (ℕ × ℕ)) :
    x ∈ (st.deadLettersVia V now again s g ds).logs ↔ x ∈ st.logs ∨
      deadSubjectOf s = some x ∧ (ds.any fun d => (log.get d.1).isSome) = true := by
  rcases deadLettersVia_eq V now again s g ds st with ⟨hd, heq⟩ |
    ⟨dead, hd, hto, es, hlog, hes, hsame⟩
  · simp [heq, hd]
  rw [any_lettered hget] at hes
  simp only [hd, Option.some.injEq]
  by_cases hx : x = dead
  · subst hx
    simp only [true_and]
    by_cases hany : (ds.any fun d => (log.get d.1).isSome) = true
    · refine ⟨fun _ => .inr hany, fun _ => ?_⟩
      by_contra hnone
      have hempty : (st.deadLettersVia V now again s g ds).logOf x = ⟨0, []⟩ := by
        simp only [logOf, ExtTreeMap.getElem?_eq_none hnone, Option.getD_none]
      rw [hlog, Elog.mk.injEq, List.append_eq_nil_iff] at hempty
      rw [hes.mp hempty.2.2] at hany
      contradiction
    · rw [hsame (hes.mpr (by simpa using hany))]
      simp [hany]
  · rw [← ExtTreeMap.isSome_getElem?_iff_mem, ← ExtTreeMap.isSome_getElem?_iff_mem,
      hto.others x hx]
    simp [Ne.symm hx]

theorem mem_logs_trim {s : Bytes} {before base removed : ℕ} {force : Bool}
    (h : st.bjmTrim s before force = .ok (base, removed, st')) (x : Bytes) :
    x ∈ st'.logs ↔ x ∈ st.logs := by
  have hs : s ∈ st.logs := by
    simp only [bjmTrim] at h
    split at h
    · contradiction
    split at h
    · contradiction
    rename_i log hget
    rw [← ExtTreeMap.isSome_getElem?_iff_mem, (subjectGet_logOf hget).2.1]
    rfl
  rcases bjmTrim_store h with rfl | hm
  · exact Iff.rfl
  · rw [hm.logs_eq, ExtTreeMap.mem_insert]
    constructor
    · rintro (he | hx)
      · exact (Std.compare_eq_iff_eq.mp he) ▸ hs
      · exact hx
    · exact .inr

end Store

namespace App

variable {V : Vendor} {b : App}

theorem Counts.take (hb : b.Counts) {again : Store → Bytes} {now lease : ℕ} {s g : Bytes} {max : ℤ}
    {t : Taken} (h : b.store.bjmTakeVia V again now s g max lease = .ok t) :
    Counts ⟨t.store, b.push.notifyDead b.store s t.dead⟩ := by
  obtain ⟨log, q, existed, plan, hget, -, -, -, hdead, hst⟩ := bjmTakeVia_eq h
  obtain ⟨-, -, rfl⟩ := subjectGet_logOf hget
  intro x hx
  have hget' : ({ b.store with
      queues := b.store.queues.insert (pairKey s g) (queueRecord plan.q) } :
        Store).subjectGet s false = .ok (b.store.logOf s) := hget
  dsimp only
  rw [hst, b.push.mem_notifyDead_iff, mem_logs_deadLettersVia now again hget', hdead, hb x hx]

theorem counts_rule (V : Vendor) : PassRule V fun b b' => b.Counts → b'.Counts where
  same b b' hs hn hb := hb.of_same hn (by rw [hs])
  trans b b' b'' h h' hb := h' (h hb)
  take _ _ _ _ _ _ _ _ ht hb := hb.take ht
  skip b s c found st _ _ _ _ hset hb := hb.of_same rfl (by rw [bjmCursorSet_same hset])

/-- Whatever a step does, the engine knows the subjects with logs. -/
theorem Counts.apply (hb : b.Counts) (hn : ∀ name ∈ b.push.names, slash ∉ name)
    (hw : b.store.Words) {op : PushOp} (hop : op.Named) : (b.apply V op).2.Counts := by
  by_cases hq : op.Logging
  · cases op with
    | publish now subject e =>
      simp only [App.apply, publish]
      split
      · exact hb
      · rename_i index st hpub
        obtain ⟨-, hlogs, -⟩ := bjmPublish_eq hpub
        intro x hx
        have hadd := b.push.mem_namesAdd_iff (x := x) hop
        simp only [Pusher.notify, hadd, hlogs, ExtTreeMap.mem_insert, hb x hx]
        rw [Std.compare_eq_iff_eq, or_comm, eq_comm]
    | take now subject group max lease =>
      simp only [App.apply, App.take]
      split
      · exact hb
      · exact hb.take ‹_›
    | trim subject before force =>
      simp only [App.apply]
      cases hr : b.store.bjmTrim subject before force with
      | error e => exact hb
      | ok r =>
        intro x hx
        exact (hb x hx).trans (mem_logs_trim hr x).symm
    | pump send now clock =>
      exact ((counts_rule V).pump send now clock hn hw).1 hb
    | ack => exact hq.elim
    | unsubscribe => exact hq.elim
    | done => exact hq.elim
    | fail => exact hq.elim
    | put => exact hq.elim
    | delete => exact hq.elim
    | delivered => exact hq.elim
  · exact hb.of_same (names_apply hq) (logs_apply hq)

end App

/-- A listing of the store's directory: the logs it shows are the logs there are. -/
structure Store.Directory (st : Store) (listing : List Bytes) : Prop where
  plain : ∀ e ∈ listing, slash ∉ e
  logs : ∀ x, bjmSubjectValid x = true → (x ++ SUBJECT_SUFFIX ∈ listing ↔ x ∈ st.logs)

/-- A name comes from a listing's log. -/
theorem Pusher.listed_of_namesLoad {p : Pusher} (listing : List Bytes) {x : Bytes}
    (hx : x ∈ (p.namesLoad listing).names) : x ∈ p.names ∨ x ++ SUBJECT_SUFFIX ∈ listing := by
  induction listing generalizing p with
  | nil => exact .inl hx
  | cons e listing ih =>
    have hrest : p.namesLoad (e :: listing) = (p.namesLoad [e]).namesLoad listing := rfl
    rw [hrest] at hx
    rcases ih hx with hx | hx
    · simp only [namesLoad, List.foldl_cons, List.foldl_nil] at hx
      split at hx
      · exact .inl hx
      split at hx
      · exact .inl hx
      split at hx
      · exact .inl hx
      rename_i hlen hsuffix hshort
      simp only [namesAdd] at hx
      split at hx
      · exact .inl hx
      · rcases List.mem_append.mp hx with hx | hx
        · exact .inl hx
        · right
          obtain ⟨t, rfl⟩ : SUBJECT_SUFFIX <:+ e :=
            List.isSuffixOf_iff_suffix.mp (by simpa using hsuffix)
          rw [List.mem_singleton] at hx
          simp only [List.length_append, Nat.add_sub_cancel, List.take_left'] at hx hshort
          rw [hx, cut, List.take_of_length_le (by omega)]
          exact List.mem_cons_self
    · exact .inr (List.mem_cons_of_mem _ hx)

theorem App.start_counts {st : Store} {listing : List Bytes} (hl : st.Directory listing) (n : ℕ) :
    (App.start st listing n).Counts := by
  have hnames : ∀ (l : List (Bytes × PushSub)) (p : Pusher),
      (l.foldl (fun p x => p.loadOne x.1 x.2) p).names = p.names := by
    intro l
    induction l with
    | nil => exact fun _ => rfl
    | cons x l ih => exact fun p => ih _
  have heq : (App.start st listing n).push.names = ((Pusher.blank n).namesLoad listing).names :=
    hnames _ _
  obtain ⟨-, -, hknown⟩ := Pusher.namesLoad_known (p := Pusher.blank n) List.nodup_nil listing
  intro x hx
  have hlogs := hl.logs x hx
  rw [heq]
  constructor
  · intro hmem
    exact hlogs.mp ((Pusher.listed_of_namesLoad listing hmem).resolve_left List.not_mem_nil)
  · intro hmem
    exact hknown x hx (hlogs.mpr hmem)

end SukkalMsg
