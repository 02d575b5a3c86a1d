import SukkalMsg.ActionRuns
import SukkalMsg.JobLedger
import SukkalMsg.QueueSettlement

/-!
# One queue group over a whole run

A run of one group's calls leaves a history of hand-outs, releases, finishes and
burials. The group's record tracks that history: its table holds exactly the jobs
under lease, with the expiry and the attempts the history gives them, and what is
below `next` and not in the table was finished or buried once.
-/

namespace SukkalMsg

open Std Names Binjson OrderedScan JobLedger

universe u

variable {W : Type u}

/-- The record of a group tells where every job of the history stands. -/
structure Tracked (start next total : ℕ) (rows : List Slot) (h : List (Event W)) : Prop where
  start_le : start ≤ next
  nodup : (rows.map Slot.index).Nodup
  range : ∀ e ∈ rows, start ≤ e.index ∧ e.index < next
  held : ∀ e ∈ rows, replay e.index .untouched h = some (.leased e.expires e.attempts)
  settled : ∀ i, start ≤ i → i < next → i ∉ rows.map Slot.index →
    replay i .untouched h = some .finished ∨ replay i .untouched h = some .buried
  outside : ∀ ev ∈ h, start ≤ ev.job ∧ ev.job < next
  total : total = h.countP Event.isBury

/-- What one call does to the table: rows it leaves, rows its events explain, and
fresh jobs, each handed out. -/
structure Turn (next : ℕ) (rows : List Slot) (new : List (Event W)) (next' : ℕ)
    (rows' : List Slot) : Prop where
  next_le : next ≤ next'
  jobs_nodup : (new.map Event.job).Nodup
  rows_nodup : (rows'.map Slot.index).Nodup
  jobs : ∀ ev ∈ new, ev.job ∈ rows.map Slot.index ∨ next ≤ ev.job ∧ ev.job < next'
  came : ∀ f ∈ rows', (f ∈ rows ∧ f.index ∉ new.map Event.job) ∨
    ∃ ev ∈ new, ev.job = f.index ∧
      ((∃ e ∈ rows, e.index = f.index ∧
          (Phase.leased e.expires e.attempts).next ev = some (.leased f.expires f.attempts)) ∨
        (next ≤ f.index ∧ f.index < next' ∧
          Phase.untouched.next ev = some (.leased f.expires f.attempts)))
  went : ∀ e ∈ rows, e.index ∈ rows'.map Slot.index ∨
    ∃ ev ∈ new, ev.job = e.index ∧
      ((Phase.leased e.expires e.attempts).next ev = some .finished ∨
        (Phase.leased e.expires e.attempts).next ev = some .buried)
  fresh : ∀ i, next ≤ i → i < next' → i ∈ rows'.map Slot.index

namespace Tracked

variable {start next next' total : ℕ} {rows rows' : List Slot} {h new : List (Event W)}

theorem start_nil (n : ℕ) : Tracked n n 0 [] ([] : List (Event W)) where
  start_le := Nat.le_refl n
  nodup := List.nodup_nil
  range := by simp
  held := by simp
  settled := by
    intro i hlo hhi
    omega
  outside := by simp
  total := rfl

theorem untouched (ht : Tracked start next total rows h) {i : ℕ} (hi : next ≤ i) :
    replay i .untouched h = some .untouched := by
  apply replay_of_absent
  intro ev hev hj
  have := (ht.outside ev hev).2
  omega

private theorem replay_new (ht : Turn next rows new next' rows') {i : ℕ} {p : Phase}
    {ev : Event W} (hold : replay i .untouched h = some p) (hev : ev ∈ new) (hj : ev.job = i) :
    replay i .untouched (h ++ new) = p.next ev := by
  subst hj
  rw [replay_append, hold]
  exact replay_of_nodup ht.jobs_nodup hev

private theorem replay_old {i : ℕ} (hi : i ∉ new.map Event.job) :
    replay i .untouched (h ++ new) = replay i .untouched h := by
  rw [replay_append]
  cases hr : replay i .untouched h with
  | none => rfl
  | some p =>
    apply replay_of_absent
    intro ev hev hj
    exact hi (List.mem_map.mpr ⟨ev, hev, hj⟩)

/-- A table that turns the way its events say keeps tracking the history. -/
theorem turn (ht : Tracked start next total rows h) (htn : Turn next rows new next' rows') :
    Tracked start next' (total + new.countP Event.isBury) rows' (h ++ new) where
  start_le := Nat.le_trans ht.start_le htn.next_le
  nodup := htn.rows_nodup
  range := by
    intro f hf
    have hle := htn.next_le
    have hs := ht.start_le
    rcases htn.came f hf with ⟨hold, -⟩ | ⟨ev, -, -, ⟨e, he, hi, -⟩ | ⟨hlo, hhi, -⟩⟩
    · have := ht.range f hold
      omega
    · have := ht.range e he
      omega
    · omega
  held := by
    intro f hf
    rcases htn.came f hf with ⟨hold, habs⟩ | ⟨ev, hev, hj, ⟨e, he, hi, hn⟩ | ⟨hlo, hhi, hn⟩⟩
    · rw [replay_old habs]
      exact ht.held f hold
    · have hphase := ht.held e he
      rw [hi] at hphase
      rw [replay_new htn hphase hev hj, hn]
    · rw [replay_new htn (ht.untouched hlo) hev hj, hn]
  settled := by
    intro i hlo hhi hout
    by_cases hnext : next ≤ i
    · exact absurd (htn.fresh i hnext hhi) hout
    by_cases hin : i ∈ rows.map Slot.index
    · obtain ⟨e, he, rfl⟩ := List.mem_map.mp hin
      rcases htn.went e he with hstay | ⟨ev, hev, hj, hsettled⟩
      · exact absurd hstay hout
      · rw [replay_new htn (ht.held e he) hev hj]
        exact hsettled
    · have habs : i ∉ new.map Event.job := by
        intro hm
        obtain ⟨ev, hev, rfl⟩ := List.mem_map.mp hm
        rcases htn.jobs ev hev with hr | ⟨hr, -⟩
        · exact hin hr
        · exact hnext hr
      rw [replay_old habs]
      exact ht.settled i hlo (by omega) hin
  outside := by
    intro ev hev
    have hle := htn.next_le
    have hs := ht.start_le
    rcases List.mem_append.mp hev with hold | hnew
    · have := ht.outside ev hold
      omega
    · rcases htn.jobs ev hnew with hr | ⟨hr, hr'⟩
      · obtain ⟨e, he, hi⟩ := List.mem_map.mp hr
        have := ht.range e he
        omega
      · omega
  total := by rw [List.countP_append, ← ht.total]

theorem counts (ht : Tracked start next total rows h) {i : ℕ} (hlo : start ≤ i) (hhi : i < next) :
    (i ∈ rows.map Slot.index ∧ finishCount i h = 0 ∧ buryCount i h = 0) ∨
      (i ∉ rows.map Slot.index ∧ finishCount i h = 1 ∧ buryCount i h = 0) ∨
      (i ∉ rows.map Slot.index ∧ finishCount i h = 0 ∧ buryCount i h = 1) := by
  by_cases hin : i ∈ rows.map Slot.index
  · obtain ⟨e, he, rfl⟩ := List.mem_map.mp hin
    exact .inl ⟨hin, (tallies_of_legal (ht.held e he)).2⟩
  · rcases ht.settled i hlo hhi hin with hr | hr
    · exact .inr (.inl ⟨hin, tallies_of_legal hr⟩)
    · exact .inr (.inr ⟨hin, tallies_of_legal hr⟩)

theorem legal (ht : Tracked start next total rows h) (i : ℕ) :
    ∃ p, replay i .untouched h = some p := by
  by_cases hr : start ≤ i ∧ i < next
  · by_cases hin : i ∈ rows.map Slot.index
    · obtain ⟨e, he, rfl⟩ := List.mem_map.mp hin
      exact ⟨_, ht.held e he⟩
    · rcases ht.settled i hr.1 hr.2 hin with h' | h' <;> exact ⟨_, h'⟩
  · refine ⟨.untouched, replay_of_absent fun ev hev hj => hr ?_⟩
    rw [← hj]
    exact ht.outside ev hev

end Tracked

/-- The history a take leaves: the jobs it buried, then the jobs it handed out. -/
def takeEvents (w : W) (now lease : ℕ) (dead chosen : List (ℕ × ℕ)) : List (Event W) :=
  (dead.map fun d => .bury d.1 d.2 now) ++
    chosen.map fun c => .hand w c.1 c.2 (u64 (now + lease)) now

theorem job_takeEvents (w : W) (now lease : ℕ) (dead chosen : List (ℕ × ℕ)) :
    (takeEvents w now lease dead chosen).map Event.job =
      dead.map Prod.fst ++ chosen.map Prod.fst := by
  simp [takeEvents, Function.comp_def, Event.job]

theorem bury_takeEvents (w : W) (now lease : ℕ) (dead chosen : List (ℕ × ℕ)) :
    (takeEvents w now lease dead chosen).countP Event.isBury = dead.length := by
  have hd : (dead.map fun d => (Event.bury d.1 d.2 now : Event W)).countP Event.isBury =
      dead.length := by
    simp [List.countP_map, Function.comp_def, Event.isBury]
  have hc : (chosen.map fun c => Event.hand w c.1 c.2 (u64 (now + lease)) now).countP
      Event.isBury = 0 := by
    simp [List.countP_map, Function.comp_def, Event.isBury]
  rw [takeEvents, List.countP_append, hd, hc, Nat.add_zero]

private theorem index_renew (now lease : ℕ) (old : List Slot) :
    (old.map (Slot.renew now lease)).map Slot.index = old.map Slot.index := by
  simp [Function.comp_def, Slot.renew]

private theorem index_first (now lease : ℕ) (l : List ℕ) :
    (l.map (Slot.first now lease)).map Slot.index = l := by
  simp [Function.comp_def, Slot.first]

/-- A take with a positive lease turns the table as its events say. -/
theorem turn_take {w : W} {now lease last k : ℕ} {q : Qrec} {s : TakeState}
    {kept old buried : List Slot} (ho : TakeOutcome now lease last q s kept old buried k)
    (hlease : 0 < lease) (hnd : (q.fl.rows.map Slot.index).Nodup)
    (hlt : ∀ e ∈ q.fl.rows, e.index < q.next) :
    Turn q.next q.fl.rows (takeEvents w now lease s.deadNow.rows s.chosen) s.q.next
      s.q.fl.rows := by
  have hrows : ∀ e, e ∈ q.fl.rows ↔ e ∈ kept ∨ e ∈ old ∨ e ∈ buried := fun e => by
    rw [ho.before.mem_iff]
    simp
  have hindex : (q.fl.rows.map Slot.index).Perm
      (kept.map Slot.index ++ (old.map Slot.index ++ buried.map Slot.index)) := by
    simpa using ho.before.map Slot.index
  have hold : (kept.map Slot.index ++ (old.map Slot.index ++ buried.map Slot.index)).Nodup :=
    hindex.nodup_iff.mp hnd
  have hnew : (kept.map Slot.index ++ (old.map Slot.index ++ buried.map Slot.index) ++
      List.range' q.next k).Nodup := by
    refine List.nodup_append.mpr ⟨hold, List.nodup_range', ?_⟩
    intro i hi j hj
    obtain ⟨e, he, rfl⟩ := List.mem_map.mp (hindex.mem_iff.mpr hi)
    have := hlt e he
    have := (List.mem_range'_1.mp hj).1
    omega
  have hjobs : (takeEvents w now lease s.deadNow.rows s.chosen).map Event.job =
      buried.map Slot.index ++ (old.map Slot.index ++ List.range' q.next k) := by
    rw [job_takeEvents, ho.deadNow, ho.chosen]
    simp [Function.comp_def]
  have hrows' : (s.q.fl.rows.map Slot.index).Perm
      (kept.map Slot.index ++ (old.map Slot.index ++ List.range' q.next k)) := by
    have := ho.after.map Slot.index
    simpa only [freshRows, hlease, if_true, List.map_append, index_renew, index_first,
      List.append_assoc] using this
  have hbury : ∀ e ∈ buried, Event.bury e.index e.attempts now ∈
      takeEvents w now lease s.deadNow.rows s.chosen := by
    intro e he
    refine List.mem_append_left _ (List.mem_map.mpr ⟨(e.index, e.attempts), ?_, rfl⟩)
    rw [ho.deadNow]
    exact List.mem_map.mpr ⟨e, he, rfl⟩
  have hhand : ∀ c ∈ s.chosen, Event.hand w c.1 c.2 (u64 (now + lease)) now ∈
      takeEvents w now lease s.deadNow.rows s.chosen := fun c hc =>
    List.mem_append_right _ (List.mem_map.mpr ⟨c, hc, rfl⟩)
  refine ⟨by rw [ho.next]; omega, ?_, ?_, ?_, ?_, ?_, ?_⟩
  · rw [hjobs]
    have hperm : (buried.map Slot.index ++ (old.map Slot.index ++ List.range' q.next k)).Perm
        (old.map Slot.index ++ buried.map Slot.index ++ List.range' q.next k) := by
      rw [← List.append_assoc]
      exact List.perm_append_comm.append_right _
    rw [hperm.nodup_iff]
    rw [List.append_assoc] at hnew
    exact (List.nodup_append.mp hnew).2.1
  · rw [hrows'.nodup_iff]
    refine hnew.sublist ?_
    rw [List.append_assoc, List.append_assoc]
    exact (List.Sublist.refl _).append ((List.Sublist.refl _).append (List.sublist_append_right _ _))
  · intro ev hev
    have hm : ev.job ∈ buried.map Slot.index ++ (old.map Slot.index ++ List.range' q.next k) := by
      rw [← hjobs]
      exact List.mem_map.mpr ⟨ev, hev, rfl⟩
    rw [ho.next, hindex.mem_iff]
    simp only [List.mem_append, List.mem_range'_1] at hm ⊢
    rcases hm with hm | hm | hm
    · exact .inl (.inr (.inr hm))
    · exact .inl (.inr (.inl hm))
    · exact .inr hm
  · -- every row left is kept, let again or let for the first time
    intro f hf
    rw [ho.after.mem_iff] at hf
    simp only [freshRows, hlease, if_true, List.mem_append, List.mem_map] at hf
    rcases hf with (hf | ⟨e, he, rfl⟩) | ⟨i, hi, rfl⟩
    · refine .inl ⟨(hrows f).mpr (.inl hf), ?_⟩
      rw [hjobs]
      intro hm
      have hdis := (List.nodup_append.mp (List.append_assoc _ _ _ ▸ hnew)).2.2 f.index
        (List.mem_map.mpr ⟨f, hf, rfl⟩) f.index
      refine hdis ?_ rfl
      simp only [List.mem_append] at hm ⊢
      rcases hm with hm | hm | hm
      · exact .inl (.inr hm)
      · exact .inl (.inl hm)
      · exact .inr hm
    · refine .inr ⟨_, hhand (e.index, e.attempts + 1) ?_, rfl, .inl ⟨e, (hrows e).mpr
        (.inr (.inl he)), rfl, ?_⟩⟩
      · rw [ho.chosen]
        exact List.mem_append_left _ (List.mem_map.mpr ⟨e, he, rfl⟩)
      · simp [Phase.next, Slot.renew, (ho.old_due e he).1]
    · have hr := List.mem_range'_1.mp hi
      refine .inr ⟨_, hhand (i, 1) ?_, rfl, .inr ⟨hr.1, ?_, ?_⟩⟩
      · rw [ho.chosen]
        exact List.mem_append_right _ (List.mem_map.mpr ⟨i, hi, rfl⟩)
      · rw [ho.next]
        exact hr.2
      · simp [Phase.next, Slot.first]
  · intro e he
    rcases (hrows e).mp he with he | he | he
    · exact .inl (hrows'.mem_iff.mpr (List.mem_append_left _ (List.mem_map.mpr ⟨e, he, rfl⟩)))
    · refine .inl (hrows'.mem_iff.mpr (List.mem_append_right _ (List.mem_append_left _ ?_)))
      exact List.mem_map.mpr ⟨e, he, rfl⟩
    · refine .inr ⟨_, hbury e he, rfl, .inr ?_⟩
      simp [Phase.next, (ho.buried_due e he).1]
  · intro i hlo hhi
    rw [ho.next] at hhi
    refine hrows'.mem_iff.mpr (List.mem_append_right _ (List.mem_append_right _ ?_))
    exact List.mem_range'_1.mpr ⟨hlo, hhi⟩

private theorem index_split {pre suf : List Slot} {e : Slot}
    (hnd : ((pre ++ e :: suf).map Slot.index).Nodup) :
    ∀ f ∈ pre ++ suf, f.index ≠ e.index := by
  simp only [List.map_append, List.map_cons, List.nodup_append, List.nodup_cons, List.mem_map,
    List.mem_cons, not_exists, not_and] at hnd
  intro f hf hfe
  rcases List.mem_append.mp hf with hf | hf
  · exact hnd.2.2 f.index ⟨f, hf, rfl⟩ e.index (.inl rfl) hfe
  · exact hnd.2.1.1 f hf hfe

/-- Finishing a job takes its row out. -/
theorem turn_finish (w : W) (now : ℕ) {next : ℕ} {rows rows' pre suf : List Slot} {e : Slot}
    (hnd : (rows.map Slot.index).Nodup) (hrows : rows = pre ++ e :: suf)
    (hrows' : rows'.Perm (pre ++ suf)) :
    Turn next rows [Event.finish w e.index now] next rows' := by
  subst hrows
  have hother := index_split hnd
  have hmem : ∀ f, f ∈ pre ++ e :: suf ↔ f = e ∨ f ∈ pre ++ suf := fun f => by
    rw [List.perm_middle.mem_iff, List.mem_cons]
  refine ⟨Nat.le_refl _, by simp, ?_, ?_, ?_, ?_, ?_⟩
  · have hperm : ((pre ++ e :: suf).map Slot.index).Perm
        (e.index :: (pre ++ suf).map Slot.index) := List.perm_middle.map Slot.index
    rw [(hrows'.map Slot.index).nodup_iff]
    exact (List.nodup_cons.mp (hperm.nodup_iff.mp hnd)).2
  · intro ev hev
    obtain rfl := List.mem_singleton.mp hev
    exact .inl (List.mem_map.mpr ⟨e, (hmem e).mpr (.inl rfl), rfl⟩)
  · intro f hf
    have hf' := hrows'.mem_iff.mp hf
    refine .inl ⟨(hmem f).mpr (.inr hf'), ?_⟩
    simpa [Event.job] using hother f hf'
  · intro f hf
    rcases (hmem f).mp hf with rfl | hf
    · exact .inr ⟨_, List.mem_singleton_self _, rfl, .inl rfl⟩
    · exact .inl (List.mem_map.mpr ⟨f, hrows'.mem_iff.mpr hf, rfl⟩)
  · intro i hlo hhi
    omega

theorem turn_release (w : W) (now delay due : ℕ) {next : ℕ} {rows pre suf : List Slot} {e : Slot}
    (hnd : (rows.map Slot.index).Nodup) (hrows : rows = pre ++ e :: suf) :
    Turn next rows [Event.release w e.index delay due now] next
      (pre ++ { e with expires := due } :: suf) := by
  subst hrows
  have hother := index_split hnd
  have hmem : ∀ (e' f : Slot), f ∈ pre ++ e' :: suf ↔ f = e' ∨ f ∈ pre ++ suf := fun e' f => by
    rw [List.perm_middle.mem_iff, List.mem_cons]
  have hsame : (pre ++ { e with expires := due } :: suf).map Slot.index =
      (pre ++ e :: suf).map Slot.index := by simp
  refine ⟨Nat.le_refl _, by simp, hsame ▸ hnd, ?_, ?_, ?_, ?_⟩
  · intro ev hev
    obtain rfl := List.mem_singleton.mp hev
    exact .inl (List.mem_map.mpr ⟨e, (hmem e e).mpr (.inl rfl), rfl⟩)
  · intro f hf
    rcases (hmem _ f).mp hf with rfl | hf
    · exact .inr ⟨_, List.mem_singleton_self _, rfl, .inl ⟨e, (hmem e e).mpr (.inl rfl), rfl, rfl⟩⟩
    · refine .inl ⟨(hmem e f).mpr (.inr hf), ?_⟩
      simpa [Event.job] using hother f hf
  · intro f hf
    exact .inl (hsame ▸ List.mem_map.mpr ⟨f, hf, rfl⟩)
  · intro i hlo hhi
    omega

end SukkalMsg
