import SukkalMsg.PushHandlers

/-!
# What a scan and a pass may do

A scan leases jobs, publishes dead letters, and moves receipts the log has been
trimmed past; of its subscription it changes only what describes the delivery.
What a pass does to the store is the composition of its scans.
-/

namespace SukkalMsg

open Std Names Binjson OrderedScan BoundedTable

namespace Store

/-- What the engine may do to a store on behalf of some consumers: logs only grow,
and a receipt only moves from below its log's base up to it. -/
structure Passed (who : Bytes → Prop) (st st' : Store) : Prop where
  base : ∀ s, (st'.logOf s).base = (st.logOf s).base
  grown : ∀ s, (st.logOf s).entries <+: (st'.logOf s).entries
  receipt : ∀ s c, slash ∉ s → st'.receiptOf s c = st.receiptOf s c ∨
    st.receiptOf s c < (st.logOf s).base ∧ st'.receiptOf s c = (st.logOf s).base
  others : ∀ k, (∀ s c, who c → slash ∉ s → k ≠ pairKey s c) →
    st'.cursors[k]? = st.cursors[k]?
  push_eq : st'.push = st.push

/-- Indexes are 64-bit words. -/
def Words (st : Store) : Prop := ∀ s, (st.logOf s).last < 2 ^ 64

namespace Passed

variable {who who' : Bytes → Prop} {st st' st'' : Store}

theorem refl : Passed who st st :=
  ⟨fun _ => rfl, fun _ => List.prefix_rfl, fun _ _ _ => .inl rfl, fun _ _ => rfl, rfl⟩

theorem trans (h : Passed who st st') (h' : Passed who st' st'') : Passed who st st'' := by
  refine ⟨fun s => (h'.base s).trans (h.base s), fun s => (h.grown s).trans (h'.grown s),
    fun s c hs => ?_, fun k hk => (h'.others k hk).trans (h.others k hk),
    h'.push_eq.trans h.push_eq⟩
  have hb := h.base s
  rcases h.receipt s c hs with h₁ | ⟨hlt, h₁⟩ <;> rcases h'.receipt s c hs with h₂ | ⟨hlt', h₂⟩
  · exact .inl (h₂.trans h₁)
  · exact .inr ⟨by omega, by omega⟩
  · exact .inr ⟨hlt, h₂.trans h₁⟩
  · exact .inr ⟨hlt, by omega⟩

theorem mono (h : Passed who st st') (hw : ∀ c, who c → who' c) : Passed who' st st' :=
  { h with others := fun k hk => h.others k fun s c hc => hk s c (hw c hc) }

theorem last_le (h : Passed who st st') (s : Bytes) : (st.logOf s).last ≤ (st'.logOf s).last := by
  have hb := h.base s
  have hl := (h.grown s).length_le
  simp only [Elog.last]
  omega

theorem receipt_le (h : Passed who st st') {s c : Bytes} (hs : slash ∉ s) :
    st.receiptOf s c ≤ st'.receiptOf s c := by
  rcases h.receipt s c hs with h | ⟨hlt, h⟩ <;> omega

theorem logs_eq (hl : st'.logs = st.logs) (hc : st'.cursors = st.cursors)
    (hp : st'.push = st.push) : Passed who st st' := by
  have hlog : ∀ s, st'.logOf s = st.logOf s := fun s => by simp only [logOf, hl]
  refine ⟨fun s => by rw [hlog], fun s => (hlog s) ▸ List.prefix_rfl, fun s c _ => .inl ?_,
    fun k _ => by rw [hc], hp⟩
  simp only [receiptOf, hc]

end Passed

theorem base_lt_of_words {st : Store} (h : st.Words) (s : Bytes) : (st.logOf s).base < 2 ^ 64 := by
  have := h s
  simp only [Elog.last] at this
  omega

/-- Moving one receipt up to its log's base. -/
theorem passed_cursorSet {st st' : Store} {name consumer : Bytes} (hn : slash ∉ name)
    (hb : (st.logOf name).base < 2 ^ 64) (hlow : st.receiptOf name consumer < (st.logOf name).base)
    (h : st.bjmCursorSet name consumer (st.logOf name).base = .ok st') :
    Passed (· = consumer) st st' := by
  rcases bjmCursorSet_eq h with ⟨rfl, -⟩ | ⟨rfl, -⟩
  · exact .refl
  · refine ⟨fun _ => rfl, fun _ => List.prefix_rfl, fun s c hs => ?_, fun k hk => ?_, rfl⟩
    · rw [receiptOf_insert hb]
      split
      · rename_i hkey
        obtain ⟨rfl, rfl⟩ := pairKey_injective hn hs hkey
        exact .inr ⟨hlow, rfl⟩
      · exact .inl rfl
    · rw [getElem?_insert, if_neg]
      simpa using (hk name consumer rfl hn).symm

/-- Publishing to one subject is all that has happened. -/
theorem PublishedTo.passed {name : Bytes} {st st' : Store} {es : List Entry}
    (h : PublishedTo name st st')
    (hlog : st'.logOf name = ⟨(st.logOf name).base, (st.logOf name).entries ++ es⟩) :
    Passed (fun _ => False) st st' := by
  have hother : ∀ s, s ≠ name → st'.logOf s = st.logOf s := fun s hs => h.logOf_eq hs
  refine ⟨fun s => ?_, fun s => ?_, fun s c _ => .inl ?_, fun k _ => by rw [h.cursors_eq],
    h.push_eq⟩
  · by_cases hs : s = name
    · rw [hs, hlog]
    · rw [hother s hs]
  · by_cases hs : s = name
    · rw [hs, hlog]
      exact List.prefix_append _ _
    · exact (hother s hs) ▸ List.prefix_rfl
  · simp only [receiptOf, h.cursors_eq]

theorem passed_deadLettersVia {V : Vendor} {now : ℕ} {again : Store → Bytes} {s g : Bytes}
    {st : Store} (ds : List (ℕ × ℕ)) :
    Passed (fun _ => False) st (st.deadLettersVia V now again s g ds) := by
  rcases deadLettersVia_eq V now again s g ds st with ⟨-, h⟩ | ⟨dead, -, hto, es, hlog, -⟩
  · rw [h]
    exact .refl
  · exact hto.passed hlog

/-- A take leases and buries, and moves no receipt. -/
theorem passed_take {V : Vendor} {again : Store → Bytes} {st : Store} {now : ℕ} {s g : Bytes}
    {max : ℤ} {lease : ℕ} {t : Taken} (h : st.bjmTakeVia V again now s g max lease = .ok t) :
    Passed (fun _ => False) st t.store := by
  obtain ⟨log, q, existed, plan, -, -, -, -, -, hst⟩ := bjmTakeVia_eq h
  rw [hst]
  set st₁ : Store := { st with queues := st.queues.insert (pairKey s g) (queueRecord plan.q) }
  have hstored : Passed (fun _ => False) st st₁ := .logs_eq rfl rfl rfl
  exact hstored.trans (passed_deadLettersVia _)

end Store

open Store

/-- A turn of the engine changes nothing else of a subscription than what it
sends: who it is, what it asked for and how its deliveries went stay. -/
structure Psub.Asked (s s' : Psub) : Prop where
  id_eq : s'.id = s.id
  consumer_eq : s'.consumer = s.consumer
  cfg_eq : s'.cfg = s.cfg
  conn_eq : s'.conn = s.conn
  gone_eq : s'.gone = s.gone
  dueMs_eq : s'.dueMs = s.dueMs
  failures_eq : s'.failures = s.failures
  lastError_eq : s'.lastError = s.lastError
  delivered_eq : s'.delivered = s.delivered

/-- Only what describes a delivery has changed. -/
structure Psub.Described (s s' : Psub) : Prop extends s.Asked s' where
  inflight_eq : s'.inflight = s.inflight
  url_eq : s'.url = s.url
  hdrs_eq : s'.hdrs = s.hdrs

namespace Psub

variable {s s' s'' : Psub}

theorem Asked.refl : s.Asked s := ⟨rfl, rfl, rfl, rfl, rfl, rfl, rfl, rfl, rfl⟩

theorem Asked.trans (h : s.Asked s') (h' : s'.Asked s'') : s.Asked s'' :=
  ⟨h'.id_eq.trans h.id_eq, h'.consumer_eq.trans h.consumer_eq, h'.cfg_eq.trans h.cfg_eq,
    h'.conn_eq.trans h.conn_eq, h'.gone_eq.trans h.gone_eq, h'.dueMs_eq.trans h.dueMs_eq,
    h'.failures_eq.trans h.failures_eq, h'.lastError_eq.trans h.lastError_eq,
    h'.delivered_eq.trans h.delivered_eq⟩

theorem Described.refl : s.Described s := ⟨.refl, rfl, rfl, rfl⟩

theorem Described.trans (h : s.Described s') (h' : s'.Described s'') : s.Described s'' :=
  ⟨h.toAsked.trans h'.toAsked, h'.inflight_eq.trans h.inflight_eq, h'.url_eq.trans h.url_eq,
    h'.hdrs_eq.trans h.hdrs_eq⟩

/-- What describes a delivery may be anything. -/
theorem Described.of_fields (s : Psub) (subject : Bytes) (first last lag : ℕ) (body : Body)
    (jobs : List ℕ) (wakeMs rr : ℕ) : s.Described { s with
      subject := subject
      first := first
      last := last
      lag := lag
      body := body
      jobs := jobs
      wakeMs := wakeMs
      rr := rr } :=
  ⟨⟨rfl, rfl, rfl, rfl, rfl, rfl, rfl, rfl, rfl⟩, rfl, rfl, rfl⟩

theorem asked_prepared (s : Psub) (count : ℕ) : s.Asked (s.prepared count) :=
  ⟨rfl, rfl, rfl, rfl, rfl, rfl, rfl, rfl, rfl⟩

theorem asked_flying (s : Psub) : s.Asked { s with inflight := true } :=
  ⟨rfl, rfl, rfl, rfl, rfl, rfl, rfl, rfl, rfl⟩

theorem prepared_inflight (s : Psub) (count : ℕ) : (s.prepared count).inflight = s.inflight := rfl

end Psub

/-- The engine may only have learnt of more subjects, and that there is work. -/
structure Pusher.Learnt (p p' : Pusher) : Prop where
  same : p' = { p with names := p'.names, work := p'.work }
  names : ∃ l, p'.names = p.names ++ l ∧ ∀ name ∈ l, slash ∉ name
  work : p.work = true → p'.work = true

namespace Pusher.Learnt

variable {p p' p'' : Pusher}

theorem refl : Pusher.Learnt p p := ⟨rfl, ⟨[], by simp⟩, fun h => h⟩

theorem trans (h : p.Learnt p') (h' : p'.Learnt p'') : p.Learnt p'' := by
  refine ⟨?_, ?_, fun hw => h'.work (h.work hw)⟩
  · rw [h'.same, h.same]
  · obtain ⟨l, hl, hs⟩ := h.names
    obtain ⟨l', hl', hs'⟩ := h'.names
    refine ⟨l ++ l', by rw [hl', hl, List.append_assoc], fun name hname => ?_⟩
    rcases List.mem_append.mp hname with hname | hname
    · exact hs name hname
    · exact hs' name hname

theorem subs_eq (h : p.Learnt p') : p'.subs = p.subs := by rw [h.same]
theorem inflight_eq (h : p.Learnt p') : p'.inflight = p.inflight := by rw [h.same]
theorem nextId_eq (h : p.Learnt p') : p'.nextId = p.nextId := by rw [h.same]
theorem xfer_eq (h : p.Learnt p') : p'.xfer = p.xfer := by rw [h.same]
theorem slash_notMem (h : p.Learnt p') (hp : ∀ name ∈ p.names, slash ∉ name) :
    ∀ name ∈ p'.names, slash ∉ name := by
  obtain ⟨l, hl, hs⟩ := h.names
  intro name hname
  rw [hl] at hname
  rcases List.mem_append.mp hname with hname | hname
  · exact hp name hname
  · exact hs name hname

end Pusher.Learnt

theorem Pusher.learnt_notify (p : Pusher) {name : Bytes} (h : slash ∉ name) :
    p.Learnt (p.notify name) := by
  have hcut : slash ∉ cut (BJM_SUBJECT_MAX + 1) name := fun hm => h (List.mem_of_mem_take hm)
  simp only [Pusher.notify, Pusher.namesAdd]
  split
  · exact ⟨rfl, ⟨[], by simp⟩, fun _ => rfl⟩
  · exact ⟨rfl, ⟨_, rfl, by simpa using hcut⟩, fun _ => rfl⟩

theorem deadSubjectOf_valid {s dead : Bytes} (h : deadSubjectOf s = some dead) :
    bjmSubjectValid dead = true := by
  simp only [deadSubjectOf] at h
  split at h
  · contradiction
  · split at h
    · contradiction
    · rename_i hvalid
      obtain rfl := Option.some.inj h
      simp only [Bool.or_eq_true, Bool.not_eq_true', not_or, Bool.not_eq_false] at hvalid
      exact hvalid.2

theorem Pusher.learnt_notifyDead (p : Pusher) (st : Store) (name : Bytes) (ds : List (ℕ × ℕ)) :
    p.Learnt (p.notifyDead st name ds) := by
  simp only [Pusher.notifyDead]
  split
  · exact .refl
  · rename_i channel hd
    split
    · exact p.learnt_notify (slash_notMem_of_nameValid (deadSubjectOf_valid hd))
    · exact .refl

/-- What a scan does before anything is sent. -/
structure Scan.Searched (a a' : Scan) : Prop where
  store : Passed (· = a.sub.consumer) a.store a'.store
  push : a.push.Learnt a'.push
  sub : a.sub.Described a'.sub

namespace Scan

variable {V : Vendor} {clock : ℕ} {a a' a'' : Scan}

/-- The names are those of log files, and the indexes are 64-bit words. -/
structure Sound (a : Scan) : Prop where
  names : ∀ name ∈ a.push.names, slash ∉ name
  base : ∀ s, (a.store.logOf s).base < 2 ^ 64

theorem Searched.refl : Searched a a := ⟨.refl, .refl, .refl⟩

theorem Searched.trans (h : Searched a a') (h' : Searched a' a'') : Searched a a'' :=
  ⟨h.store.trans (h'.store.mono fun _ hc => hc.trans h.sub.consumer_eq), h.push.trans h'.push,
    h.sub.trans h'.sub⟩

theorem Searched.sound (h : Searched a a') (ha : a.Sound) : a'.Sound :=
  ⟨h.push.slash_notMem ha.names, fun s => by rw [h.store.base s]; exact ha.base s⟩

variable (V clock) in
theorem searched_takeBatch (name : Bytes) : Searched a (a.takeBatch V clock name).1 := by
  simp only [takeBatch]
  split
  · exact .refl
  · rename_i t ht
    have hst : Passed (· = a.sub.consumer) a.store t.store :=
      (passed_take ht).mono fun _ h => h.elim
    have hpush := a.push.learnt_notifyDead a.store name t.dead
    split
    · exact ⟨hst, hpush, .refl⟩
    split
    · exact ⟨hst, hpush, .of_fields ..⟩
    · exact ⟨hst, hpush, .of_fields ..⟩

theorem searched_noteWake (name : Bytes) : Searched a (a.noteWake name) := by
  simp only [noteWake]
  split
  · split
    · exact ⟨.refl, .refl, .of_fields ..⟩
    · exact .refl
  · exact .refl

variable (V clock) in
theorem searched_offerJobs (i : ℕ) (name : Bytes) : Searched a (a.offerJobs V clock i name).1 := by
  have ht := searched_takeBatch V clock (a := a) name
  simp only [offerJobs]
  split
  · rename_i b hb
    rw [hb] at ht
    exact ht.trans (searched_noteWake _)
  · rename_i b count hb
    rw [hb] at ht
    exact ht.trans ⟨.refl, .refl, .of_fields ..⟩

/-- Skipping moves the receipt to the base exactly when it lies below. -/
theorem searched_skipTrimmed (ha : a.Sound) {name : Bytes} (hn : slash ∉ name)
    {found : Option ℕ} (hget : a.store.bjmCursorGet name a.sub.consumer = .ok found) :
    Searched a (a.skipTrimmed name (found.getD 0) (a.store.logOf name).base) := by
  have hr : a.store.receiptOf name a.sub.consumer = found.getD 0 := by
    cases found with
    | none => exact receiptOf_of_get_none hget
    | some n => exact receiptOf_of_get hget
  simp only [skipTrimmed]
  split
  · rename_i hlow
    split
    · exact .refl
    · rename_i st hset
      exact ⟨passed_cursorSet hn (ha.base name) (by rw [hr]; exact hlow) hset, .refl, .refl⟩
  · exact .refl

theorem searched_readBatch (i : ℕ) (name : Bytes) (acked : ℕ) :
    Searched a (a.readBatch V i name acked).1 := by
  simp only [readBatch]
  split
  · exact .refl
  · split
    · exact .refl
    · exact ⟨.refl, .refl, .of_fields ..⟩

theorem subjectInfo_eq {st : Store} {name : Bytes} {base last bytes : ℕ}
    (h : st.bjmSubjectInfo V name = .ok (base, last, bytes)) :
    st.subjectGet name false = .ok (st.logOf name) ∧
      base = (st.logOf name).base ∧ last = (st.logOf name).last := by
  simp only [bjmSubjectInfo] at h
  cases hget : st.subjectGet name false with
  | error e => simp [hget, Except.map] at h
  | ok log =>
    obtain ⟨-, -, rfl⟩ := subjectGet_logOf hget
    simp only [hget, Except.map, Except.ok.injEq, Prod.mk.injEq] at h
    exact ⟨rfl, h.1.symm, h.2.1.symm⟩

theorem searched_offerBatch (ha : a.Sound) (i : ℕ) {name : Bytes} (hn : slash ∉ name) :
    Searched a (a.offerBatch V i name).1 := by
  simp only [offerBatch]
  split
  · exact .refl
  · rename_i base last bytes hinfo
    obtain ⟨-, rfl, -⟩ := subjectInfo_eq hinfo
    split
    · exact .refl
    · rename_i found hget
      have hskip := searched_skipTrimmed ha hn hget
      split
      · exact .refl
      split
      · exact hskip
      · exact hskip.trans (searched_readBatch i name _)

variable (V clock) in
theorem searched_offer (ha : a.Sound) (i : ℕ) {name : Bytes} (hn : slash ∉ name) :
    Searched a (a.offer V clock i name).1 := by
  simp only [offer]
  split
  · exact searched_offerJobs _ _ i name
  · exact searched_offerBatch ha i hn

theorem names_getD (hn : ∀ name ∈ a.push.names, slash ∉ name) (i : ℕ) :
    slash ∉ a.push.names.getD i [] := by
  rw [List.getD_eq_getElem?_getD]
  cases h : a.push.names[i]? with
  | none => simp
  | some name => exact hn name (List.mem_of_getElem? h)

theorem searched_loop (ha : a.Sound) (fuel n : ℕ) : Searched a (loop V clock fuel n a).1 := by
  induction fuel generalizing a n with
  | zero => exact .refl
  | succ fuel ih =>
    simp only [loop]
    split
    · have hname := names_getD ha.names ((a.sub.rr + n) % a.push.names.length)
      have hoffer := searched_offer V clock ha
        ((a.sub.rr + n) % a.push.names.length) hname
      split
      · split
        · rename_i b hb
          rw [hb] at hoffer
          exact hoffer.trans (ih (hoffer.sound ha) _)
        · rename_i b count hb
          rw [hb] at hoffer
          exact hoffer
      · exact ih ha _
    · exact .refl

variable (V clock) in
theorem searched_search (ha : a.Sound) : Searched a (a.search V clock).1 := by
  have h : Searched a { a with sub := { a.sub with wakeMs := 0 } } :=
    ⟨.refl, .refl, .of_fields ..⟩
  exact h.trans (searched_loop (a := { a with sub := { a.sub with wakeMs := 0 } })
    ⟨ha.names, ha.base⟩ _ _)

end Scan

end SukkalMsg
