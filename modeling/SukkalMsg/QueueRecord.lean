import SukkalMsg.BoundedTable
import SukkalMsg.Receipts

/-!
# The record of a queue group

A group remembers the next job it has not handed out, its settings, the jobs in
flight with their leases, and the jobs it gave up on. The table of jobs in flight
and the list of the most recent dead ones are arrays of fixed size. A record is
written as one flat object, the table as triples of integers, and reads back as
the same group.
-/

namespace SukkalMsg

open Std Names Binjson OrderedScan

def BJM_INFLIGHT_MAX : ℕ := 256
def BJM_LEASE_DEFAULT_MS : ℕ := 30000
def BJM_DEAD_MAX : ℕ := 64
def BJM_MAX_ATTEMPTS_DEFAULT : ℕ := 10
def BJM_BACKOFF_DEFAULT_MS : ℕ := 1000
def BJM_MAX_BACKOFF_DEFAULT_MS : ℕ := 300000

/-- One triple of the in-flight table. -/
structure Slot where
  index : ℕ
  expires : ℕ
  attempts : ℕ
  deriving DecidableEq

structure Qrec where
  next : ℕ
  leaseMs : ℕ
  /-- Zero retries forever. -/
  maxAttempts : ℕ
  backoffMs : ℕ
  maxBackoffMs : ℕ
  fl : BoundedTable Slot BJM_INFLIGHT_MAX
  deadTotal : ℕ
  dead : BoundedTable ℕ BJM_DEAD_MAX
  deriving DecidableEq

/-- A group nobody has used yet. -/
def Qrec.fresh (next : ℕ) : Qrec where
  next := next
  leaseMs := BJM_LEASE_DEFAULT_MS
  maxAttempts := BJM_MAX_ATTEMPTS_DEFAULT
  backoffMs := BJM_BACKOFF_DEFAULT_MS
  maxBackoffMs := BJM_MAX_BACKOFF_DEFAULT_MS
  fl := .empty
  deadTotal := 0
  dead := .empty

/-- The array a key opens: none, the in-flight table or the dead list. -/
inductive QArray where
  | none | inflight | dead
  deriving DecidableEq

/-- A record half decoded, with the decoder's scratch. -/
structure QGrab where
  next : ℕ
  leaseMs : ℕ
  maxAttempts : ℕ
  backoffMs : ℕ
  maxBackoffMs : ℕ
  fl : BoundedTable ℕ (BJM_INFLIGHT_MAX * 3)
  deadTotal : ℕ
  dead : BoundedTable ℕ BJM_DEAD_MAX
  key : Bytes
  inArray : QArray

def QGrab.zero : QGrab := ⟨0, 0, 0, 0, 0, .empty, 0, .empty, [], .none⟩

/-- `q_int`. -/
def qInt (q : QGrab) (v : ℕ) : QGrab :=
  match q.inArray with
  | .inflight => { q with fl := q.fl.add v }
  | .dead => { q with dead := q.dead.add v }
  | .none =>
    if q.key = ascii "next" then { q with next := v }
    else if q.key = ascii "lease_ms" then { q with leaseMs := v }
    else if q.key = ascii "max_attempts" then { q with maxAttempts := v }
    else if q.key = ascii "dead_total" then { q with deadTotal := v }
    else if q.key = ascii "backoff_ms" then { q with backoffMs := v }
    else if q.key = ascii "max_backoff_ms" then { q with maxBackoffMs := v }
    else q

/-- `q_key`, `q_int` and `q_array_end`. -/
def qVisit (q : QGrab) : Item → QGrab
  | .key k =>
    let key := Store.keyBuf 32 k
    { q with
      key := key
      inArray := if key = ascii "inflight" then .inflight
        else if key = ascii "dead" then .dead else .none }
  | .int v => qInt q (ofDouble v)
  | .endArray => { q with inArray := .none }
  | _ => q

/-- The whole triples of a flat table; a remainder is dropped. -/
def triples : List ℕ → List Slot
  | i :: e :: a :: rest => ⟨i, e, a⟩ :: triples rest
  | _ => []

theorem length_triples (l : List ℕ) : (triples l).length * 3 ≤ l.length := by
  induction l using triples.induct with
  | case1 i e a rest ih =>
    simp only [triples, List.length_cons]
    omega
  | case2 l h =>
    match l, h with
    | [], _ | [_], _ | [_, _], _ => simp [triples]
    | i :: e :: a :: rest, h => exact absurd rfl (h i e a rest)

def QGrab.qrec (q : QGrab) : Qrec where
  next := q.next
  leaseMs := q.leaseMs
  maxAttempts := q.maxAttempts
  backoffMs := q.backoffMs
  maxBackoffMs := q.maxBackoffMs
  fl := ⟨triples q.fl.rows, by
    have := length_triples q.fl.rows
    have := q.fl.fits
    omega⟩
  deadTotal := q.deadTotal
  dead := q.dead

def queueDecode (r : Record) : Except BjErr Qrec := (bjDecode qVisit r .zero).map QGrab.qrec

/-- The triples of a table, laid out flat. -/
def flat : List Slot → List ℕ
  | [] => []
  | s :: ss => s.index :: s.expires :: s.attempts :: flat ss

/-- The object a group is stored as, up to its two arrays. -/
def queueHead (q : Qrec) : Record :=
  [.beginObject,
    .key (ascii "next"), putInt q.next,
    .key (ascii "lease_ms"), putInt q.leaseMs,
    .key (ascii "max_attempts"), putInt q.maxAttempts,
    .key (ascii "dead_total"), putInt q.deadTotal,
    .key (ascii "backoff_ms"), putInt q.backoffMs,
    .key (ascii "max_backoff_ms"), putInt q.maxBackoffMs,
    .key (ascii "inflight"), .beginArray]

def queueRecord (q : Qrec) : Record :=
  queueHead q ++ (flat q.fl.rows).map putInt ++
    [.endArray, .key (ascii "dead"), .beginArray] ++ q.dead.rows.map putInt ++
    [.endArray, .endObject]

namespace Store

/-- Load a group's record, or start one at the oldest surviving message. -/
def queueLoad (st : Store) (subject group : Bytes) : Except BjErr (Qrec × Bool) :=
  match queueKey subject group with
  | none => .error .range
  | some key => match st.queues[key]? with
    | some r => (queueDecode r).map (·, true)
    | none => match st.subjectGet subject false with
      | .error _ => .ok (.fresh 1, false)
      | .ok log => .ok (.fresh (log.base + 1), false)

def queueStore (st : Store) (subject group : Bytes) (q : Qrec) : Except BjErr Store :=
  match queueKey subject group with
  | none => .error .range
  | some key => .ok { st with queues := st.queues.insert key (queueRecord q) }

end Store

/-- Every integer the record of a group holds. -/
def Qrec.ints (q : Qrec) : List ℕ :=
  [q.next, q.leaseMs, q.maxAttempts, q.deadTotal, q.backoffMs, q.maxBackoffMs] ++
    flat q.fl.rows ++ q.dead.rows

/-- Every field of the C record is 64 bits wide. -/
def Qrec.Words (q : Qrec) : Prop := ∀ n ∈ q.ints, n < 2 ^ 64

/-- The codec carries the record faithfully: no integer reaches `2^53`. -/
def Qrec.Small (q : Qrec) : Prop := ∀ n ∈ q.ints, n < 2 ^ 53

instance (q : Qrec) : Decidable q.Words := inferInstanceAs (Decidable (∀ n ∈ q.ints, n < 2 ^ 64))

instance (q : Qrec) : Decidable q.Small := inferInstanceAs (Decidable (∀ n ∈ q.ints, n < 2 ^ 53))

theorem Qrec.Small.words {q : Qrec} (h : q.Small) : q.Words :=
  fun n hn => Nat.lt_trans (h n hn) (by decide)

theorem triples_flat (ss : List Slot) : triples (flat ss) = ss := by
  induction ss with
  | nil => rfl
  | cons s ss ih => simp [flat, triples, ih]

theorem length_flat (ss : List Slot) : (flat ss).length = ss.length * 3 := by
  induction ss with
  | nil => rfl
  | cons s ss ih =>
    simp only [flat, List.length_cons, ih]
    omega

theorem mem_flat {ss : List Slot} {n : ℕ} :
    n ∈ flat ss ↔ ∃ s ∈ ss, n = s.index ∨ n = s.expires ∨ n = s.attempts := by
  induction ss with
  | nil => simp [flat]
  | cons s ss ih => simp [flat, ih, or_assoc]

theorem readable_queueRecord {q : Qrec} (hint : ∀ n ∈ q.ints, (putInt n).Safe) :
    Readable (queueRecord q) := by
  intro it hit
  simp only [queueRecord, queueHead, List.mem_append, List.mem_cons, List.mem_map,
    List.not_mem_nil, or_false] at hit
  simp only [Qrec.ints, List.mem_append, List.mem_cons, List.not_mem_nil, or_false] at hint
  rcases hit with ((((hit | ⟨n, hn, rfl⟩) | hit) | ⟨n, hn, rfl⟩) | hit)
  · rcases hit with rfl | rfl | rfl | rfl | rfl | rfl | rfl | rfl | rfl | rfl | rfl | rfl | rfl |
      rfl | rfl <;> first | trivial | exact hint _ (by simp)
  · exact hint n (.inl (.inr hn))
  · rcases hit with rfl | rfl | rfl <;> trivial
  · exact hint n (.inr hn)
  · rcases hit with rfl | rfl <;> trivial

theorem foldl_inflight {l : List ℕ} {g : QGrab} (hin : g.inArray = .inflight)
    (hl : ∀ n ∈ l, n < 2 ^ 64) (hroom : g.fl.rows.length + l.length ≤ BJM_INFLIGHT_MAX * 3) :
    ∃ fl, (l.map putInt).foldl qVisit g = { g with fl := fl } ∧ fl.rows = g.fl.rows ++ l := by
  induction l generalizing g with
  | nil => exact ⟨g.fl, rfl, by simp⟩
  | cons n l ih =>
    simp only [List.length_cons] at hroom
    have hstep : qVisit g (putInt n) = { g with fl := g.fl.add n } := by
      simp only [qVisit, putInt, qInt, hin, ofDouble_toInt64 (hl n List.mem_cons_self)]
    have hrows := BoundedTable.add_rows (t := g.fl) (by omega) n
    obtain ⟨fl, hfl, hrows'⟩ := ih (g := { g with fl := g.fl.add n }) hin
      (fun m hm => hl m (List.mem_cons_of_mem _ hm)) (by simp [hrows]; omega)
    refine ⟨fl, ?_, by simp [hrows', hrows]⟩
    simpa only [List.map_cons, List.foldl_cons, hstep] using hfl

theorem foldl_dead {l : List ℕ} {g : QGrab} (hin : g.inArray = .dead)
    (hl : ∀ n ∈ l, n < 2 ^ 64) (hroom : g.dead.rows.length + l.length ≤ BJM_DEAD_MAX) :
    ∃ dead, (l.map putInt).foldl qVisit g = { g with dead := dead } ∧
      dead.rows = g.dead.rows ++ l := by
  induction l generalizing g with
  | nil => exact ⟨g.dead, rfl, by simp⟩
  | cons n l ih =>
    simp only [List.length_cons] at hroom
    have hstep : qVisit g (putInt n) = { g with dead := g.dead.add n } := by
      simp only [qVisit, putInt, qInt, hin, ofDouble_toInt64 (hl n List.mem_cons_self)]
    have hrows := BoundedTable.add_rows (t := g.dead) (by omega) n
    obtain ⟨dead, hdead, hrows'⟩ := ih (g := { g with dead := g.dead.add n }) hin
      (fun m hm => hl m (List.mem_cons_of_mem _ hm)) (by simp [hrows]; omega)
    refine ⟨dead, ?_, by simp [hrows', hrows]⟩
    simpa only [List.map_cons, List.foldl_cons, hstep] using hdead

/-- The scratch the decoder has filled when the in-flight array opens. -/
def headGrab (q : Qrec) : QGrab where
  next := q.next
  leaseMs := q.leaseMs
  maxAttempts := q.maxAttempts
  backoffMs := q.backoffMs
  maxBackoffMs := q.maxBackoffMs
  fl := .empty
  deadTotal := q.deadTotal
  dead := .empty
  key := ascii "inflight"
  inArray := .inflight

theorem foldl_queueHead {q : Qrec} (h : q.Words) :
    (queueHead q).foldl qVisit .zero = headGrab q := by
  have hfold : (queueHead q).foldl qVisit .zero =
      { headGrab q with
        next := ofDouble (toInt64 q.next)
        leaseMs := ofDouble (toInt64 q.leaseMs)
        maxAttempts := ofDouble (toInt64 q.maxAttempts)
        deadTotal := ofDouble (toInt64 q.deadTotal)
        backoffMs := ofDouble (toInt64 q.backoffMs)
        maxBackoffMs := ofDouble (toInt64 q.maxBackoffMs) } := rfl
  simp only [Qrec.Words, Qrec.ints, List.mem_append, List.mem_cons, List.not_mem_nil,
    or_false] at h
  rw [hfold, ofDouble_toInt64 (h q.next (by simp)), ofDouble_toInt64 (h q.leaseMs (by simp)),
    ofDouble_toInt64 (h q.maxAttempts (by simp)), ofDouble_toInt64 (h q.deadTotal (by simp)),
    ofDouble_toInt64 (h q.backoffMs (by simp)), ofDouble_toInt64 (h q.maxBackoffMs (by simp))]
  rfl

theorem foldl_queueRecord {q : Qrec} (h : q.Words) :
    ((queueRecord q).foldl qVisit .zero).qrec = q := by
  have hflat : ∀ n ∈ flat q.fl.rows, n < 2 ^ 64 := fun n hn => h n (by simp [Qrec.ints, hn])
  have hdead : ∀ n ∈ q.dead.rows, n < 2 ^ 64 := fun n hn => h n (by simp [Qrec.ints, hn])
  obtain ⟨fl, hfl, hflrows⟩ := foldl_inflight (g := headGrab q) rfl hflat (by
    have := q.fl.fits
    simp only [headGrab, BoundedTable.empty_rows, List.length_nil, length_flat]
    omega)
  let g : QGrab := { headGrab q with fl := fl, key := ascii "dead", inArray := .dead }
  obtain ⟨dead, hd, hdrows⟩ := foldl_dead (g := g) rfl hdead (by
    have := q.dead.fits
    simp only [g, headGrab, BoundedTable.empty_rows, List.length_nil]
    omega)
  have hfold : (queueRecord q).foldl qVisit .zero = { g with dead := dead, inArray := .none } := by
    have hmid : [Item.endArray, .key (ascii "dead"), .beginArray].foldl qVisit
        { headGrab q with fl := fl } = g := rfl
    simp only [queueRecord, List.foldl_append, foldl_queueHead h, hfl, hmid, hd]
    rfl
  have htable : triples fl.rows = q.fl.rows := by
    rw [hflrows, headGrab, BoundedTable.empty_rows, List.nil_append, triples_flat]
  obtain rfl : dead = q.dead := BoundedTable.ext (by simpa [g, headGrab] using hdrows)
  rw [hfold]
  simp only [QGrab.qrec, g, headGrab]
  congr 1
  exact BoundedTable.ext htable

def Slot.wrapped (e : Slot) : Slot := ⟨u64 e.index, u64 e.expires, u64 e.attempts⟩

/-- The record as its 64-bit fields hold it. -/
def Qrec.wrapped (q : Qrec) : Qrec where
  next := u64 q.next
  leaseMs := u64 q.leaseMs
  maxAttempts := u64 q.maxAttempts
  backoffMs := u64 q.backoffMs
  maxBackoffMs := u64 q.maxBackoffMs
  fl := ⟨q.fl.rows.map Slot.wrapped, by simpa using q.fl.fits⟩
  deadTotal := u64 q.deadTotal
  dead := ⟨q.dead.rows.map u64, by simpa using q.dead.fits⟩

@[simp] theorem putInt_u64 (n : ℕ) : putInt (u64 n) = putInt n := by
  simp only [putInt, toInt64, u64_u64]

theorem flat_wrapped (ss : List Slot) : flat (ss.map Slot.wrapped) = (flat ss).map u64 := by
  induction ss with
  | nil => rfl
  | cons s ss ih => simp [flat, Slot.wrapped, ih]

theorem Qrec.wrapped_words (q : Qrec) : q.wrapped.Words := by
  intro n hn
  simp only [Qrec.ints, Qrec.wrapped, flat_wrapped, List.mem_append, List.mem_cons,
    List.mem_map, List.not_mem_nil, or_false] at hn
  rcases hn with ((rfl | rfl | rfl | rfl | rfl | rfl) | ⟨m, -, rfl⟩) | ⟨m, -, rfl⟩ <;> exact u64_lt _

theorem queueRecord_wrapped (q : Qrec) : queueRecord q.wrapped = queueRecord q := by
  simp only [queueRecord, queueHead, Qrec.wrapped, flat_wrapped, List.map_map, putInt_u64,
    Function.comp_def]

/-- What the decoder has gathered so far is 64 bits wide. -/
structure QGrab.Words (g : QGrab) : Prop where
  next : g.next < 2 ^ 64
  leaseMs : g.leaseMs < 2 ^ 64
  maxAttempts : g.maxAttempts < 2 ^ 64
  backoffMs : g.backoffMs < 2 ^ 64
  maxBackoffMs : g.maxBackoffMs < 2 ^ 64
  deadTotal : g.deadTotal < 2 ^ 64
  fl : ∀ n ∈ g.fl.rows, n < 2 ^ 64
  dead : ∀ n ∈ g.dead.rows, n < 2 ^ 64

theorem QGrab.Words.visit {g : QGrab} (h : g.Words) (it : Item) : (qVisit g it).Words := by
  have hword : ∀ v, ofDouble v < 2 ^ 64 := by
    intro v
    simp only [ofDouble]
    omega
  have hadd : ∀ {cap : ℕ} {t : BoundedTable ℕ cap} (v : ℤ), (∀ n ∈ t.rows, n < 2 ^ 64) →
      ∀ n ∈ (t.add (ofDouble v)).rows, n < 2 ^ 64 := by
    intro cap t v ht n hn
    simp only [BoundedTable.add] at hn
    split at hn
    · rcases List.mem_append.mp hn with hn | hn
      · exact ht n hn
      · rw [List.mem_singleton.mp hn]
        exact hword v
    · exact ht n hn
  cases it with
  | int v =>
    simp only [qVisit, qInt]
    cases g.inArray with
    | inflight => exact { h with fl := hadd v h.fl }
    | dead => exact { h with dead := hadd v h.dead }
    | none =>
      dsimp only
      split
      · exact { h with next := hword v }
      split
      · exact { h with leaseMs := hword v }
      split
      · exact { h with maxAttempts := hword v }
      split
      · exact { h with deadTotal := hword v }
      split
      · exact { h with backoffMs := hword v }
      split
      · exact { h with maxBackoffMs := hword v }
      · exact h
  | key k => exact ⟨h.1, h.2, h.3, h.4, h.5, h.6, h.7, h.8⟩
  | endArray => exact ⟨h.1, h.2, h.3, h.4, h.5, h.6, h.7, h.8⟩
  | beginObject | endObject | beginArray | string | binary | bool | null => exact h

theorem flat_triples_subset (l : List ℕ) : flat (triples l) ⊆ l := by
  induction l using triples.induct with
  | case1 i e a rest ih =>
    intro n hn
    simp only [triples, flat, List.mem_cons] at hn ⊢
    rcases hn with rfl | rfl | rfl | hn
    · exact .inl rfl
    · exact .inr (.inl rfl)
    · exact .inr (.inr (.inl rfl))
    · exact .inr (.inr (.inr (ih hn)))
  | case2 l h =>
    intro n hn
    rw [triples] at hn
    · exact absurd hn List.not_mem_nil
    · exact h

/-- Whatever a record holds, the group read from it holds 64-bit words. -/
theorem words_of_queueDecode {r : Record} {q : Qrec} (h : queueDecode r = .ok q) : q.Words := by
  have hfold : ∀ (r : Record) (g : QGrab), g.Words → (r.foldl qVisit g).Words := by
    intro r
    induction r with
    | nil => exact fun _ h => h
    | cons it r ih => exact fun g h => ih _ (h.visit it)
  have hzero : QGrab.zero.Words := by
    refine ⟨?_, ?_, ?_, ?_, ?_, ?_, ?_, ?_⟩ <;> simp [QGrab.zero]
  by_cases hr : Readable r
  · rw [queueDecode, bjDecode_of_readable _ hr] at h
    obtain rfl := Except.ok.inj h
    have hg := hfold r .zero hzero
    intro n hn
    simp only [Qrec.ints, QGrab.qrec, List.mem_append, List.mem_cons, List.not_mem_nil,
      or_false] at hn
    rcases hn with ((rfl | rfl | rfl | rfl | rfl | rfl) | hn) | hn
    · exact hg.next
    · exact hg.leaseMs
    · exact hg.maxAttempts
    · exact hg.deadTotal
    · exact hg.backoffMs
    · exact hg.maxBackoffMs
    · exact hg.fl n (flat_triples_subset _ hn)
    · exact hg.dead n hn
  · simp [queueDecode, bjDecode_of_unreadable _ hr, Except.map] at h

theorem queueDecode_of_readable {q : Qrec} (h : q.Words) (hr : Readable (queueRecord q)) :
    queueDecode (queueRecord q) = .ok q := by
  rw [queueDecode, bjDecode_of_readable _ hr, Except.map, foldl_queueRecord h]

theorem queueDecode_of_unreadable {q : Qrec} (hr : ¬ Readable (queueRecord q)) :
    queueDecode (queueRecord q) = .error .intRange := by
  rw [queueDecode, bjDecode_of_unreadable _ hr, Except.map]

theorem queueDecode_of_carried {q : Qrec} (h : ∀ n ∈ q.ints, Carried n) :
    queueDecode (queueRecord q) = .ok q :=
  queueDecode_of_readable (fun n hn => (h n hn).word)
    (readable_queueRecord fun n hn => (h n hn).safe)

theorem queueDecode_queueRecord {q : Qrec} (h : q.Small) : queueDecode (queueRecord q) = .ok q :=
  queueDecode_of_carried fun n hn => .of_lt (h n hn)

end SukkalMsg
