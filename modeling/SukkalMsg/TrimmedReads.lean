import SukkalMsg.ReceiptBounds
import SukkalMsg.PushProgress

/-!
# Reads of a trimmed log

A log that was trimmed no longer begins at its first message. A plain read moves up
to the oldest message there is. A consumer's read does not, and has made its receipt
by the time it finds out; nor does the dead-letter view of a channel.
-/

namespace SukkalMsg

open Std Names Binjson OrderedScan

variable {H : Host} {b : App} {req : Request} {s dead : Bytes} {log : Elog}

namespace Store

variable {st : Store} {V : Vendor} {start max : ℕ}

theorem bjmRead_of_log (V : Vendor) (max : ℕ) (hf : fileFits s = true)
    (hl : st.logs[s]? = some log) (hstart : start ≠ 0) :
    st.bjmRead V s start max =
      if start ≤ log.base then .error .range
      else .ok (min (V.batchCount log start max) (log.last + 1 - start), log.last) := by
  simp only [bjmRead, subjectGet_of_log st hf hl, hstart, if_false]

theorem bjmRead_missing (hf : fileFits s = true) (hl : st.logs[s]? = none) :
    st.bjmRead V s start max = .error .state := by
  simp [bjmRead, subjectGet, hf, hl]

theorem readAnswer_above (V : Vendor) (max skipped : ℕ) (acked : Option ℕ)
    (hf : fileFits s = true) (hl : st.logs[s]? = some log) (hstart : log.base < start) :
    (readAnswer V st s start max skipped acked).status = 200 ∧
      (readAnswer V st s start max skipped acked).payload =
        .batch ((log.entries.drop (start - log.base - 1)).take
          (min (V.batchCount log start max) (log.last + 1 - start))) := by
  have hlog : st.logOf s = log := by simp [logOf, hl]
  have hread := bjmRead_of_log V max hf hl (show start ≠ 0 by omega)
  rw [if_neg (by omega)] at hread
  simp only [readAnswer, hread, readEntries, hlog]
  exact ⟨trivial, trivial⟩

theorem readAnswer_below (V : Vendor) (max skipped : ℕ) (acked : Option ℕ)
    (hf : fileFits s = true) (hl : st.logs[s]? = some log) (hpos : start ≠ 0)
    (hstart : start ≤ log.base) :
    (readAnswer V st s start max skipped acked).status = 416 := by
  have hread := bjmRead_of_log V max hf hl hpos
  rw [if_pos hstart] at hread
  simp only [readAnswer, hread]
  rfl

end Store

/-- `plain` is the read of a channel, by index, that a dead-letter view stands for. -/
structure ReadsChannel (plain view : Request) (dead : Bytes) : Prop where
  path : plain.path = ascii "/sub/" ++ dead
  start : plain.query (ascii "from") = view.query (ascii "from")
  limit : plain.query (ascii "max") = view.query (ascii "max")
  alone : plain.query (ascii "consumer") = none

/-- The dead-letter view answers as the plain read of its channel would, and with
nothing where there is no channel. -/
structure DeadViewAgrees (H : Host) (b : App) (view plain : Request) (dead : Bytes) : Prop where
  status : (b.hDead H view).1.status = 200
  absent : b.store.logs[dead]? = none → (b.hDead H view).1.payload = .record (arrayRecord [])
  present : b.store.logs[dead]? ≠ none →
    (b.hDead H view).1.payload = (b.hSubscribe H plain).1.payload

def viewFrom (req : Request) : ℕ := max 1 (req.queryU64 (ascii "from") 1)

namespace ReadsChannel

variable {plain view : Request}

theorem subject (h : ReadsChannel plain view dead) (hd : bjmSubjectValid dead = true) :
    subjectAt plain (ascii "/sub/") = .ok dead := by
  simp only [subjectAt, subjectOf, h.path, List.drop_left, hd, if_true]

theorem consumer (h : ReadsChannel plain view dead) : plain.queryConsumer = .ok none := by
  simp only [Request.queryConsumer, Request.queryName, Request.queryGet, h.alone]

theorem readMax_eq (h : ReadsChannel plain view dead) : readMax plain = readMax view := by
  have hmax : plain.queryU64 (ascii "max") SUKKAL_DEFAULT_BATCH =
      view.queryU64 (ascii "max") SUKKAL_DEFAULT_BATCH := by
    simp only [Request.queryU64, Request.queryGet, h.limit]
  simp only [readMax, hmax]

theorem from_eq (h : ReadsChannel plain view dead) :
    max 1 (plain.queryU64 (ascii "from") 0) = viewFrom view := by
  simp only [viewFrom, Request.queryU64, Request.queryGet, h.start]
  -- an absent or unreadable number is 0 for the one and 1 for the other
  cases view.query (ascii "from") with
  | none => rfl
  | some v =>
    dsimp only
    split
    · rename_i buf hbuf
      split <;> rfl
    · rfl

end ReadsChannel

/-- A first read by a consumer that fails leaves it without a receipt, and one that
does not begins its batch after the receipt it made. -/
structure BeginsOrNot (H : Host) (b : App) (req : Request) (s c : Bytes) : Prop where
  failed : (b.hSubscribe H req).1.status ≠ 200 →
    (b.hSubscribe H req).2.store.cursors[pairKey s c]? = none ∧
      (b.hSubscribe H req).2.store.trimProtect s = b.store.trimProtect s
  begun : (b.hSubscribe H req).1.status = 200 → ∃ n count,
    (b.hSubscribe H req).2.store.cursors[pairKey s c]? = some (Store.indexRecord n) ∧
      (b.store.logOf s).base ≤ n ∧ (b.hSubscribe H req).1.payload =
        .batch (((b.store.logOf s).entries.drop (n - (b.store.logOf s).base)).take count)

def firstReceipt (st : Store) (s : Bytes) (req : Request) : ℕ :=
  if req.startsLast then st.bjmLastIndex s else 0

def Store.begunAt (st : Store) (s c : Bytes) (n : ℕ) : Store :=
  { st with cursors := st.cursors.insert (pairKey s c) (indexRecord n) }

theorem queryConsumer_valid {c : Bytes} (h : req.queryConsumer = .ok (some c)) :
    bjmConsumerValid c = true := by
  simp only [Request.queryConsumer, Request.queryName] at h
  split at h
  · exact absurd (Except.ok.inj h) (by simp)
  · contradiction
  · split at h
    · rename_i hvalid
      rwa [Option.some.inj (Except.ok.inj h)] at hvalid
    · contradiction

namespace App

theorem hSubscribe_plain {start : ℕ} (hs : subjectAt req (ascii "/sub/") = .ok s)
    (hc : req.queryConsumer = .ok none) (hl : b.store.logs[s]? = some log)
    (hfrom : max 1 (req.queryU64 (ascii "from") 0) = start) :
    (b.hSubscribe H req).1.status = 200 ∧ (b.hSubscribe H req).1.payload =
      .batch ((log.entries.drop (max start (log.base + 1) - log.base - 1)).take
        (min (H.vendor.batchCount log (max start (log.base + 1)) (readMax req))
          (log.last + 1 - max start (log.base + 1)))) := by
  have hf := Store.fileFits_of_valid (subjectAt_valid hs)
  have hinfo : b.store.bjmSubjectInfo H.vendor s =
      .ok (log.base, log.last, H.vendor.fileLen log) := by
    simp only [Store.bjmSubjectInfo, Store.subjectGet_of_log b.store hf hl, Except.map]
  simp only [hSubscribe, hs, hc, hinfo, hfrom]
  by_cases hle : start ≤ log.base
  · rw [if_pos hle, show max start (log.base + 1) = log.base + 1 by omega]
    exact Store.readAnswer_above _ _ _ _ hf hl (by omega)
  · rw [if_neg hle, show max start (log.base + 1) = start by omega]
    exact Store.readAnswer_above _ _ _ _ hf hl (by omega)

theorem hDead_refused (hs : subjectAt req (ascii "/dead/") = .ok s)
    (hd : deadSubjectOf s = none) : (b.hDead H req).1.status = 400 := by
  have hvalid := subjectAt_valid hs
  simp only [hDead, hs]
  by_cases hsuffix : BJM_DEAD_SUFFIX <:+ s
  · rw [if_pos (by simpa using hsuffix)]
    rfl
  · rw [if_neg (by simpa using hsuffix)]
    by_cases hlong : (s ++ BJM_DEAD_SUFFIX).length ≥ BJM_SUBJECT_MAX + 1
    · rw [if_pos hlong]
      rfl
    · have hjoined : bjmSubjectValid (s ++ BJM_DEAD_SUFFIX) = true :=
        nameValid_join.mpr ⟨hvalid, by decide, Nat.le_of_not_lt hlong⟩
      rw [deadSubjectOf, if_neg hsuffix] at hd
      simp only [hjoined, Bool.not_true, Bool.or_false, decide_eq_true_eq, if_neg hlong] at hd
      contradiction

theorem deadSubjectOf_eq (hd : deadSubjectOf s = some dead) : dead = s ++ BJM_DEAD_SUFFIX := by
  simp only [deadSubjectOf] at hd
  split at hd
  · contradiction
  · split at hd
    · contradiction
    · exact (Option.some.inj hd).symm

theorem hDead_read (hs : subjectAt req (ascii "/dead/") = .ok s)
    (hd : deadSubjectOf s = some dead) :
    (b.hDead H req).1 = match b.store.bjmRead H.vendor dead (viewFrom req) (readMax req) with
      | .error .state => ⟨200, [(ascii "X-Sukkal-Count", ascii "0")], .record (arrayRecord [])⟩
      | .error e => resErr (statusFor e) "dead-letter read failed\n"
      | .ok (count, last) =>
        ⟨200, [(ascii "X-Sukkal-Count", decimalText count),
          (ascii "X-Sukkal-Last-Index", decimalText last)],
          .batch (b.store.readEntries dead (viewFrom req) count)⟩ := by
  obtain rfl := deadSubjectOf_eq hd
  simp only [deadSubjectOf] at hd
  split at hd
  · contradiction
  rename_i hsuffix
  split at hd
  · contradiction
  rename_i hfits
  simp only [Bool.or_eq_true, decide_eq_true_eq, not_or] at hfits
  simp only [hDead, hs]
  rw [if_neg (by simpa using hsuffix), if_neg hfits.1]
  simp only [viewFrom]
  generalize Store.bjmRead H.vendor b.store _ _ _ = r
  cases r with
  | error e => cases e <;> rfl
  | ok r => rfl

/-- The dead-letter view agrees with a plain read exactly when the subject has a
channel, and that is absent or asked from above its base. -/
theorem dead_view_agrees_iff (H : Host) (b : App) {view plain : Request} {s : Bytes}
    (hs : subjectAt view (ascii "/dead/") = .ok s)
    (hplain : ReadsChannel plain view (s ++ BJM_DEAD_SUFFIX)) :
    DeadViewAgrees H b view plain (s ++ BJM_DEAD_SUFFIX) ↔
      deadSubjectOf s = some (s ++ BJM_DEAD_SUFFIX) ∧
        ∀ log, b.store.logs[s ++ BJM_DEAD_SUFFIX]? = some log → log.base < viewFrom view := by
  cases hd : deadSubjectOf s with
  | none =>
    refine iff_of_false (fun h => ?_) fun h => by simp at h
    have := (hDead_refused hs hd).symm.trans h.status
    contradiction
  | some dead =>
    obtain rfl := deadSubjectOf_eq hd
    have hvalid := deadSubjectOf_valid hd
    have hf := Store.fileFits_of_valid hvalid
    have hview := hDead_read (H := H) (b := b) hs hd
    simp only [true_and]
    cases hl : b.store.logs[s ++ BJM_DEAD_SUFFIX]? with
    | none =>
      rw [Store.bjmRead_missing hf hl] at hview
      refine iff_of_true ⟨by rw [hview], fun _ => by rw [hview], fun h => absurd hl h⟩ ?_
      intro log h
      contradiction
    | some log =>
      obtain ⟨-, hread⟩ := hSubscribe_plain (H := H) (hplain.subject hvalid) hplain.consumer hl
        hplain.from_eq
      have hpos : viewFrom view ≠ 0 := by
        simp only [viewFrom]
        omega
      have hlog : b.store.logOf (s ++ BJM_DEAD_SUFFIX) = log := by simp [Store.logOf, hl]
      rw [Store.bjmRead_of_log _ _ hf hl hpos] at hview
      simp only [Option.some.injEq, forall_eq']
      constructor
      · intro h
        by_contra hlow
        rw [if_pos (by omega)] at hview
        have hstatus := h.status
        rw [hview] at hstatus
        exact absurd (show (416 : ℕ) = 200 from hstatus) (by decide)
      · intro hlow
        rw [if_neg (by omega)] at hview
        refine ⟨by rw [hview], fun h => ?_, fun _ => ?_⟩
        · rw [hl] at h
          contradiction
        · rw [hview, hread, hplain.readMax_eq, show max (viewFrom view) (log.base + 1) =
            viewFrom view by omega]
          simp only [Store.readEntries, hlog]

theorem hSubscribe_first {c : Bytes} (hs : subjectAt req (ascii "/sub/") = .ok s)
    (hc : req.queryConsumer = .ok (some c)) (hack : req.queryU64 (ascii "ack") 0 = 0)
    (hfresh : b.store.cursors[pairKey s c]? = none) (hl : b.store.logs[s]? = some log) :
    b.hSubscribe H req =
      (readAnswer H.vendor (b.store.begunAt s c (firstReceipt b.store s req)) s
        (u64 (firstReceipt b.store s req + 1)) (readMax req) 0
          (some (firstReceipt b.store s req)),
        { b with store := b.store.begunAt s c (firstReceipt b.store s req) }) := by
  have hvalid := subjectAt_valid hs
  have hinfo : b.store.bjmSubjectInfo H.vendor s =
      .ok (log.base, log.last, H.vendor.fileLen log) := by
    simp only [Store.bjmSubjectInfo,
      Store.subjectGet_of_log b.store (Store.fileFits_of_valid hvalid) hl, Except.map]
  have hkey := cursorKey_of_valid hvalid (queryConsumer_valid hc)
  have hget : b.store.bjmCursorGet s c = .ok none := by
    simp only [Store.bjmCursorGet, hkey, hfresh]
  have hset : ∀ n, b.store.bjmCursorSet s c n = .ok (b.store.begunAt s c n) := by
    intro n
    simp only [Store.bjmCursorSet, hget, hkey, Option.any_none, Bool.false_eq_true, if_false]
    rfl
  have hreceipt : b.store.readReceipt s c req =
      (.ok (firstReceipt b.store s req), b.store.begunAt s c (firstReceipt b.store s req)) := by
    simp only [Store.readReceipt, hack, ne_eq, not_true_eq_false, if_false, hget, hset]
    rfl
  simp only [hSubscribe, hs, hinfo, hc, hreceipt]

/-- A first read leaves no receipt behind when it fails exactly when the log was
never trimmed, or the read begins at the end. -/
theorem begins_or_not_iff (H : Host) (b : App) {req : Request} {s c : Bytes}
    (hs : subjectAt req (ascii "/sub/") = .ok s) (hc : req.queryConsumer = .ok (some c))
    (hack : req.queryU64 (ascii "ack") 0 = 0) (hfresh : b.store.cursors[pairKey s c]? = none)
    (hfits : (b.store.logOf s).last + 1 < 2 ^ 64) :
    BeginsOrNot H b req s c ↔ (b.store.logOf s).base = 0 ∨ req.startsLast = true := by
  have hf := Store.fileFits_of_valid (subjectAt_valid hs)
  cases hl : b.store.logs[s]? with
  | none =>
    have hrun : b.hSubscribe H req = (resErr 404 "no such subject\n", b) := by
      simp [hSubscribe, hs, Store.bjmSubjectInfo, Store.subjectGet, hf, hl, Except.map]
    refine iff_of_true ⟨fun _ => ?_, fun h => ?_⟩ (.inl (by simp [Store.logOf, hl]))
    · rw [hrun]
      exact ⟨hfresh, rfl⟩
    · rw [hrun] at h
      exact absurd (show (404 : ℕ) = 200 from h) (by decide)
  | some log =>
    have hlog : b.store.logOf s = log := by simp [Store.logOf, hl]
    have hlast : b.store.bjmLastIndex s = log.last := by
      simp only [Store.bjmLastIndex, Store.subjectGet_of_log b.store hf hl]
    have hown : log.base ≤ log.last := Nat.le_add_right _ _
    have hrun := hSubscribe_first (H := H) hs hc hack hfresh hl
    have hanswer := congrArg Prod.fst hrun
    have hmade : (b.hSubscribe H req).2.store.cursors[pairKey s c]? =
        some (Store.indexRecord (firstReceipt b.store s req)) := by
      rw [hrun]
      exact ExtTreeMap.getElem?_insert_self
    have hl' : (b.store.begunAt s c (firstReceipt b.store s req)).logs[s]? = some log := hl
    rw [hlog] at hfits ⊢
    by_cases hok : log.base = 0 ∨ req.startsLast = true
    · -- the receipt is at the base or past it, so there is something to read from
      have hn : log.base ≤ firstReceipt b.store s req ∧ firstReceipt b.store s req ≤ log.last := by
        simp only [firstReceipt]
        split
        · omega
        · rename_i hstart
          have := hok.resolve_right hstart
          omega
      have hu : u64 (firstReceipt b.store s req + 1) = firstReceipt b.store s req + 1 :=
        Nat.mod_eq_of_lt (by omega)
      simp only [hu] at hanswer
      obtain ⟨hstatus, hpayload⟩ := Store.readAnswer_above H.vendor (readMax req) 0
        (some (firstReceipt b.store s req)) hf hl'
        (show log.base < firstReceipt b.store s req + 1 by omega)
      refine iff_of_true ⟨fun h => absurd (hanswer ▸ hstatus) h, fun _ => ?_⟩ hok
      have hdrop : firstReceipt b.store s req + 1 - log.base - 1 =
          firstReceipt b.store s req - log.base := by omega
      rw [hdrop, ← hanswer] at hpayload
      rw [hlog]
      exact ⟨_, _, hmade, hn.1, hpayload⟩
    · -- the receipt is at 0, and what comes after that is gone
      have hzero : firstReceipt b.store s req = 0 := by
        simp only [firstReceipt, if_neg fun h => hok (.inr h)]
      rw [hzero] at hanswer hl'
      refine iff_of_false (fun h => ?_) hok
      have hbelow := Store.readAnswer_below H.vendor (readMax req) 0 (some 0) hf hl'
        (show u64 (0 + 1) ≠ 0 by decide)
        (show u64 (0 + 1) ≤ log.base from Nat.pos_of_ne_zero fun h => hok (.inl h))
      have hfailed : (b.hSubscribe H req).1.status ≠ 200 := by
        rw [hanswer, hbelow]
        decide
      have hgone := (h.failed hfailed).1
      rw [hmade] at hgone
      contradiction

def trimChannel : Except BjErr Store := do
  let (_, st) ← Store.empty.bjmPublish 0 (ascii "jobs.dead") ⟨BJM_ENTRY_PLAIN, [7]⟩
  let (_, st) ← st.bjmPublish 0 (ascii "jobs.dead") ⟨BJM_ENTRY_PLAIN, [8]⟩
  let (_, _, st) ← st.bjmTrim (ascii "jobs.dead") 2 false
  .ok st

def trimmedChannel : App := ⟨trimChannel.toOption.getD .empty, .blank 0⟩

/-- `GET /dead/jobs`, and `GET /sub/jobs.dead`. -/
def viewJobs (params : List (Bytes × Bytes)) : Request := .plain (ascii "/dead/jobs") params
def readJobs (params : List (Bytes × Bytes)) : Request := .plain (ascii "/sub/jobs.dead") params

/-- The view, asked as it is by default, fails where the plain read finds the envelope
that is left. -/
theorem trimmed_dead_view :
    trimChannel = .ok trimmedChannel.store ∧
    ReadsChannel (readJobs []) (viewJobs []) (ascii "jobs.dead") ∧
    (trimmedChannel.hDead (plainHost .packing) (viewJobs [])).1.status = 416 ∧
    (trimmedChannel.hSubscribe (plainHost .packing) (readJobs [])).1.payload =
      .batch [⟨BJM_ENTRY_PLAIN, [8]⟩] ∧
    ¬ DeadViewAgrees (plainHost .packing) trimmedChannel (viewJobs []) (readJobs [])
      (ascii "jobs.dead") := by
  have hstatus : (trimmedChannel.hDead (plainHost .packing) (viewJobs [])).1.status = 416 := by
    decide +kernel
  refine ⟨rfl, ⟨rfl, rfl, rfl, rfl⟩, hstatus, rfl, fun h => ?_⟩
  exact absurd (hstatus.symm.trans h.status) (by decide)

/-- From the surviving envelope on, the two agree. -/
theorem trimmed_dead_view_iff :
    DeadViewAgrees (plainHost .packing) trimmedChannel (viewJobs [(ascii "from", ascii "2")])
        (readJobs [(ascii "from", ascii "2")]) (ascii "jobs" ++ BJM_DEAD_SUFFIX) ↔
      deadSubjectOf (ascii "jobs") = some (ascii "jobs" ++ BJM_DEAD_SUFFIX) ∧
        ∀ log, trimmedChannel.store.logs[ascii "jobs" ++ BJM_DEAD_SUFFIX]? = some log →
          log.base < viewFrom (viewJobs [(ascii "from", ascii "2")]) :=
  dead_view_agrees_iff _ _ rfl ⟨rfl, rfl, rfl, rfl⟩

/-- `carol` reads the trimmed log for the first time. -/
def carolReads : Request := readJobs [(ascii "consumer", ascii "carol")]

def carolAnswered : Response × App := trimmedChannel.hSubscribe (plainHost .packing) carolReads

/-- She is refused, and from then on nothing more can be trimmed. -/
theorem trimmed_first_read :
    trimChannel = .ok trimmedChannel.store ∧
    trimmedChannel.store.cursors[pairKey (ascii "jobs.dead") (ascii "carol")]? = none ∧
    trimmedChannel.store.trimProtect (ascii "jobs.dead") = UINT64_MAX ∧
    carolAnswered.1.status = 416 ∧
    carolAnswered.2.store.cursors[pairKey (ascii "jobs.dead") (ascii "carol")]? =
      some (Store.indexRecord 0) ∧
    carolAnswered.2.store.trimProtect (ascii "jobs.dead") = 0 ∧
    ¬ BeginsOrNot (plainHost .packing) trimmedChannel carolReads (ascii "jobs.dead")
      (ascii "carol") := by
  have hstatus : carolAnswered.1.status = 416 := by decide +kernel
  have hleft : carolAnswered.2.store.cursors[pairKey (ascii "jobs.dead") (ascii "carol")]? =
      some (Store.indexRecord 0) := by decide +kernel
  refine ⟨rfl, by decide +kernel, by decide +kernel, hstatus, hleft, by decide +kernel,
    fun h => ?_⟩
  have hfailed : carolAnswered.1.status ≠ 200 := by
    rw [hstatus]
    decide
  have hnone := (h.failed hfailed).1
  exact absurd (hleft.symm.trans hnone) (by simp)

/-- At the end of the same log she may begin. -/
theorem trimmed_first_read_iff :
    BeginsOrNot (plainHost .packing) trimmedChannel
        (readJobs [(ascii "consumer", ascii "carol"), (ascii "start", ascii "last")])
        (ascii "jobs.dead") (ascii "carol") ↔
      (trimmedChannel.store.logOf (ascii "jobs.dead")).base = 0 ∨
        (readJobs [(ascii "consumer", ascii "carol"),
          (ascii "start", ascii "last")]).startsLast = true :=
  begins_or_not_iff _ _ rfl rfl rfl (by decide +kernel) (by decide +kernel)

end App

end SukkalMsg
