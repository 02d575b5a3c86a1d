import SukkalMsg.ActionRuns
import SukkalMsg.PublishHandler

/-!
# Publishing the same id again

Requests and restarts of one broker, in clock order. An id that was answered stays
findable for one window, wherever the rotations fall, so a repeated request gets
the first answer's index and appends nothing; and an id is only ever answered with
the index of a message it published itself.
-/

namespace SukkalMsg

open Std Names Binjson OrderedScan TwoGenerations ActionRuns Store

variable {V : Vendor}

/-- A request with its answer, and the store before and after it. -/
structure Exchange where
  now : ℕ
  req : Request
  answer : Answer
  before : Store
  after : Store

inductive BrokerOp where
  | request (now : ℕ) (req : Request)
  | restart

def brokerExec (V : Vendor) (st : Store) : BrokerOp → List Exchange × Store
  | .request now req => ([⟨now, req, (st.hPublish V now req).1, st, (st.hPublish V now req).2⟩],
      (st.hPublish V now req).2)
  | .restart => ([], st.restart)

/-- The subject and the id a well-formed request publishes under. -/
def requestKey (V : Vendor) (req : Request) : Option (Bytes × Bytes) :=
  match publication V req with
  | .error _ => none
  | .ok p => p.id.map (p.subject, ·)

def Exchange.Appended (x : Exchange) (s : Bytes) (n : ℕ) : Prop :=
  n = (x.before.logOf s).last + 1 ∧ ∃ e, x.after.logOf s = (x.before.logOf s).append e

/-- The clock is positive, does not run backwards, and it and the indexes stay
within the codec's range. -/
def BrokerOp.InOrder (V : Vendor) (h : List Exchange) (st : Store) : BrokerOp → Prop
  | .restart => True
  | .request now req => 0 < now ∧ now < 2 ^ 53 ∧ (∀ x ∈ h, x.now ≤ now) ∧
      ∀ p, publication V req = .ok p → (st.logOf p.subject).last + 1 < 2 ^ 53

/-- A success that names this index and calls itself a duplicate, unless the
acknowledgement that the same request asks for is refused. -/
def duplicateAnswer (st : Store) (req : Request) (s : Bytes) (n : ℕ) : Answer :=
  match (st.publishAck req).1 with
  | .ok acked => .published s n acked (some true)
  | .error refusal => refusal

/-- A repeat within the window of an answered request collapses onto it. -/
def Collapses (V : Vendor) (w : ℕ) (before : List Exchange) (y : Exchange) : Prop :=
  ∀ x ∈ before, ∀ s i n acked dup, requestKey V x.req = some (s, i) →
    x.answer = .published s n acked dup → requestKey V y.req = some (s, i) →
      y.now ≤ x.now + w →
        y.after.logs = y.before.logs ∧ y.answer = duplicateAnswer y.before y.req s n

/-- A duplicate is the message an earlier request of the same subject and id added. -/
def OwnDuplicate (V : Vendor) (before : List Exchange) (y : Exchange) : Prop :=
  ∀ s n acked, y.answer = .published s n acked (some true) →
    ∃ i, requestKey V y.req = some (s, i) ∧
      ∃ x ∈ before, requestKey V x.req = some (s, i) ∧ x.Appended s n

def Known (V : Vendor) (h : List Exchange) (m : Memory Bytes Record) : Prop :=
  ∀ k r, m.cur k = some r ∨ m.old k = some r → ∃ x ∈ h, ∃ s i n,
    requestKey V x.req = some (s, i) ∧ k = pairKey s i ∧ r = indexRecord n ∧ n < 2 ^ 53 ∧
      x.Appended s n

/-- Every answered request is safe, as long as no later one came after its window. -/
def AllSafe (V : Vendor) (w : ℕ) (h : List Exchange) (m : Memory Bytes Record) : Prop :=
  ∀ x ∈ h, ∀ s i n acked dup, requestKey V x.req = some (s, i) →
    x.answer = .published s n acked dup → (∀ y ∈ h, y.now ≤ x.now + w) →
      n < 2 ^ 53 ∧ Memory.Safe w m (pairKey s i) (indexRecord n) x.now

/-- What the index holds after a history. -/
structure Holds (V : Vendor) (w : ℕ) (h : List Exchange) (st : Store) (m : Memory Bytes Record) :
    Prop where
  saved : SavedAs st m
  rotated : ∃ x ∈ h, m.rotated ≤ x.now
  known : Known V h m
  safe : AllSafe V w h m

structure PublishInv (V : Vendor) (w : ℕ) (h : List Exchange) (st : Store) : Prop where
  window : st.bjmDedupWindow = w
  index : (DedupFresh st ∧ ∀ x ∈ h, requestKey V x.req = none) ∨ ∃ m, Holds V w h st m
  collapses : Each (Collapses V w) h
  own : Each (OwnDuplicate V) h

theorem requestKey_eq_some {req : Request} {s i : Bytes} (h : requestKey V req = some (s, i)) :
    ∃ p, publication V req = .ok p ∧ p.subject = s ∧ p.id = some i ∧
      bjmSubjectValid s = true ∧ bjmDedupIdValid i = true := by
  simp only [requestKey] at h
  split at h
  · contradiction
  · rename_i p hp
    simp only [Option.map_eq_some_iff, Prod.mk.injEq] at h
    obtain ⟨id, hid, hs, rfl⟩ := h
    obtain ⟨hv, hiv⟩ := publication_valid hp
    exact ⟨p, hp, hs, hid, hs ▸ hv, hiv id hid⟩

theorem indexRecord_injective {n m : ℕ} (hn : n < 2 ^ 53) (hm : m < 2 ^ 53)
    (h : indexRecord n = indexRecord m) : n = m := by
  have hd := decodeIndex_indexRecord hn
  rw [h, decodeIndex_indexRecord hm] at hd
  exact (Except.ok.inj hd).symm

namespace Known

variable {h : List Exchange} {m : Memory Bytes Record}

theorem good (hk : Known V h m) : GoodValues m := by
  intro k r hkr
  obtain ⟨x, -, s, i, n, -, -, hr, hn, -⟩ := hk k r hkr
  exact ⟨n, hn, hr⟩

theorem mono (hk : Known V h m) (h' : List Exchange) : Known V (h ++ h') m := by
  intro k r hkr
  obtain ⟨x, hx, hrest⟩ := hk k r hkr
  exact ⟨x, List.mem_append_left _ hx, hrest⟩

theorem lookup (hk : Known V h m) {w c now : ℕ} {key : Bytes} :
    Known V h (m.lookup w c now key).2 :=
  fun k r hkr => hk k r (Memory.rotate_sub (Memory.lookup_sub hkr))

theorem remember (hk : Known V h m) {x : Exchange} {s i : Bytes} {n : ℕ} (hx : x ∈ h)
    (hkey : requestKey V x.req = some (s, i)) (hn : n < 2 ^ 53) (ha : x.Appended s n) :
    Known V h (m.remember (pairKey s i) (indexRecord n)) := by
  intro k r hkr
  rw [Memory.remember_cur, Memory.remember_old] at hkr
  by_cases hk' : k = pairKey s i
  · rw [if_pos hk'] at hkr
    rcases hkr with hr | hr
    · exact ⟨x, hx, s, i, n, hkey, hk', (Option.some.inj hr).symm, hn, ha⟩
    · exact hk k r (.inr hr)
  · rw [if_neg hk'] at hkr
    exact hk k r hkr

end Known

theorem clearAt_ok {w now rotated : ℕ} (hnow : now < 2 ^ 53) (hel : w ≤ now - rotated)
    (hclear : u64 (2 * w) ≤ now - rotated) : 2 * w ≤ now - rotated := by
  have : 2 * w < 2 ^ 64 := by omega
  rwa [u64_of_lt this] at hclear

theorem PublishInv.opened {w now : ℕ} {h : List Exchange} {st : Store} (hi : PublishInv V w h st)
    (hpos : 0 < now) (hlt : now < 2 ^ 53) (hclock : ∀ x ∈ h, x.now ≤ now) :
    ∃ m, SavedAs (st.dedupOpen now) m ∧ m.rotated ≤ now ∧ Known V h m ∧ AllSafe V w h m := by
  rcases hi.index with ⟨hf, hnone⟩ | ⟨m, hm⟩
  · obtain ⟨hmem, hsaved⟩ := dedupOpen_of_fresh hf now
    have hsv := hsaved hpos hlt
    rw [hmem] at hsv
    refine ⟨_, hsv, Nat.le_refl now, ?_, ?_⟩
    · intro k r hkr
      simp at hkr
    · intro x hx s i n acked dup hkey
      rw [hnone x hx] at hkey
      contradiction
  · obtain ⟨x, hx, hle⟩ := hm.rotated
    exact ⟨m, hm.saved.dedupOpen, Nat.le_trans hle (hclock x hx), hm.known, hm.safe⟩

theorem lookup_step {w now : ℕ} {h : List Exchange} {st : Store} (hi : PublishInv V w h st)
    (hpos : 0 < now) (hlt : now < 2 ^ 53) (hclock : ∀ x ∈ h, x.now ≤ now) {s i : Bytes}
    (hs : bjmSubjectValid s = true) (hiv : bjmDedupIdValid i = true) :
    ∃ m', SavedAs (st.bjmDedupLookup now s i).2 m' ∧
      (st.bjmDedupLookup now s i).2.ddOpen = true ∧
      (m'.rotated ≤ now ∧ now < m'.rotated + w) ∧ Known V h m' ∧
      (∀ x ∈ h, ∀ s' i' n acked dup, requestKey V x.req = some (s', i') →
        x.answer = .published s' n acked dup → now ≤ x.now + w →
          n < 2 ^ 53 ∧ Memory.Safe w m' (pairKey s' i') (indexRecord n) x.now) ∧
      ((m'.find (pairKey s i) = none ∧ (st.bjmDedupLookup now s i).1 = .ok none) ∨
        ∃ n, n < 2 ^ 53 ∧ m'.cur (pairKey s i) = some (indexRecord n) ∧
          (st.bjmDedupLookup now s i).1 = .ok (some n)) := by
  obtain ⟨m, hsaved, hle, hknown, hsafe⟩ := hi.opened hpos hlt hclock
  have hw : (st.dedupOpen now).bjmDedupWindow = w :=
    (DedupOnly.dedupOpen now).window_eq.trans hi.window
  have hwpos : 0 < w := hi.window ▸ st.window_pos
  have href := bjmDedupLookup_refines hsaved (dedupOpen_ddOpen st now) hknown.good hle hpos hlt
    (dedupKey_of_valid hs hiv)
  rw [bjmDedupLookup_opened, hw] at href
  obtain ⟨hsv, hopen, hres⟩ := href
  have hyoung := Memory.rotate_young (u64 (2 * w)) hwpos hle
  refine ⟨_, hsv, hopen, by rwa [Memory.lookup_rotated], hknown.lookup, ?_, ?_⟩
  · intro x hx s' i' n acked dup hkey hans hin
    obtain ⟨hn, hsf⟩ := hsafe x hx s' i' n acked dup hkey hans fun y hy =>
      Nat.le_trans (hclock y hy) hin
    exact ⟨hn, hsf.lookup hwpos hin fun hel hcl => clearAt_ok hlt hel hcl⟩
  · rcases hres with ⟨hnone, hok⟩ | ⟨n, hn, hsome, hok⟩
    · refine .inl ⟨?_, hok⟩
      have hf := hnone
      rw [Memory.lookup_fst] at hf
      simp only [Memory.lookup]
      simp only [Memory.find] at hf ⊢
      cases hc : (m.rotate w (u64 (2 * w)) now).cur (pairKey s i) with
      | some r => simp [hc] at hf
      | none =>
        have ho : (m.rotate w (u64 (2 * w)) now).old (pairKey s i) = none := by simpa [hc] using hf
        simp [hc, ho]
    · exact .inr ⟨n, hn, Memory.lookup_cur hsome, hok⟩

/-- After the publication has its index only the acknowledgement can fail, and it
changes nothing but a receipt. -/
theorem hPublish_of_once {st st₁ : Store} {now n : ℕ} {dup : Bool} {req : Request}
    {p : Publication} (hp : publication V req = .ok p)
    (ho : st.publishOnce now p = (.ok (n, dup), st₁)) :
    (st.hPublish V now req).2 = { st₁ with cursors := (st.hPublish V now req).2.cursors } ∧
      (st.hPublish V now req).1 = match (st₁.publishAck req).1 with
        | .ok acked => .published p.subject n acked (p.id.map fun _ => dup)
        | .error refusal => refusal := by
  have hsame := publishAck_same st₁ req
  simp only [hPublish, hp, ho]
  cases hack : st₁.publishAck req with
  | mk r st₂ =>
    rw [hack] at hsame
    cases r with
    | error a => exact ⟨hsame, rfl⟩
    | ok acked => exact ⟨hsame, rfl⟩

theorem publishFresh_appends (st : Store) (now : ℕ) {p : Publication}
    (hs : bjmSubjectValid p.subject = true) :
    (st.publishFresh now p).2.logs =
      st.logs.insert p.subject ((st.logOf p.subject).append p.entry) := by
  obtain ⟨st₁, hpub, -, hst⟩ := publishFresh_eq st now hs
  rw [hst, ← (bjmPublish_eq hpub).2.1]
  cases p.id with
  | none => rfl
  | some id => exact (bjmDedupRecord_dedupOnly ..).logs_eq

theorem publishOnce_logs (st : Store) (now : ℕ) {p : Publication}
    (hs : bjmSubjectValid p.subject = true) :
    (∀ index, (st.publishOnce now p).1 ≠ .ok (index, false)) ∧
        (st.publishOnce now p).2.logs = st.logs ∨
      (∃ index, (st.publishOnce now p).1 = .ok (index, false)) ∧
        (st.publishOnce now p).2.logs =
          st.logs.insert p.subject ((st.logOf p.subject).append p.entry) := by
  have hnew : ∀ st₁ : Store, ∃ index, (st₁.publishFresh now p).1 = .ok (index, false) := fun st₁ =>
    have ⟨_, _, hok, _⟩ := publishFresh_eq st₁ now hs
    ⟨_, hok⟩
  simp only [publishOnce]
  split
  · exact .inr ⟨hnew st, publishFresh_appends st now hs⟩
  · rename_i i hid
    have hlogs := (bjmDedupLookup_dedupOnly st now p.subject i).logs_eq
    split <;> rename_i st₁ hl <;> rw [hl] at hlogs
    · exact .inl ⟨by simp, hlogs⟩
    · exact .inl ⟨by simp, hlogs⟩
    · have hlog : st₁.logOf p.subject = st.logOf p.subject := by
        simp only at hlogs
        simp only [logOf, hlogs]
      refine .inr ⟨hnew st₁, ?_⟩
      rw [publishFresh_appends st₁ now hs, hlog]
      simp only at hlogs
      rw [hlogs]

theorem hPublish_once_logs (st : Store) (now : ℕ) {req : Request} {p : Publication}
    (hp : publication V req = .ok p) :
    (st.hPublish V now req).2.logs = (st.publishOnce now p).2.logs := by
  simp only [hPublish, hp]
  cases ho : st.publishOnce now p with
  | mk r st₁ =>
    cases r with
    | error a => rfl
    | ok x =>
      have hsame := congrArg (·.logs) (hPublish_of_once hp ho).1
      simpa only [hPublish, hp, ho] using hsame

theorem hPublish_logs (V : Vendor) (st : Store) (now : ℕ) (req : Request) :
    (st.hPublish V now req).2.logs = st.logs ∨ ∃ p, publication V req = .ok p ∧
      (st.hPublish V now req).2.logs =
        st.logs.insert p.subject ((st.logOf p.subject).append p.entry) := by
  cases hp : publication V req with
  | error a => exact .inl (by simp only [hPublish, hp])
  | ok p =>
    rw [hPublish_once_logs st now hp]
    exact (publishOnce_logs st now (publication_valid hp).1).imp And.right
      fun h => ⟨p, rfl, h.2⟩

theorem savedAs_publish {st st₁ : Store} {now n : ℕ} {s : Bytes} {e : Entry}
    {m : Memory Bytes Record} (h : SavedAs st m) (hpub : st.bjmPublish now s e = .ok (n, st₁)) :
    SavedAs st₁ m ∧ st₁.ddOpen = st.ddOpen := by
  have hm := (PublishedTo.of_publish hpub).marks
  have hopen : st₁.ddOpen = st.ddOpen := by rw [hm.same]
  refine ⟨h.congr ?_ (hm.others _ (marksKey_ne _)) fun ho => ?_, hopen⟩
  · intro gen
    rw [hm.same]
    rfl
  · rw [hopen] at ho
    exact ⟨ho, by rw [hm.same], by rw [hm.same]⟩

theorem savedAs_cursors {st : Store} {m : Memory Bytes Record} (h : SavedAs st m) (t : Tree) :
    SavedAs { st with cursors := t } m :=
  h.congr (fun _ => rfl) rfl fun ho => ⟨ho, rfl, rfl⟩

theorem savedAs_restart {st : Store} {m : Memory Bytes Record} (h : SavedAs st m) :
    SavedAs st.restart m :=
  h.congr (fun _ => rfl) rfl fun ho => by simp [restart] at ho

theorem window_publish {st st₁ : Store} {now n : ℕ} {s : Bytes} {e : Entry}
    (hpub : st.bjmPublish now s e = .ok (n, st₁)) : st₁.bjmDedupWindow = st.bjmDedupWindow := by
  rw [(PublishedTo.of_publish hpub).marks.same]
  rfl

theorem window_cursors (st : Store) (t : Tree) :
    ({ st with cursors := t } : Store).bjmDedupWindow = st.bjmDedupWindow := rfl

theorem duplicate_of_ack {st : Store} {req : Request} {s s' : Bytes} {n n' : ℕ}
    {acked : Option ℕ} {dup dup' : Option Bool}
    (h : (match (st.publishAck req).1 with
      | .ok acked => Answer.published s n acked dup
      | .error refusal => refusal) = .published s' n' acked dup') : dup = dup' ∧ n = n' ∧ s = s' := by
  split at h
  · obtain ⟨hs, hn, -, hd⟩ := Answer.published.inj h
    exact ⟨hd, hn, hs⟩
  · rename_i refusal hr
    obtain ⟨status, msg, rfl⟩ := publishAck_error hr
    contradiction

theorem hPublish_unkeyed (st : Store) (now : ℕ) {req : Request}
    (h : requestKey V req = none) :
    (st.hPublish V now req).2.bjmDedupWindow = st.bjmDedupWindow ∧
      (DedupFresh st → DedupFresh (st.hPublish V now req).2) ∧
      (∀ m, SavedAs st m → SavedAs (st.hPublish V now req).2 m) ∧
      ∀ s n acked, (st.hPublish V now req).1 ≠ .published s n acked (some true) := by
  simp only [requestKey] at h
  cases hp : publication V req with
  | error a =>
    obtain ⟨status, msg, rfl⟩ := publication_error hp
    simp only [hPublish, hp]
    exact ⟨trivial, id, fun m hm => hm, by simp⟩
  | ok p =>
    have hid : p.id = none := by simpa [hp] using h
    obtain ⟨st₁, hpub, hres, hst⟩ := publishFresh_eq st now (publication_valid hp).1
    rw [hid] at hst
    have honce : st.publishOnce now p = (.ok ((st.logOf p.subject).last + 1, false), st₁) := by
      simp only [publishOnce, hid]
      exact Prod.ext hres hst
    obtain ⟨hafter, hans⟩ := hPublish_of_once hp honce
    rw [hafter]
    refine ⟨(window_cursors st₁ _).trans (window_publish hpub), fun hf => ?_, fun m hm => ?_,
      fun s n acked ha => ?_⟩
    · have hm := (PublishedTo.of_publish hpub).marks
      refine ⟨?_, ?_, ?_, (hm.others _ (marksKey_ne _)).trans hf.unsaved, ?_⟩
      · rw [hm.same]
        exact hf.dd0
      · rw [hm.same]
        exact hf.dd1
      · rw [hm.same]
        exact hf.closed
      · rw [hm.same]
        exact hf.rotated
    · exact savedAs_cursors (savedAs_publish hm hpub).1 _
    · rw [ha] at hans
      exact absurd (duplicate_of_ack hans.symm) (by simp [hid])

theorem PublishInv.restart {w : ℕ} {h : List Exchange} {st : Store} (hi : PublishInv V w h st) :
    PublishInv V w h st.restart where
  window := hi.window
  index := by
    rcases hi.index with ⟨hf, hnone⟩ | ⟨m, hm⟩
    · exact .inl ⟨⟨hf.dd0, hf.dd1, rfl, hf.unsaved, rfl⟩, hnone⟩
    · exact .inr ⟨m, savedAs_restart hm.saved, hm.rotated, hm.known, hm.safe⟩
  collapses := hi.collapses
  own := hi.own

theorem PublishInv.unkeyed {w : ℕ} {h : List Exchange} {st : Store} {now : ℕ} {req : Request}
    (hi : PublishInv V w h st) (hkey : requestKey V req = none) :
    PublishInv V w (h ++ (brokerExec V st (.request now req)).1)
      (brokerExec V st (.request now req)).2 := by
  obtain ⟨hwin, hfresh, hsaved, hans⟩ := hPublish_unkeyed st now hkey
  simp only [brokerExec]
  refine ⟨hwin.trans hi.window, ?_, hi.collapses.snoc ?_, hi.own.snoc ?_⟩
  · rcases hi.index with ⟨hf, hnone⟩ | ⟨m, hm⟩
    · refine .inl ⟨hfresh hf, fun x hx => ?_⟩
      rcases List.mem_append.mp hx with hx | hx
      · exact hnone x hx
      · obtain rfl := List.mem_singleton.mp hx
        exact hkey
    · obtain ⟨x, hx, hle⟩ := hm.rotated
      refine .inr ⟨m, hsaved m hm.saved, ⟨x, List.mem_append_left _ hx, hle⟩,
        hm.known.mono _, fun x hx s i n acked dup hk ha hlate => ?_⟩
      rcases List.mem_append.mp hx with hx | hx
      · exact hm.safe x hx s i n acked dup hk ha fun y hy =>
          hlate y (List.mem_append_left _ hy)
      · obtain rfl := List.mem_singleton.mp hx
        rw [hkey] at hk
        contradiction
  · intro x hx s i n acked dup _ _ hk
    rw [hkey] at hk
    contradiction
  · intro s n acked ha
    exact absurd ha (hans s n acked)

/-- A request whose id is found repeats the message it was found with. -/
theorem PublishInv.found {w now n : ℕ} {h : List Exchange} {st : Store} {req : Request}
    {s i : Bytes} (hi : PublishInv V w h st) (hpos : 0 < now) (hlt : now < 2 ^ 53)
    (hclock : ∀ x ∈ h, x.now ≤ now) (hkey : requestKey V req = some (s, i))
    (hl : (st.bjmDedupLookup now s i).1 = .ok (some n)) :
    PublishInv V w (h ++ (brokerExec V st (.request now req)).1)
      (brokerExec V st (.request now req)).2 := by
  obtain ⟨p, hp, rfl, hid, hs, hiv⟩ := requestKey_eq_some hkey
  obtain ⟨m, hsaved, -, ⟨hle, hyoung⟩, hknown, hsafe, hres⟩ :=
    lookup_step hi hpos hlt hclock hs hiv
  rw [hl] at hres
  have hcur : m.cur (pairKey p.subject i) = some (indexRecord n) ∧ n < 2 ^ 53 := by
    rcases hres with ⟨-, h⟩ | ⟨n', hn', hc, h⟩
    · simp at h
    · simp only [Except.ok.injEq, Option.some.injEq] at h
      exact h ▸ ⟨hc, hn'⟩
  obtain ⟨hcur, hn⟩ := hcur
  have hfind : m.find (pairKey p.subject i) = some (indexRecord n) := by simp [Memory.find, hcur]
  have honly := bjmDedupLookup_dedupOnly st now p.subject i
  have honce : st.publishOnce now p = (.ok (n, true), (st.bjmDedupLookup now p.subject i).2) := by
    simp only [publishOnce, hid]
    generalize st.bjmDedupLookup now p.subject i = l at hl
    obtain ⟨r, st₁⟩ := l
    simp only at hl
    rw [hl]
  obtain ⟨hafter, hans⟩ := hPublish_of_once hp honce
  rw [hid, publishAck_congr honly.cursors_eq req] at hans
  set x : Exchange := ⟨now, req, (st.hPublish V now req).1, st, (st.hPublish V now req).2⟩ with hx
  have hmem : ∀ y ∈ h ++ [x], y ∈ h ∨ y = x := fun y hy => by simpa using hy
  have hxs : x ∈ h ++ [x] := List.mem_append_right _ (List.mem_singleton_self x)
  simp only [brokerExec]
  refine ⟨?_, .inr ⟨m, ?_, ⟨x, hxs, hle⟩, hknown.mono _, ?_⟩, hi.collapses.snoc ?_, hi.own.snoc ?_⟩
  · rw [hafter, window_cursors]
    exact honly.window_eq.trans hi.window
  · rw [hafter]
    exact savedAs_cursors hsaved _
  · intro y hy s' i' n' acked dup hk ha hlate
    rcases hmem y hy with hy | rfl
    · exact hsafe y hy s' i' n' acked dup hk ha (hlate x hxs)
    · obtain ⟨rfl, rfl⟩ := Prod.mk.inj (Option.some.inj (hkey.symm.trans hk))
      obtain ⟨-, rfl, -⟩ := duplicate_of_ack (hans.symm.trans ha)
      exact ⟨hn, .inl ⟨hcur, hyoung⟩⟩
  · -- the earlier answer is still safe, so it is the one found
    intro y hy s' i' n' acked dup hk ha hk' hin
    obtain ⟨rfl, rfl⟩ := Prod.mk.inj (Option.some.inj (hkey.symm.trans hk'))
    obtain ⟨hn', hsf⟩ := hsafe y hy _ _ n' acked dup hk ha hin
    obtain rfl := indexRecord_injective hn hn' (Option.some.inj (hfind.symm.trans hsf.find_eq))
    refine ⟨?_, hans⟩
    change (st.hPublish V now req).2.logs = st.logs
    rw [hafter]
    exact honly.logs_eq
  · intro s' n' acked ha
    obtain ⟨-, rfl, rfl⟩ := duplicate_of_ack (hans.symm.trans ha)
    obtain ⟨y, hy, s', i', n', hk, hpair, hrec, hn', happ⟩ := hknown _ _ (.inl hcur)
    obtain ⟨_, _, _, _, hs', -⟩ := requestKey_eq_some hk
    obtain ⟨rfl, rfl⟩ := pairKey_injective (slash_notMem_of_nameValid hs)
      (slash_notMem_of_nameValid hs') hpair
    obtain rfl := indexRecord_injective hn hn' hrec
    exact ⟨i, hkey, y, hy, hk, happ⟩

/-- A request whose id is not found publishes, and its id is known from then on. -/
theorem PublishInv.fresh {w now : ℕ} {h : List Exchange} {st : Store} {req : Request}
    {s i : Bytes} (hi : PublishInv V w h st) (hpos : 0 < now) (hlt : now < 2 ^ 53)
    (hclock : ∀ x ∈ h, x.now ≤ now) (hroom : (st.logOf s).last + 1 < 2 ^ 53)
    (hkey : requestKey V req = some (s, i)) (hl : (st.bjmDedupLookup now s i).1 = .ok none) :
    PublishInv V w (h ++ (brokerExec V st (.request now req)).1)
      (brokerExec V st (.request now req)).2 := by
  obtain ⟨p, hp, rfl, hid, hs, hiv⟩ := requestKey_eq_some hkey
  obtain ⟨m, hsaved, hopen, ⟨hle, hyoung⟩, hknown, hsafe, hres⟩ :=
    lookup_step hi hpos hlt hclock hs hiv
  rw [hl] at hres
  have hmiss : m.find (pairKey p.subject i) = none := by
    rcases hres with ⟨h, -⟩ | ⟨n', -, -, h⟩
    · exact h
    · simp at h
  have honly := bjmDedupLookup_dedupOnly st now p.subject i
  set st₀ := (st.bjmDedupLookup now p.subject i).2 with hst₀
  have hlog : ∀ q, st₀.logOf q = st.logOf q := fun q => by simp only [logOf, honly.logs_eq]
  obtain ⟨st₁, hpub, hfres, hfst⟩ := publishFresh_eq (p := p) st₀ now hs
  rw [hlog] at hpub hfres
  obtain ⟨hsv, hop⟩ := savedAs_publish hsaved hpub
  simp only [hid, hlog, bjmDedupRecord, dedupKey_of_valid hs hiv,
    dedupOpen_of_open (hop.trans hopen)] at hfst
  set n := (st.logOf p.subject).last + 1 with hn
  have honce : st.publishOnce now p =
      (.ok (n, false), st₁.ddRemember (pairKey p.subject i) n) := by
    simp only [publishOnce, hid]
    rw [show st.bjmDedupLookup now p.subject i = (.ok none, st₀) from Prod.ext hl rfl]
    exact Prod.ext hfres hfst
  obtain ⟨hafter, hans⟩ := hPublish_of_once hp honce
  rw [hid] at hans
  obtain ⟨-, hlogs, hmarks⟩ := bjmPublish_eq hpub
  have honly' : DedupOnly st₁ (st₁.ddRemember (pairKey p.subject i) n) := .ddRemember _ n
  set x : Exchange := ⟨now, req, (st.hPublish V now req).1, st, (st.hPublish V now req).2⟩ with hx
  have hmem : ∀ y ∈ h ++ [x], y ∈ h ∨ y = x := fun y hy => by simpa using hy
  have hxs : x ∈ h ++ [x] := List.mem_append_right _ (List.mem_singleton_self x)
  have happ : x.Appended p.subject n := by
    refine ⟨rfl, p.entry, ?_⟩
    change (st.hPublish V now req).2.logOf p.subject = (st.logOf p.subject).append p.entry
    have hins : (st.hPublish V now req).2.logs =
        st.logs.insert p.subject ((st.logOf p.subject).append p.entry) := by
      rw [hafter]
      exact honly'.logs_eq.trans (by rw [hlogs, hlog, honly.logs_eq])
    rw [logOf_insert hins, if_pos rfl]
  simp only [brokerExec]
  refine ⟨?_, .inr ⟨m.remember (pairKey p.subject i) (indexRecord n), ?_, ⟨x, hxs, hle⟩,
    (hknown.mono _).remember hxs hkey hroom happ, ?_⟩, hi.collapses.snoc ?_, hi.own.snoc ?_⟩
  · rw [hafter, window_cursors, honly'.window_eq, window_publish hpub]
    exact honly.window_eq.trans hi.window
  · rw [hafter]
    exact savedAs_cursors (hsv.ddRemember (hop.trans hopen) _ n) _
  · intro y hy s' i' n' acked dup hk ha hlate
    rcases hmem y hy with hy | rfl
    · obtain ⟨hn', hsf⟩ := hsafe y hy s' i' n' acked dup hk ha (hlate x hxs)
      refine ⟨hn', hsf.remember fun he => ?_⟩
      have hfound := hsf.find_eq
      rw [he, hmiss] at hfound
      contradiction
    · obtain ⟨rfl, rfl⟩ := Prod.mk.inj (Option.some.inj (hkey.symm.trans hk))
      obtain ⟨-, rfl, -⟩ := duplicate_of_ack (hans.symm.trans ha)
      exact ⟨hroom, .inl ⟨by simp [Memory.remember_cur], hyoung⟩⟩
  · intro y hy s' i' n' acked dup hk ha hk' hin
    obtain ⟨rfl, rfl⟩ := Prod.mk.inj (Option.some.inj (hkey.symm.trans hk'))
    have hsf := (hsafe y hy _ _ n' acked dup hk ha hin).2.find_eq
    rw [hmiss] at hsf
    contradiction
  · intro s' n' acked ha
    exact absurd (duplicate_of_ack (hans.symm.trans ha)).1 (by simp)

theorem PublishInv.step {w : ℕ} {h : List Exchange} {st : Store} {op : BrokerOp}
    (ho : op.InOrder V h st) (hi : PublishInv V w h st) :
    PublishInv V w (h ++ (brokerExec V st op).1) (brokerExec V st op).2 := by
  cases op with
  | restart => simpa [brokerExec] using hi.restart
  | request now req =>
    obtain ⟨hpos, hlt, hclock, hroom⟩ := ho
    cases hkey : requestKey V req with
    | none => exact hi.unkeyed hkey
    | some k =>
      obtain ⟨s, i⟩ := k
      obtain ⟨p, hp, hps, -, hs, hiv⟩ := requestKey_eq_some hkey
      obtain ⟨m, -, -, -, -, -, hres⟩ := lookup_step hi hpos hlt hclock hs hiv
      rcases hres with ⟨-, hl⟩ | ⟨n, -, -, hl⟩
      · exact hi.fresh hpos hlt hclock (hps ▸ hroom p hp) hkey hl
      · exact hi.found hpos hlt hclock hkey hl

/-- Within the window of an answered request its id publishes nothing more, and an
id is answered as a duplicate only of its own message. -/
theorem publish_idempotent {st : Store} {ops : List BrokerOp} (hf : DedupFresh st)
    (hrun : Along (brokerExec V) (fun h st op => op.InOrder V h st) [] st ops) :
    Each (Collapses V st.bjmDedupWindow) (run (brokerExec V) st ops).1 ∧
      Each (OwnDuplicate V) (run (brokerExec V) st ops).1 := by
  have hstart : PublishInv V st.bjmDedupWindow [] st :=
    ⟨rfl, .inl ⟨hf, by simp⟩, each_nil, each_nil⟩
  have hinv := invariant hstart hrun fun h st' op hg hi => hi.step hg
  exact ⟨by simpa using hinv.collapses, by simpa using hinv.own⟩

/-- The reading that takes no account of an acknowledgement. -/
def AlwaysDuplicate (V : Vendor) (w : ℕ) (before : List Exchange) (y : Exchange) : Prop :=
  ∀ x ∈ before, ∀ s i n acked dup, requestKey V x.req = some (s, i) →
    x.answer = .published s n acked dup → requestKey V y.req = some (s, i) →
      y.now ≤ x.now + w → ∃ acked, y.answer = .published s n acked (some true)

def wholeBodies : Vendor := { Vendor.silent with valueSize := fun body => some body.length }

def orderQuery (ackSubject : Option Bytes) (key : Bytes) : Option Bytes :=
  if key = ascii "id" then some (ascii "o-17")
  else if key = ascii "ack_index" then ackSubject.map fun _ => ascii "1"
  else if key = ascii "ack_subject" then ackSubject
  else if key = ascii "ack_consumer" then some (ascii "billing")
  else none

/-- A publish of one order, that may ask for an acknowledgement too. -/
def order (ackSubject : Option Bytes) : Request where
  path := ascii "/pub/orders"
  contentType := some SUKKAL_MEDIA_TYPE
  body := some [0]
  query := orderQuery ackSubject

theorem publication_order (ackSubject : Option Bytes) :
    publication wholeBodies (order ackSubject) =
      .ok ⟨ascii "orders", ⟨BJM_ENTRY_PLAIN, [0]⟩, some (ascii "o-17")⟩ := rfl

/-- The order is published, and repeated with an acknowledgement nobody can make. -/
def refusedRepeat : List BrokerOp :=
  [.request 1 (order none), .request 2 (order (some (ascii ".")))]

theorem refusedRepeat_not_duplicate :
    Along (brokerExec wholeBodies) (fun h st op => op.InOrder wholeBodies h st) [] Store.empty
      refusedRepeat ∧
    DedupFresh Store.empty ∧
    (run (brokerExec wholeBodies) Store.empty refusedRepeat).1.map (·.answer) =
      [.published (ascii "orders") 1 none (some false), ackRefusal] ∧
    ¬ Each (AlwaysDuplicate wholeBodies Store.empty.bjmDedupWindow)
      (run (brokerExec wholeBodies) Store.empty refusedRepeat).1 := by
  have hanswers : (run (brokerExec wholeBodies) Store.empty refusedRepeat).1.map (·.answer) =
      [.published (ascii "orders") 1 none (some false), ackRefusal] := by decide +kernel
  refine ⟨⟨⟨by decide, by decide, by simp, ?_⟩, ⟨by decide, by decide, ?_, ?_⟩, trivial⟩,
    ⟨rfl, rfl, rfl, rfl, rfl⟩, hanswers, fun hb => ?_⟩
  · intro p hp
    obtain rfl := Except.ok.inj ((publication_order _).symm.trans hp)
    decide +kernel
  · simp [brokerExec]
  · intro p hp
    obtain rfl := Except.ok.inj ((publication_order _).symm.trans hp)
    decide +kernel
  · have hkey : ∀ a, requestKey wholeBodies (order a) = some (ascii "orders", ascii "o-17") :=
      fun a => by simp [requestKey, publication_order]
    simp only [refusedRepeat, run_cons, brokerExec, run_nil, List.map_cons, List.map_nil,
      List.append_nil, List.cons_append, List.nil_append, List.cons.injEq,
      and_true] at hanswers hb
    obtain ⟨acked, hdup⟩ := hb [_] _ [] rfl _ (List.mem_singleton_self _) _ _ _ _ _ (hkey _)
      hanswers.1 (hkey _) (by decide)
    rw [hanswers.2] at hdup
    simp [ackRefusal] at hdup

/-- The order published, and repeated over a restart. -/
theorem repeatedOrder_idempotent :
    Each (Collapses wholeBodies 120000) (run (brokerExec wholeBodies) Store.empty
      [.request 1 (order none), .restart, .request 2 (order none)]).1 := by
  have hrun : Along (brokerExec wholeBodies) (fun h st op => op.InOrder wholeBodies h st) []
      Store.empty [.request 1 (order none), .restart, .request 2 (order none)] := by
    refine ⟨⟨by decide, by decide, by simp, ?_⟩, trivial,
      ⟨by decide, by decide, by simp [brokerExec], ?_⟩, trivial⟩
    · intro p hp
      obtain rfl := Except.ok.inj ((publication_order _).symm.trans hp)
      decide +kernel
    · intro p hp
      obtain rfl := Except.ok.inj ((publication_order _).symm.trans hp)
      decide +kernel
  exact (publish_idempotent ⟨rfl, rfl, rfl, rfl, rfl⟩ hrun).1

end SukkalMsg
