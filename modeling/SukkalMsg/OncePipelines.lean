import SukkalMsg.StagePublishes

/-!
# Effectively once

Whatever stops, is lost or comes twice: an input adds at most one message to the output,
and the receipt of a stage passes no input that has neither its output nor was dropped. A
publish is sent only after every input in front of it was, so that the receipt it moves
and the receipt an answer moves pass nothing that is missing.
-/

namespace SukkalMsg

open Std Names Binjson OrderedScan Store ActionRuns

variable {V : Vendor} {S : Stage} {bound low window : ℕ}

theorem mem_exchanges {h : List PipeEvent} {x : Exchange} :
    x ∈ exchanges h ↔ ∃ t, PipeEvent.exchange x t ∈ h := by
  simp only [exchanges, List.mem_filterMap]
  constructor
  · rintro ⟨e, he, hx⟩
    cases e with
    | exchange y t =>
      obtain rfl := Option.some.inj hx
      exact ⟨t, he⟩
    | dropped i => contradiction
  · rintro ⟨t, ht⟩
    exact ⟨_, ht, rfl⟩

theorem exchanges_append (h h' : List PipeEvent) :
    exchanges (h ++ h') = exchanges h ++ exchanges h' := by
  simp only [exchanges, List.filterMap_append]

theorem PublishInv.cursors {w : ℕ} {h : List Exchange} {st : Store} (hi : PublishInv V w h st)
    (t : Tree) : PublishInv V w h { st with cursors := t } where
  window := hi.window
  index := by
    rcases hi.index with ⟨hf, hnone⟩ | ⟨m, hm⟩
    · exact .inl ⟨⟨hf.dd0, hf.dd1, hf.closed, hf.unsaved, hf.rotated⟩, hnone⟩
    · exact .inr ⟨m, savedAs_cursors hm.saved t, hm.rotated, hm.known, hm.safe⟩
  collapses := hi.collapses
  own := hi.own

/-! ### Inputs that are through -/

theorem HasOutput.mono {h h' : List PipeEvent} {st st' : Store} {i : ℕ}
    (hi : HasOutput S h st i) (hh : h ⊆ h') (hg : LogsGrow st st') : HasOutput S h' st' i := by
  obtain ⟨x, n, e, hx, happ, hafter, hnow⟩ := hi
  exact ⟨x, n, e, hh hx, happ, hafter, hg.get hnow⟩

theorem Piped.mono {h h' : List PipeEvent} {st st' : Store} {i : ℕ} (hi : Piped S h st i)
    (hh : h ⊆ h') (hg : LogsGrow st st') : Piped S h' st' i :=
  hi.imp (fun hd => hh hd) fun ho => ho.mono hh hg

/-- Every input between a low one and this one is through. -/
def PipedBelow (S : Stage) (low : ℕ) (h : List PipeEvent) (st : Store) (i : ℕ) : Prop :=
  ∀ j, low < j → j < i → Piped S h st j

namespace PipedBelow

variable {h h' : List PipeEvent} {st st' : Store} {i j : ℕ}

theorem mono (hi : PipedBelow S low h st i) (hh : h ⊆ h') (hg : LogsGrow st st') :
    PipedBelow S low h' st' i :=
  fun j hj hlt => (hi j hj hlt).mono hh hg

theorem le (hi : PipedBelow S low h st i) (hle : j ≤ i) : PipedBelow S low h st j :=
  fun k hk hlt => hi k hk (Nat.lt_of_lt_of_le hlt hle)

theorem succ (hi : PipedBelow S low h st i) (hp : Piped S h st i) :
    PipedBelow S low h st (i + 1) := by
  intro j hj hlt
  rcases Nat.lt_succ_iff_lt_or_eq.mp hlt with hlt | rfl
  · exact hi j hj hlt
  · exact hp

theorem max (hi : PipedBelow S low h st i) (hj : PipedBelow S low h st j) :
    PipedBelow S low h st (max i j) := by
  rcases Nat.le_total i j with hle | hle
  · rwa [Nat.max_eq_right hle]
  · rwa [Nat.max_eq_left hle]

theorem of_le (hle : i ≤ low + 1) : PipedBelow S low h st i := by
  intro j hj hlt
  omega

end PipedBelow

/-! ### What holds all along a run -/

/-- The work at hand is part of a batch, and what it has left behind is through. -/
structure StageWork.Sound (S : Stage) (bound low : ℕ) (h : List PipeEvent) (st : Store)
    (w : StageWork) : Prop where
  first : 0 < w.first
  from_first : w.first ≤ w.next
  to_last : w.next ≤ w.last + 1
  bounded : w.last ≤ bound
  piped : PipedBelow S low h st w.next

/-- What the events say of the publishes. -/
structure Recorded (V : Vendor) (S : Stage) (bound : ℕ) (h : List PipeEvent) (st : Store) :
    Prop where
  others : ∀ x, PipeEvent.exchange x none ∈ h → ∀ i ≤ bound,
    requestKey V x.req ≠ some (S.outSubject, S.key i)
  own : ∀ x i, PipeEvent.exchange x (some i) ∈ h → 0 < i ∧ i ≤ bound ∧
    (∃ out, x.req = S.request i out) ∧ (x.after.logs ≠ x.before.logs → ∃ n acked dup,
      requestKey V x.req = some (S.outSubject, S.key i) ∧
      x.answer = .published S.outSubject n acked dup ∧ x.Appended S.outSubject n)
  kept : ∀ x t, PipeEvent.exchange x t ∈ h → LogsGrow x.after st

/-- The receipt and everything that is on its way has only inputs behind it that are
through. -/
structure Flowing (S : Stage) (bound low : ℕ) (h : List PipeEvent) (p : PipeState) : Prop where
  known : p.deliveries ≠ [] → S.Known p.store
  receipt : PipedBelow S low h p.store (p.store.receiptOf S.subject S.consumer + 1)
  deliveries : ∀ d ∈ p.deliveries, 0 < d.1 ∧ d.1 ≤ d.2 ∧ d.2 ≤ bound ∧
    PipedBelow S low h p.store d.1
  publishes : ∀ m ∈ p.publishes, p.deliveries ≠ [] ∧ 0 < m.1 ∧ m.1 ≤ bound ∧
    PipedBelow S low h p.store m.1
  work : ∀ w, p.work = some w → p.deliveries ≠ [] ∧ w.Sound S bound low h p.store
  batch : ∀ s, p.batch = some s → s.subject = S.subject ∧ s.consumer = S.consumer
  own : ∀ w, p.work = some w → w.own = true →
    ∃ s, p.batch = some s ∧ s.first = w.first ∧ s.last = w.last

structure PipeInv (V : Vendor) (S : Stage) (bound low window : ℕ) (h : List PipeEvent)
    (p : PipeState) : Prop where
  publish : PublishInv V window (exchanges h) p.store
  base : (p.store.logOf S.subject).base ≤ low
  recorded : Recorded V S bound h p.store
  flowing : Flowing S bound low h p
  once : Each (OnceEach S) h

theorem StageWork.Sound.mono {h h' : List PipeEvent} {st st' : Store} {w : StageWork}
    (hw : w.Sound S bound low h st) (hh : h ⊆ h') (hg : LogsGrow st st') :
    w.Sound S bound low h' st' :=
  { hw with piped := hw.piped.mono hh hg }

/-- What is on its way stays sound when the store moves on. -/
theorem Flowing.onward {h h' : List PipeEvent} {p : PipeState} {st : Store}
    (hf : Flowing S bound low h p) (hh : h ⊆ h') (hg : LogsGrow p.store st)
    (hknown : S.Known p.store → S.Known st)
    (hreceipt : PipedBelow S low h' st (st.receiptOf S.subject S.consumer + 1)) :
    Flowing S bound low h' { p with store := st } where
  known hd := hknown (hf.known hd)
  receipt := hreceipt
  deliveries d hd := by
    obtain ⟨hpos, hle, hb, hp⟩ := hf.deliveries d hd
    exact ⟨hpos, hle, hb, hp.mono hh hg⟩
  publishes m hm := by
    obtain ⟨hd, hpos, hb, hp⟩ := hf.publishes m hm
    exact ⟨hd, hpos, hb, hp.mono hh hg⟩
  work w hw := (hf.work w hw).imp id fun hs => hs.mono hh hg
  batch := hf.batch
  own := hf.own

theorem Flowing.working {h : List PipeEvent} {p : PipeState} (hf : Flowing S bound low h p)
    {work : Option StageWork}
    (hw : ∀ w, work = some w → p.deliveries ≠ [] ∧ w.Sound S bound low h p.store)
    (ho : ∀ w, work = some w → w.own = true →
      ∃ s, p.batch = some s ∧ s.first = w.first ∧ s.last = w.last) :
    Flowing S bound low h { p with work := work } :=
  { hf with work := hw, own := ho }

theorem Recorded.store {h : List PipeEvent} {st st' : Store} (hr : Recorded V S bound h st)
    (hg : LogsGrow st st') : Recorded V S bound h st' :=
  { hr with kept := fun x t hx => (hr.kept x t hx).trans hg }

theorem Recorded.snoc {h : List PipeEvent} {st : Store} {e : PipeEvent}
    (hr : Recorded V S bound h st)
    (hothers : ∀ x, e = .exchange x none → ∀ i ≤ bound,
      requestKey V x.req ≠ some (S.outSubject, S.key i))
    (hown : ∀ x i, e = .exchange x (some i) → 0 < i ∧ i ≤ bound ∧
      (∃ out, x.req = S.request i out) ∧ (x.after.logs ≠ x.before.logs → ∃ n acked dup,
        requestKey V x.req = some (S.outSubject, S.key i) ∧
        x.answer = .published S.outSubject n acked dup ∧ x.Appended S.outSubject n))
    (hkept : ∀ x t, e = .exchange x t → LogsGrow x.after st) :
    Recorded V S bound (h ++ [e]) st where
  others x hx := by
    rcases List.mem_append.mp hx with hx | hx
    · exact hr.others x hx
    · exact hothers x (List.mem_singleton.mp hx).symm
  own x i hx := by
    rcases List.mem_append.mp hx with hx | hx
    · exact hr.own x i hx
    · exact hown x i (List.mem_singleton.mp hx).symm
  kept x t hx := by
    rcases List.mem_append.mp hx with hx | hx
    · exact hr.kept x t hx
    · exact hkept x t (List.mem_singleton.mp hx).symm

/-! ### One step -/

section

variable {h : List PipeEvent} {p : PipeState}

theorem StageWork.le_last_of_ready {w : StageWork} (hr : w.ready = true) : w.next ≤ w.last := by
  simp only [ready, Bool.and_eq_true, decide_eq_true_eq] at hr
  exact hr.2

theorem StageWork.Sound.passed {st : Store} {w : StageWork} (hw : w.Sound S bound low h st)
    (hr : w.ready = true) (hp : Piped S h st w.next) : w.passed.Sound S bound low h st where
  first := hw.first
  from_first := Nat.le_succ_of_le hw.from_first
  to_last := Nat.succ_le_succ (le_last_of_ready hr)
  bounded := hw.bounded
  piped := hw.piped.succ hp

theorem PipeInv.flow (hi : PipeInv V S bound low window h p) {p' : PipeState}
    (hs : p'.store = p.store) (hf : Flowing S bound low h p') :
    PipeInv V S bound low window h p' where
  publish := hs ▸ hi.publish
  base := hs ▸ hi.base
  recorded := hs ▸ hi.recorded
  flowing := hf
  once := hi.once

theorem PipeInv.receipts (hi : PipeInv V S bound low window h p) {st : Store}
    (hs : st = { p.store with cursors := st.cursors }) (hknown : S.Known p.store → S.Known st)
    (hr : PipedBelow S low h p.store (st.receiptOf S.subject S.consumer + 1)) :
    PipeInv V S bound low window h { p with store := st } := by
  have hlogs : st.logs = p.store.logs := by rw [hs]
  have hg := LogsGrow.of_eq hlogs
  refine ⟨?_, ?_, hi.recorded.store hg, ?_, hi.once⟩
  · dsimp only
    rw [hs]
    exact hi.publish.cursors _
  · dsimp only
    rw [hg.base]
    exact hi.base
  · exact hi.flowing.onward (List.Subset.refl h) hg hknown (hr.mono (List.Subset.refl h) hg)

theorem Flowing.lost (hf : Flowing S bound low h p) :
    Flowing S bound low h { p with batch := none, work := p.work.map .orphan } where
  known := hf.known
  receipt := hf.receipt
  deliveries := hf.deliveries
  publishes := hf.publishes
  work w hw := by
    obtain ⟨w₀, hw₀, rfl⟩ := Option.map_eq_some_iff.mp hw
    obtain ⟨hd, hs⟩ := hf.work w₀ hw₀
    exact ⟨hd, hs.first, hs.from_first, hs.to_last, hs.bounded, hs.piped⟩
  batch s hs := by contradiction
  own w hw hown := by
    obtain ⟨w₀, -, rfl⟩ := Option.map_eq_some_iff.mp hw
    contradiction

theorem PipeInv.restart (hi : PipeInv V S bound low window h p) :
    PipeInv V S bound low window h
      { p with store := p.store.restart, batch := none, work := p.work.map .orphan } where
  publish := hi.publish.restart
  base := hi.base
  recorded := hi.recorded.store (.of_eq rfl)
  flowing := hi.flowing.lost.onward (List.Subset.refl h) (.of_eq rfl) id
    (hi.flowing.receipt.mono (List.Subset.refl h) (.of_eq rfl))
  once := hi.once

theorem PipeInv.receive (hi : PipeInv V S bound low window h p) {first last : ℕ}
    (hd : (first, last) ∈ p.deliveries) :
    PipeInv V S bound low window h { p with work := some ⟨first, last, first, false,
      p.batch.any fun s => s.first == first && s.last == last⟩ } := by
  refine hi.flow rfl (hi.flowing.working ?_ ?_)
  · intro w hw
    obtain rfl := Option.some.inj hw
    obtain ⟨hpos, hle, hb, hp⟩ := hi.flowing.deliveries _ hd
    exact ⟨List.ne_nil_of_mem hd, hpos, Nat.le_refl first, Nat.le_succ_of_le hle, hb, hp⟩
  · intro w hw hown
    obtain rfl := Option.some.inj hw
    cases hb : p.batch with
    | none => simp [hb] at hown
    | some s => exact ⟨s, rfl, by simpa [hb] using hown⟩

theorem PipeInv.drop (hi : PipeInv V S bound low window h p) {w : StageWork}
    (hw : p.work = some w) (hr : w.ready = true) :
    PipeInv V S bound low window (h ++ [.dropped w.next]) { p with work := some w.passed } := by
  have hh : h ⊆ h ++ [.dropped w.next] := List.subset_append_left _ _
  have hg : LogsGrow p.store p.store := .of_eq rfl
  obtain ⟨hd, hs⟩ := hi.flowing.work w hw
  have hflow := hi.flowing.onward hh hg id (hi.flowing.receipt.mono hh hg)
  refine ⟨?_, hi.base, hi.recorded.snoc ?_ ?_ ?_, hflow.working ?_ ?_, hi.once.snoc trivial⟩
  · rw [exchanges_append]
    simpa [exchanges] using hi.publish
  · intro x hx
    contradiction
  · intro x i hx
    contradiction
  · intro x t hx
    contradiction
  · intro w' hw'
    obtain rfl := Option.some.inj hw'
    have hdropped : PipeEvent.dropped w.next ∈ h ++ [.dropped w.next] :=
      List.mem_append_right _ (List.mem_singleton_self _)
    exact ⟨hd, (hs.mono hh hg).passed hr (.inl hdropped)⟩
  · intro w' hw' hown
    obtain rfl := Option.some.inj hw'
    exact hi.flowing.own w hw hown

theorem PipeInv.fail (hi : PipeInv V S bound low window h p) :
    PipeInv V S bound low window h { p with work := p.work.map .failed } := by
  refine hi.flow rfl (hi.flowing.working ?_ ?_)
  · intro w hw
    obtain ⟨w₀, hw₀, rfl⟩ := Option.map_eq_some_iff.mp hw
    obtain ⟨hd, hs⟩ := hi.flowing.work w₀ hw₀
    exact ⟨hd, hs.first, hs.from_first, hs.to_last, hs.bounded, hs.piped⟩
  · intro w hw hown
    obtain ⟨w₀, hw₀, rfl⟩ := Option.map_eq_some_iff.mp hw
    exact hi.flowing.own w₀ hw₀ hown

theorem PipeInv.send (hi : PipeInv V S bound low window h p) {w : StageWork}
    (hw : p.work = some w) (hr : w.ready = true) (out : Bytes) :
    PipeInv V S bound low window h { p with publishes := p.publishes ++ [(w.next, out)] } := by
  refine hi.flow rfl { hi.flowing with publishes := ?_ }
  intro m hm
  rcases List.mem_append.mp hm with hm | hm
  · exact hi.flowing.publishes m hm
  · obtain rfl := List.mem_singleton.mp hm
    obtain ⟨hd, hs⟩ := hi.flowing.work w hw
    exact ⟨hd, Nat.lt_of_lt_of_le hs.first hs.from_first,
      Nat.le_trans (StageWork.le_last_of_ready hr) hs.bounded, hs.piped⟩

theorem PipeInv.quit (hi : PipeInv V S bound low window h p) :
    PipeInv V S bound low window h { p with work := none } := by
  refine hi.flow rfl (hi.flowing.working ?_ ?_)
  · intro w hw
    contradiction
  · intro w hw
    contradiction

/-- Somebody else's publish. -/
theorem PipeInv.other (hS : S.Sound bound) (hi : PipeInv V S bound low window h p) {now : ℕ}
    {req : Request} (ho : (BrokerOp.request now req).InOrder V (exchanges h) p.store)
    (hkeys : ∀ i ≤ bound, requestKey V req ≠ some (S.outSubject, S.key i))
    (hack : ackTarget req ≠ some (S.subject, S.consumer)) :
    PipeInv V S bound low window (h ++ [.exchange (served V p.store now req) none])
      { p with store := (served V p.store now req).after } := by
  have hh : h ⊆ h ++ [.exchange (served V p.store now req) none] := List.subset_append_left _ _
  have hg : LogsGrow p.store (served V p.store now req).after := .hPublish V p.store now req
  have hcur : (p.store.hPublish V now req).2.cursors[pairKey S.subject S.consumer]? =
      p.store.cursors[pairKey S.subject S.consumer]? :=
    hPublish_others (slash_notMem_of_nameValid hS.subject) hack
  have hreceipt : (served V p.store now req).after.receiptOf S.subject S.consumer =
      p.store.receiptOf S.subject S.consumer := by
    simp only [receiptOf, served, hcur]
  refine ⟨?_, ?_, (hi.recorded.store hg).snoc ?_ ?_ ?_,
    hi.flowing.onward hh hg (fun hk => hk.congr hcur) ?_, hi.once.snoc trivial⟩
  · rw [exchanges_append]
    exact hi.publish.step ho
  · dsimp only
    rw [hg.base]
    exact hi.base
  · rintro x hx
    obtain ⟨rfl, -⟩ := PipeEvent.exchange.inj hx
    exact hkeys
  · intro x i hx
    exact absurd (PipeEvent.exchange.inj hx).2 (by simp)
  · intro x t hx
    obtain ⟨rfl, -⟩ := PipeEvent.exchange.inj hx
    exact .of_eq rfl
  · rw [hreceipt]
    exact hi.flowing.receipt.mono hh hg

/-! ### The publish of an output -/

theorem Stage.requestKey_request (hS : S.Sound bound) {i : ℕ} (hi : 0 < i) {out : Bytes}
    {k : Bytes × Bytes} (hk : requestKey V (S.request i out) = some k) :
    k = (S.outSubject, S.key i) := by
  obtain ⟨s, id⟩ := k
  obtain ⟨q, hq, rfl, hid, -, -⟩ := requestKey_eq_some hk
  obtain ⟨hsubject, hkey⟩ := publication_request hS.subject hS.consumer hi hq
  rw [hsubject, Option.some.inj (hid.symm.trans hkey)]

theorem appended_of_logs {x : Exchange} {s : Bytes} {n : ℕ} {e : Entry}
    (hn : n = (x.before.logOf s).last + 1)
    (h : x.after.logs = x.before.logs.insert s ((x.before.logOf s).append e)) : x.Appended s n :=
  ⟨hn, e, by rw [logOf_insert h, if_pos rfl]⟩

/-- An output that is answered is in its log: it was added now, or by an earlier publish of
the same input. -/
theorem PipeInv.hasOutput (hS : S.Sound bound) (hi : PipeInv V S bound low window h p) {i n : ℕ}
    {dup : Bool} {x : Exchange} (hle : i ≤ bound)
    (hown : OwnDuplicate V (exchanges h) x) (hgrow : LogsGrow p.store x.after)
    (hkey : requestKey V x.req = some (S.outSubject, S.key i))
    (hanswer : x.answer = .published S.outSubject n (some i) (some dup))
    (hadded : dup = false → n = (x.before.logOf S.outSubject).last + 1 ∧ ∃ e, x.after.logs =
      x.before.logs.insert S.outSubject ((x.before.logOf S.outSubject).append e)) :
    HasOutput S (h ++ [.exchange x (some i)]) x.after i := by
  cases dup with
  | false =>
    obtain ⟨hn, e, hlogs⟩ := hadded rfl
    have happ := appended_of_logs hn hlogs
    obtain ⟨e, he⟩ := happ.get
    exact ⟨x, n, e, List.mem_append_right _ (List.mem_singleton_self _), happ, he, he⟩
  | true =>
    obtain ⟨k, hk, y, hy, hykey, happ⟩ := hown _ _ _ hanswer
    obtain ⟨-, rfl⟩ := Prod.mk.inj (Option.some.inj (hkey.symm.trans hk))
    obtain ⟨t, ht⟩ := mem_exchanges.mp hy
    cases t with
    | none => exact absurd hykey (hi.recorded.others y ht i hle)
    | some j =>
      obtain ⟨hpos, hj, ⟨out, hreq⟩, -⟩ := hi.recorded.own y j ht
      rw [hreq] at hykey
      have hsame := Stage.requestKey_request hS hpos hykey
      obtain rfl := hS.distinct i j hle hj (Prod.mk.inj hsame).2
      obtain ⟨e, he⟩ := happ.get
      exact ⟨y, n, e, List.mem_append_left _ ht, happ, he, hgrow.get ((hi.recorded.kept y _ ht).get he)⟩

theorem StageWork.Sound.hears {st : Store} {w : StageWork} (hw : w.Sound S bound low h st)
    {input status : ℕ} (hp : status = 200 → Piped S h st input) :
    (w.hears input status).Sound S bound low h st ∧ (w.hears input status).own = w.own ∧
      (w.hears input status).first = w.first ∧ (w.hears input status).last = w.last := by
  simp only [StageWork.hears]
  split
  · rename_i hcond
    obtain ⟨hr, heq⟩ : w.ready = true ∧ w.next = input := by simpa using hcond
    split
    · rename_i hstatus
      exact ⟨hw.passed hr (heq ▸ hp hstatus), rfl, rfl, rfl⟩
    · exact ⟨⟨hw.first, hw.from_first, hw.to_last, hw.bounded, hw.piped⟩, rfl, rfl, rfl⟩
  · exact ⟨hw, rfl, rfl, rfl⟩

/-- A publish of an output reaches the broker. -/
theorem PipeInv.arrive (hS : S.Sound bound) (hi : PipeInv V S bound low window h p) {i now : ℕ}
    {out : Bytes} (heard : Bool) (hm : (i, out) ∈ p.publishes)
    (ho : (BrokerOp.request now (S.request i out)).InOrder V (exchanges h) p.store)
    (hwindow : ∀ x n, PipeEvent.exchange x (some i) ∈ h → x.Appended S.outSubject n →
      now ≤ x.now + window) :
    PipeInv V S bound low window
      (h ++ [.exchange (served V p.store now (S.request i out)) (some i)])
      { p with
        store := (served V p.store now (S.request i out)).after
        work := if heard then
            p.work.map (·.hears i (served V p.store now (S.request i out)).answer.status)
          else p.work } := by
  obtain ⟨hbegun, hpos, hle, hbelow⟩ := hi.flowing.publishes _ hm
  have hpub := hi.publish.step ho
  have hserved := outputServed hS hi.publish ho (hi.flowing.known hbegun) hpos hle
  have hg : LogsGrow p.store (served V p.store now (S.request i out)).after :=
    .hPublish V p.store now _
  have hreq : (served V p.store now (S.request i out)).req = S.request i out := rfl
  have hbefore : (served V p.store now (S.request i out)).before = p.store := rfl
  have hnow : (served V p.store now (S.request i out)).now = now := rfl
  change PublishInv V window (exchanges h ++ [served V p.store now (S.request i out)])
    (served V p.store now (S.request i out)).after at hpub
  generalize served V p.store now (S.request i out) = x at hpub hserved hg hreq hbefore hnow ⊢
  have hh : h ⊆ h ++ [.exchange x (some i)] := List.subset_append_left _ _
  have hcollapses := hpub.collapses (exchanges h) x [] rfl
  have hown := hpub.own (exchanges h) x [] rfl
  have hpiped : x.answer.status = 200 → Piped S (h ++ [.exchange x (some i)]) x.after i := by
    intro hstatus
    cases hserved with
    | refused status _ => exact absurd hstatus status
    | answered n dup key answer _ added _ _ =>
      exact .inr (hi.hasOutput hS hle hown hg key answer added)
  have hreceipt : PipedBelow S low (h ++ [.exchange x (some i)]) x.after
      (x.after.receiptOf S.subject S.consumer + 1) := by
    have hold := hi.flowing.receipt.mono hh hg
    cases hserved with
    | refused _ after =>
      rw [after.trans hbefore] at hold ⊢
      exact hold
    | answered n dup key answer _ added known receipt =>
      rw [receipt, hbefore]
      refine (hold.max ((hbelow.mono hh hg).succ (hpiped (by rw [answer]; rfl)))).le ?_
      dsimp only
      omega
  have hknown : S.Known p.store → S.Known x.after := by
    intro hk
    cases hserved with
    | refused _ after =>
      rw [after, hbefore]
      exact hk
    | answered n dup key answer _ added known receipt => exact known
  have hflow := hi.flowing.onward hh hg hknown hreceipt
  refine ⟨?_, ?_, (hi.recorded.store hg).snoc ?_ ?_ ?_, hflow.working ?_ ?_, hi.once.snoc ?_⟩
  · rw [exchanges_append]
    exact hpub
  · dsimp only
    rw [hg.base]
    exact hi.base
  · intro y hy
    exact absurd (PipeEvent.exchange.inj hy).2 (by simp)
  · intro y j hy
    obtain ⟨rfl, hij⟩ := PipeEvent.exchange.inj hy
    obtain rfl := Option.some.inj hij
    refine ⟨hpos, hle, ⟨out, hreq⟩, fun hne => ?_⟩
    cases hserved with
    | refused _ after => exact absurd (by rw [after]) hne
    | answered n dup key answer found added _ _ =>
      cases dup with
      | true => exact absurd (found rfl) hne
      | false =>
        obtain ⟨hn, e, hlogs⟩ := added rfl
        exact ⟨n, some i, some false, key, answer, appended_of_logs hn hlogs⟩
  · intro y t hy
    obtain ⟨rfl, -⟩ := PipeEvent.exchange.inj hy
    exact .of_eq rfl
  · intro w hw
    cases heard with
    | false =>
      obtain ⟨hd, hs⟩ := hflow.work w hw
      exact ⟨hd, hs⟩
    | true =>
      obtain ⟨w₀, hw₀, rfl⟩ := Option.map_eq_some_iff.mp hw
      obtain ⟨hd, hs⟩ := hflow.work w₀ hw₀
      exact ⟨hd, (hs.hears hpiped).1⟩
  · intro w hw hwown
    cases heard with
    | false => exact hi.flowing.own w hw hwown
    | true =>
      obtain ⟨w₀, hw₀, rfl⟩ := Option.map_eq_some_iff.mp hw
      obtain ⟨hd, hs⟩ := hflow.work w₀ hw₀
      obtain ⟨-, hsame, hfirst, hlast⟩ := hs.hears hpiped
      rw [hfirst, hlast]
      exact hi.flowing.own w₀ hw₀ (hsame ▸ hwown)
  · refine ⟨?_, fun y hy hne => ?_⟩
    · cases hserved with
      | refused _ after => exact .inl (by rw [after])
      | answered n dup key answer found added _ _ =>
        cases dup with
        | true => exact .inl (found rfl)
        | false => exact .inr (added rfl).2
    · obtain ⟨-, -, -, hychanged⟩ := hi.recorded.own y i hy
      obtain ⟨n, acked, dup, hykey, hyanswer, happ⟩ := hychanged hne
      cases hserved with
      | refused _ after => rw [after]
      | answered n' dup' key answer found added _ _ =>
        have hlate := hwindow y n hy happ
        rw [← hnow] at hlate
        exact (hcollapses y (mem_exchanges.mpr ⟨_, hy⟩) _ _ n acked dup hykey hyanswer key
          hlate).1

/-! ### Offers and answers -/

/-- What an offer of a batch may change, and what the batch is. -/
structure BatchOffer (name : Bytes) (a b : Scan) (found : Option ℕ) : Prop where
  readable : a.store.bjmCursorGet name a.sub.consumer = .ok found
  store : b.store = a.store ∨
    a.store.bjmCursorSet name a.sub.consumer (a.store.logOf name).base = .ok b.store
  same : b.sub.subject = name ∧ b.sub.consumer = a.sub.consumer
  first : b.sub.first = max (a.store.receiptOf name a.sub.consumer) (a.store.logOf name).base + 1
  nonempty : b.sub.first ≤ b.sub.last
  within : b.sub.last ≤ (a.store.logOf name).last

theorem skipTrimmed_store (a : Scan) (name : Bytes) (acked base : ℕ) :
    (a.skipTrimmed name acked base).store = a.store ∨
      a.store.bjmCursorSet name a.sub.consumer base = .ok (a.skipTrimmed name acked base).store := by
  simp only [Scan.skipTrimmed]
  split
  · split
    · exact .inl rfl
    · exact .inr ‹_›
  · exact .inl rfl

/-- Without a batch an offer may still have moved the receipt to where the log begins. -/
theorem offerBatch_none {a b : Scan} {i : ℕ} {name : Bytes}
    (h : a.offerBatch V i name = (b, none)) : b.store = a.store ∨
      (∃ found, a.store.bjmCursorGet name a.sub.consumer = .ok found) ∧
        a.store.bjmCursorSet name a.sub.consumer (a.store.logOf name).base = .ok b.store := by
  simp only [Scan.offerBatch] at h
  split at h
  · obtain ⟨rfl, -⟩ := Prod.mk.inj h
    exact .inl rfl
  rename_i base last bytes hinfo
  obtain ⟨-, rfl, -⟩ := Scan.subjectInfo_eq hinfo
  split at h
  · obtain ⟨rfl, -⟩ := Prod.mk.inj h
    exact .inl rfl
  rename_i found hget
  have hskip := skipTrimmed_store a name (found.getD 0) (a.store.logOf name).base
  split at h
  · obtain ⟨rfl, -⟩ := Prod.mk.inj h
    exact .inl rfl
  split at h
  · obtain ⟨rfl, -⟩ := Prod.mk.inj h
    exact hskip.imp id fun hset => ⟨⟨found, hget⟩, hset⟩
  · simp only [Scan.readBatch] at h
    split at h
    · obtain ⟨rfl, -⟩ := Prod.mk.inj h
      exact hskip.imp id fun hset => ⟨⟨found, hget⟩, hset⟩
    split at h
    · obtain ⟨rfl, -⟩ := Prod.mk.inj h
      exact hskip.imp id fun hset => ⟨⟨found, hget⟩, hset⟩
    · exact absurd (Prod.mk.inj h).2 (by simp)

theorem offerBatch_some {a b : Scan} {i count : ℕ} {name : Bytes}
    (h : a.offerBatch V i name = (b, some count)) : ∃ found, BatchOffer name a b found := by
  have hfirst := first_offerBatch h
  simp only [Scan.offerBatch] at h
  split at h
  · exact absurd (Prod.mk.inj h).2 (by simp)
  rename_i base last bytes hinfo
  obtain ⟨-, rfl, -⟩ := Scan.subjectInfo_eq hinfo
  split at h
  · exact absurd (Prod.mk.inj h).2 (by simp)
  rename_i found hget
  split at h
  · exact absurd (Prod.mk.inj h).2 (by simp)
  split at h
  · exact absurd (Prod.mk.inj h).2 (by simp)
  have hskip := skipTrimmed_store a name (found.getD 0) (a.store.logOf name).base
  obtain ⟨-, hsub, hsame⟩ := Scan.skipTrimmed_fields a name (found.getD 0) (a.store.logOf name).base
  have hlog : (a.skipTrimmed name (found.getD 0) (a.store.logOf name).base).store.logOf name =
      a.store.logOf name := by
    rw [hsame]
    rfl
  simp only [Scan.readBatch] at h
  split at h
  · exact absurd (Prod.mk.inj h).2 (by simp)
  rename_i n logLast hread
  split at h
  · exact absurd (Prod.mk.inj h).2 (by simp)
  rename_i hpos
  obtain ⟨rfl, -⟩ := Prod.mk.inj h
  simp only [bjmRead] at hread
  split at hread
  · contradiction
  rename_i log hlogs
  obtain ⟨-, -, rfl⟩ := subjectGet_logOf hlogs
  simp only [hlog, Nat.succ_ne_zero, if_false] at hread
  split at hread
  · contradiction
  obtain ⟨rfl, -⟩ := Prod.mk.inj (Except.ok.inj hread)
  refine ⟨found, hget, hskip, ⟨rfl, by rw [← hsub]⟩, hfirst, ?_, ?_⟩
  · dsimp only
    omega
  · dsimp only
    omega

theorem PipedBelow.cursorSet {st st' : Store} {n : ℕ} (hn : n < 2 ^ 64)
    (hr : PipedBelow S low h st (st.receiptOf S.subject S.consumer + 1))
    (hp : PipedBelow S low h st (n + 1))
    (hset : st.bjmCursorSet S.subject S.consumer n = .ok st') :
    PipedBelow S low h st (st'.receiptOf S.subject S.consumer + 1) := by
  rw [(receiptOf_cursorSet hn hset).1]
  exact (hr.max hp).le (by omega)

theorem PipeInv.move (hi : PipeInv V S bound low window h p) {st : Store} {n : ℕ}
    (hn : n < 2 ^ 53) (hp : PipedBelow S low h p.store (n + 1))
    (hset : p.store.bjmCursorSet S.subject S.consumer n = .ok st) :
    PipeInv V S bound low window h { p with store := st } :=
  hi.receipts (bjmCursorSet_same hset) (fun hk => hk.cursorSet hn hset)
    (hi.flowing.receipt.cursorSet (Nat.lt_trans hn (by decide)) hp hset)

/-- The engine's offer. -/
theorem PipeInv.offer (hS : S.Sound bound) (hi : PipeInv V S bound low window h p) {push : Pusher}
    {sub : Psub} (hsub : sub.consumer = S.consumer)
    (hlast : (p.store.logOf S.subject).last ≤ bound) (hnone : p.batch = none) :
    PipeInv V S bound low window h (pipeExec V S p (.offer push sub)).2 := by
  have hbase : (p.store.logOf S.subject).base < 2 ^ 53 := by
    have hle : (p.store.logOf S.subject).base ≤ (p.store.logOf S.subject).last :=
      Nat.le_add_right _ _
    have hsmall := hS.small
    omega
  have hlow : PipedBelow S low h p.store ((p.store.logOf S.subject).base + 1) :=
    .of_le (Nat.succ_le_succ hi.base)
  have hmoved : ∀ {st : Store},
      st = p.store ∨ p.store.bjmCursorSet S.subject S.consumer (p.store.logOf S.subject).base =
        .ok st → PipeInv V S bound low window h { p with store := st } := by
    intro st hst
    rcases hst with rfl | hset
    · exact hi
    · exact hi.move hbase hlow hset
  simp only [pipeExec, hnone]
  cases hoffer : Scan.offerBatch V ⟨p.store, push, sub⟩ 0 S.subject with
  | mk a r =>
    cases r with
    | none =>
      have hstore := offerBatch_none hoffer
      rw [← hsub] at hmoved
      have hgone := hmoved (hstore.imp id And.right)
      rwa [hnone] at hgone
    | some count =>
      obtain ⟨found, hb⟩ := offerBatch_some hoffer
      have hstore := hb.store
      have hreadable := hb.readable
      have hsame := hb.same
      have hfirst := hb.first
      dsimp only at hstore hreadable hsame hfirst
      rw [hsub] at hstore hreadable hsame hfirst
      have hgone := hmoved hstore
      have hg : LogsGrow p.store a.store := by
        rcases hstore with heq | hset
        · exact .of_eq (by rw [heq])
        · exact .of_eq (by rw [bjmCursorSet_same hset])
      have hknown : S.Known a.store := by
        rcases hstore with heq | hset
        · rw [heq]
          exact ⟨found, hreadable⟩
        · exact Stage.Known.cursorSet hbase ⟨found, hreadable⟩ hset
      have hpiped : PipedBelow S low h a.store a.sub.first := by
        rw [hfirst]
        exact ((hi.flowing.receipt.max hlow).le (by omega)).mono (List.Subset.refl h) hg
      refine hgone.flow rfl ⟨fun _ => hknown, hgone.flowing.receipt, ?_, ?_, ?_, ?_, ?_⟩
      · intro d hd
        rcases List.mem_append.mp hd with hd | hd
        · exact hgone.flowing.deliveries d hd
        · obtain rfl := List.mem_singleton.mp hd
          refine ⟨?_, hb.nonempty, Nat.le_trans hb.within hlast, hpiped⟩
          dsimp only
          omega
      · intro m hm
        exact ⟨by simp, (hgone.flowing.publishes m hm).2⟩
      · intro w hw
        exact ⟨by simp, (hgone.flowing.work w hw).2⟩
      · rintro s hs
        obtain rfl := Option.some.inj hs
        exact hsame
      · intro w hw hown
        obtain ⟨s, hs, -⟩ := hi.flowing.own w hw hown
        rw [hnone] at hs
        contradiction

/-- The process answers, and the engine may hear it. -/
theorem PipeInv.reply (hS : S.Sound bound) (hi : PipeInv V S bound low window h p) {w : StageWork}
    {s : Psub} (hw : p.work = some w) (hown : w.own = true) (hbatch : p.batch = some s) {r : Reply}
    (hr : Conveys (ackReply (ackIndex w.first (w.next - w.first))) r) (now : ℕ) :
    PipeInv V S bound low window h { p with
      store := ((s.hear r).finishBatch p.store r now).store
      batch := none
      work := none } := by
  have hquit : ∀ {q : PipeState}, PipeInv V S bound low window h q →
      PipeInv V S bound low window h { q with batch := none, work := none } := by
    intro q hq
    have hidle := hq.quit.flowing
    refine hq.flow rfl { hidle with batch := ?_, own := ?_ }
    · intro s hs
      contradiction
    · intro w hw
      contradiction
  obtain ⟨-, hsound⟩ := hi.flowing.work w hw
  have hnext := hsound.to_last
  have hfrom := hsound.from_first
  have hpos := hsound.first
  have hbound := hsound.bounded
  have hsmall := hS.small
  obtain ⟨hsubject, hconsumer⟩ := hi.flowing.batch s hbatch
  obtain ⟨t, ht, hfirst, hlast⟩ := hi.flowing.own w hw hown
  obtain rfl := Option.some.inj (hbatch.symm.trans ht)
  have hsame := Psub.hear_same s r
  rw [Psub.finishBatch_store]
  split
  · rename_i hok
    split
    · exact hquit hi
    rename_i st hset
    -- what is heard is the index of the last input handled
    have hack : (s.hear r).ackOf ≤ w.next - 1 := by
      have hroom : w.first + (w.next - w.first) ≤ 2 ^ 64 := by omega
      have hhint : (s.hear r).ackHint = some (ackIndex w.first (w.next - w.first)) := by
        cases acks_ackReply hroom with
        | taken _ heard => exact (Psub.hear_conveyed hr s).1.trans (heard s)
        | refused _ status => exact absurd (show 200 ≤ 200 ∧ 200 < 300 by decide) status
      simp only [Psub.ackOf, hhint, ackIndex]
      split <;> omega
    have hsub : (s.hear r).subject = S.subject ∧ (s.hear r).consumer = S.consumer := by
      rw [hsame]
      exact ⟨hsubject, hconsumer⟩
    rw [hsub.1, hsub.2] at hset
    exact hquit (hi.move (by omega) (hsound.piped.le (by omega)) hset)
  · exact hquit hi

/-- Whatever happens next. -/
theorem PipeInv.step (hS : S.Sound bound) {op : PipeOp} (hg : op.Fair V S bound window h p)
    (hi : PipeInv V S bound low window h p) :
    PipeInv V S bound low window (h ++ (pipeExec V S p op).1) (pipeExec V S p op).2 := by
  have hsame : PipeInv V S bound low window (h ++ []) p := by rwa [List.append_nil]
  cases op with
  | other now req => exact hi.other hS hg.1 hg.2.1 hg.2.2
  | restart => simpa [pipeExec] using hi.restart
  | offer push sub =>
    cases hb : p.batch with
    | some s => simpa [pipeExec, hb] using hi
    | none =>
      have hoffer : PipeInv V S bound low window h (pipeExec V S p (.offer push sub)).2 :=
        hi.offer hS hg.1 hg.2 hb
      have hnil : (pipeExec V S p (.offer push sub)).1 = [] := by
        simp only [pipeExec, hb]
        split <;> rfl
      rwa [hnil, List.append_nil]
  | lost =>
    have hlost : PipeInv V S bound low window h
        { p with batch := none, work := p.work.map .orphan } := hi.flow rfl hi.flowing.lost
    simpa [pipeExec] using hlost
  | receive first last =>
    simp only [pipeExec]
    split
    · rename_i hcond
      simpa using hi.receive hcond.2
    · exact hsame
  | drop =>
    simp only [pipeExec]
    split
    · rename_i w hw
      split
      · exact hi.drop hw ‹_›
      · exact hsame
    · exact hsame
  | fail => simpa [pipeExec] using hi.fail
  | send out =>
    simp only [pipeExec]
    split
    · rename_i w hw
      split
      · simpa using hi.send hw ‹_› out
      · exact hsame
    · exact hsame
  | arrive input out now heard =>
    simp only [pipeExec]
    split
    · rename_i hm
      exact hi.arrive hS heard hm (hg hm).1 (hg hm).2
    · exact hsame
  | reply r now =>
    simp only [pipeExec]
    split
    · rename_i w hw
      split
      · exact hsame
      split
      · rename_i s hown hbatch
        simpa using hi.reply hS hw hown hbatch (hg w hw) now
      · simpa using hi.quit
    · exact hsame
  | crash => simpa [pipeExec] using hi.quit

end

/-- For each input at most one message is added to the output, and whatever the receipt of
the stage has passed since the run began has its output or was dropped. -/
theorem pipe_effectively_once {st : Store} {ops : List PipeOp} (hS : S.Sound bound)
    (hf : DedupFresh st)
    (hrun : Along (pipeExec V S) (fun h p op => op.Fair V S bound st.bjmDedupWindow h p) []
      (.idle st) ops) :
    Each (OnceEach S) (run (pipeExec V S) (.idle st) ops).1 ∧
      ∀ i, max (st.receiptOf S.subject S.consumer) (st.logOf S.subject).base < i →
        i ≤ (run (pipeExec V S) (.idle st) ops).2.store.receiptOf S.subject S.consumer →
          Piped S (run (pipeExec V S) (.idle st) ops).1
            (run (pipeExec V S) (.idle st) ops).2.store i := by
  have hstart : PipeInv V S bound
      (max (st.receiptOf S.subject S.consumer) (st.logOf S.subject).base) st.bjmDedupWindow []
      (.idle st) := by
    refine ⟨⟨rfl, .inl ⟨hf, by simp [exchanges]⟩, each_nil, each_nil⟩, Nat.le_max_right _ _,
      ⟨by simp, by simp, by simp⟩, ⟨fun hd => absurd rfl hd, ?_, ?_, ?_, ?_, ?_, ?_⟩, each_nil⟩
    · exact .of_le (Nat.succ_le_succ (Nat.le_max_left _ _))
    · intro d hd
      contradiction
    · intro m hm
      contradiction
    · intro w hw
      contradiction
    · intro s hs
      contradiction
    · intro w hw
      contradiction
  have hinv := invariant hstart hrun fun h p op hg hi => hi.step hS hg
  rw [List.nil_append] at hinv
  exact ⟨hinv.once, fun i hlow hle => hinv.flowing.receipt i hlow (Nat.lt_succ_of_le hle)⟩

/-- `orders` is offered, and its first message is forwarded. -/
def firstOffered : List PipeOp :=
  [.offer twoUnread.push twoUnread.sub, .receive 1 2, .send [7]]

theorem forwarding_sound : forwarding.Sound 2 where
  subject := by decide
  consumer := by decide
  output := by decide
  small := by decide
  distinct := by
    have hall : ∀ i ∈ List.range 3, ∀ j ∈ List.range 3,
        forwarding.key i = forwarding.key j → i = j := by decide +kernel
    intro i j hi hj
    exact hall i (List.mem_range.mpr (Nat.lt_succ_of_le hi)) j
      (List.mem_range.mpr (Nat.lt_succ_of_le hj))

/-- The receipt of `billing` passes the first message, which has its output. -/
theorem firstForwarded_piped :
    let forwarded := run (pipeExec .whole forwarding) (.idle twoWaiting.store)
      (firstOffered ++ [.arrive 1 [7] 2 true])
    forwarded.2.store.receiptOf (ascii "orders") (ascii "billing") = 1 ∧
      Piped forwarding forwarded.1 forwarded.2.store 1 := by
  have hquiet : (run (pipeExec .whole forwarding) (.idle twoWaiting.store) firstOffered).1 = [] :=
    List.isEmpty_iff.mp (by decide +kernel)
  have hrun : Along (pipeExec .whole forwarding)
      (fun h p op => op.Fair .whole forwarding 2 twoWaiting.store.bjmDedupWindow h p) []
      (.idle twoWaiting.store) (firstOffered ++ [.arrive 1 [7] 2 true]) := by
    refine along_append.mpr ⟨⟨⟨rfl, by decide +kernel⟩, trivial, trivial, trivial⟩, ?_, trivial⟩
    rw [hquiet]
    refine fun _ => ⟨⟨by decide, by decide, ?_, fun p hp => ?_⟩, ?_⟩
    · intro x hx
      contradiction
    · have hpub : publication .whole (forwarding.request 1 [7]) =
          .ok ⟨ascii "bills", ⟨BJM_ENTRY_PLAIN, [7]⟩, some (forwarding.key 1)⟩ := rfl
      obtain rfl := Except.ok.inj (hpub.symm.trans hp)
      decide +kernel
    · intro x n hx
      contradiction
  have hreceipt : (run (pipeExec .whole forwarding) (.idle twoWaiting.store)
      (firstOffered ++ [.arrive 1 [7] 2 true])).2.store.receiptOf (ascii "orders")
        (ascii "billing") = 1 := by decide +kernel
  have hfresh : DedupFresh twoWaiting.store := ⟨rfl, rfl, rfl, rfl, rfl⟩
  refine ⟨hreceipt, (pipe_effectively_once forwarding_sound hfresh hrun).2 1 (by decide +kernel) ?_⟩
  exact Nat.le_of_eq hreceipt.symm

end SukkalMsg
