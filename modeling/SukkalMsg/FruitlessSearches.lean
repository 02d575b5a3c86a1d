import SukkalMsg.FairTurns
import SukkalMsg.FruitlessTakes

/-!
# Searches that find nothing

A search that finds nothing has come by every subject it was to come by, and left each
drained, or has noted when to ask again. A letter it wrote on the way is found by the
search itself only where the channel comes behind the subject of the buried job, for the
cursor does not come by a slot twice. A name that is added once the search has wrapped
around comes too late.
-/

namespace SukkalMsg

open Std Names Binjson OrderedScan BoundedTable Store

/-- Nothing is left of the subject for the subscription: no message above its receipt, or no job of
its group. -/
def Psub.Drained (st : Store) (s : Psub) (x : Bytes) : Prop :=
  if s.cfg.group = [] then (st.logOf x).last ≤ max (st.receiptOf x s.consumer) (st.logOf x).base
  else st.Cleared x s.cfg.group

namespace Psub.Drained

variable {st st' : Store} {s s' : Psub} {x : Bytes}

theorem plain (hg : s.cfg.group = []) : s.Drained st x ↔
    (st.logOf x).last ≤ max (st.receiptOf x s.consumer) (st.logOf x).base := by
  simp [Drained, hg]

theorem worker (hg : s.cfg.group ≠ []) : s.Drained st x ↔ st.Cleared x s.cfg.group := by
  simp [Drained, hg]

theorem nothing {V : Vendor} {p : Pusher} (h : s.Drained st x) (clock : ℕ) :
    (⟨st, p, s⟩ : Scan).deliverable V clock x = false := by
  by_contra hd
  rw [Bool.not_eq_false] at hd
  by_cases hg : s.cfg.group = []
  · rw [plain hg] at h
    rw [Scan.deliverable_plain hg] at hd
    exact absurd hd (Nat.not_lt.mpr h)
  · rw [worker hg] at h
    obtain ⟨t, hjobs, ht⟩ := (Scan.deliverable_worker hg).mp hd
    exact hjobs (h.take ht)

theorem of_same (h : s.Drained st x) (hcfg : s'.cfg = s.cfg) (hc : s'.consumer = s.consumer)
    (hr : s.cfg.group ≠ [] →
      st'.queues[pairKey x s.cfg.group]? = st.queues[pairKey x s.cfg.group]?)
    (hlast : (st'.logOf x).last = (st.logOf x).last)
    (hreceipt : max (st.receiptOf x s.consumer) (st.logOf x).base ≤
      max (st'.receiptOf x s.consumer) (st'.logOf x).base) : s'.Drained st' x := by
  by_cases hg : s.cfg.group = []
  · rw [plain hg] at h
    rw [plain (hcfg ▸ hg), hc, hlast]
    exact Nat.le_trans h hreceipt
  · rw [worker hg] at h
    rw [worker (hcfg ▸ hg), hcfg]
    exact h.of_same (hr hg) hlast

end Psub.Drained

namespace Scan

section Defs

variable (V : Vendor) (clock : ℕ) (a : Scan)

/-- After the take, the first lease to lapse can be read. -/
def reads (name : Bytes) : Bool :=
  if a.sub.cfg.group ≠ [] then
    match a.store.bjmTake V clock name a.sub.cfg.group a.wanted UINT64_MAX with
    | .error _ => false
    | .ok t => (t.store.bjmQueueNextDue name a.sub.cfg.group).isOk
  else true

def buries (x : Bytes) : Bool :=
  if a.sub.cfg.group ≠ [] then a.store.buries clock x a.sub.cfg.group else false

/-- The group of the subscription waits for something of the subject. -/
def Waits (x : Bytes) : Prop :=
  a.sub.cfg.group ≠ [] ∧ a.store.Waits clock x a.sub.cfg.group

/-- The groups of the subjects it may come by, and of their channels, are timely. -/
def OnTime : Prop := a.sub.cfg.group ≠ [] →
  ∀ x, (x ∈ a.push.names ∨ ∃ z ∈ a.push.names, deadSubjectOf z = some x) →
    a.sub.isMatch x = true → a.store.Timely clock x a.sub.cfg.group

end Defs

instance (clock : ℕ) (a : Scan) : Decidable (a.OnTime clock) :=
  decidable_of_iff (a.sub.cfg.group ≠ [] →
      ∀ x ∈ a.push.names ++ a.push.names.filterMap deadSubjectOf,
        a.sub.isMatch x = true → a.store.Timely clock x a.sub.cfg.group)
    (by simp only [OnTime, List.mem_append, List.mem_filterMap])

instance (clock : ℕ) (a : Scan) (x : Bytes) : Decidable (a.Waits clock x) :=
  inferInstanceAs (Decidable (_ ≠ _ ∧ _))

variable {V : Vendor} {clock i : ℕ} {a b c : Scan} {name x y : Bytes}

namespace Keeps

theorem waits_iff (h : Keeps x a c) : c.Waits clock x ↔ a.Waits clock x := by
  simp only [Waits, h.cfg_eq, Store.waits_of_same h.record h.base]

theorem logOf_eq (h : Keeps x a c) (hlast : (c.store.logOf x).last = (a.store.logOf x).last) :
    c.store.logOf x = a.store.logOf x := by
  have hbase := h.base
  have hlen : (a.store.logOf x).entries.length = (c.store.logOf x).entries.length := by
    simp only [Elog.last] at hlast
    omega
  have hentries := h.grown.eq_of_length hlen
  cases hnow : c.store.logOf x
  cases hold : a.store.logOf x
  simp only [hnow, hold] at hbase hentries
  rw [hbase, hentries]

theorem symm (h : Keeps x a c) (hlog : c.store.logOf x = a.store.logOf x) : Keeps x c a where
  cfg_eq := h.cfg_eq.symm
  consumer_eq := h.consumer_eq.symm
  record := by rw [h.cfg_eq, h.record]
  base := h.base.symm
  grown := hlog ▸ List.prefix_rfl
  reached := by rw [h.consumer_eq, h.reached]

theorem buries_eq (h : Keeps x a c) (hlog : c.store.logOf x = a.store.logOf x) :
    c.buries clock x = a.buries clock x := by
  simp only [buries, h.cfg_eq, Store.buries, queueLoad_of_same h.record h.base, hlog]

end Keeps

theorem again_of_keepsNames (hV : V.KeepsNames) (a : Scan) (name : Bytes) :
    a.again V name = fun _ => name := by
  funext st
  simp only [again, hV st name, ite_self]
  split <;> rfl

variable (a name) in
theorem noteWake_wakeMs {due : Option ℕ}
    (hdue : a.store.bjmQueueNextDue name a.sub.cfg.group = .ok due) (hzero : due ≠ some 0) :
    (a.noteWake name).sub.wakeMs ≠ 0 ↔ a.sub.wakeMs ≠ 0 ∨ due ≠ none := by
  cases due with
  | none => simp [noteWake, hdue]
  | some d =>
    have hd : d ≠ 0 := fun h => hzero (congrArg some h)
    simp only [noteWake, hdue]
    split
    · simp [hd]
    · rename_i hkeep
      have : a.sub.wakeMs ≠ 0 := fun h => hkeep (.inl h)
      simp [this]

theorem offer_take (hV : V.KeepsNames) (hg : a.sub.cfg.group ≠ [])
    (hs : a.served V clock name = true) (hread : a.reads V clock name = true)
    (ho : a.offer V clock i name = (c, none)) :
    ∃ t due, a.store.bjmTake V clock name a.sub.cfg.group a.wanted UINT64_MAX = .ok t ∧
      t.jobs = [] ∧ t.store.bjmQueueNextDue name a.sub.cfg.group = .ok due ∧
      c = ({ a with store := t.store, push := a.push.notifyDead a.store name t.dead } :
        Scan).noteWake name := by
  obtain ⟨t, ht, ⟨hj, wake, hwake, hoffer⟩ | ⟨-, b, hoffer, -⟩⟩ := offerJobs_served (i := i) hg hs
  · rw [again_of_keepsNames hV] at ht
    have htake : a.store.bjmTake V clock name a.sub.cfg.group a.wanted UINT64_MAX = .ok t := ht
    simp only [reads, hg, ne_eq, not_false_eq_true, if_true, htake] at hread
    cases hdue : t.store.bjmQueueNextDue name a.sub.cfg.group with
    | error e => simp [hdue, Except.isOk, Except.toBool] at hread
    | ok due =>
      refine ⟨t, due, htake, hj, hdue, ?_⟩
      rw [ho, hwake hV] at hoffer
      exact (Prod.mk.inj hoffer).1
  · rw [ho] at hoffer
    exact absurd (Prod.mk.inj hoffer).2 (by simp)

/-- The letters of an offer that finds nothing are on the channel, about jobs it buries. -/
theorem offer_letters (hV : V.KeepsNames) (hs : a.served V clock name = true)
    (hread : a.reads V clock name = true) (ho : a.offer V clock i name = (c, none))
    (hy : (c.store.logOf y).last ≠ (a.store.logOf y).last ∨ y ∈ c.push.names ∧ y ∉ a.push.names) :
    deadSubjectOf name = some y ∧ a.buries clock name = true := by
  by_cases hg : a.sub.cfg.group = []
  · obtain ⟨hpush, hstore, -⟩ := offerBatch_fields V a i name
    simp only [offer, hg, ne_eq, not_true_eq_false, if_false] at ho
    rw [ho] at hpush hstore
    rcases hy with hy | ⟨hy, hnew⟩
    · rw [hstore] at hy
      exact absurd rfl hy
    · exact absurd (hpush ▸ hy) hnew
  · obtain ⟨t, due, ht, -, -, rfl⟩ := offer_take hV hg hs hread ho
    obtain ⟨hpush, hstore, -⟩ := noteWake_fields
      ({ a with store := t.store, push := a.push.notifyDead a.store name t.dead } : Scan) name
    rw [hpush, hstore] at hy
    have hchannel : deadSubjectOf name = some y ∧
        (t.dead.any fun d => ((a.store.logOf name).get d.1).isSome) = true := by
      rcases hy with hy | ⟨hy, hnew⟩
      · exact (Pusher.mem_notifyDead (take_told ht (Pusher.blank 0) y hy)).resolve_left
          List.not_mem_nil
      · exact (Pusher.mem_notifyDead hy).resolve_left hnew
    refine ⟨hchannel.1, ?_⟩
    simp only [buries, hg, ne_eq, not_false_eq_true, if_true]
    exact buries_of_dead ht hchannel.2

theorem offer_drains_plain (hg : a.sub.cfg.group = []) (hs : a.served V clock name = true)
    (ha : a.Sound) (hn : slash ∉ name) (ho : a.offer V clock i name = (c, none)) :
    c.sub = a.sub ∧ c.push = a.push ∧ c.sub.Drained c.store name := by
  have hsearched := searched_offer V clock ha i hn
  rw [ho] at hsearched
  obtain ⟨-, hstore, -⟩ := offerBatch_fields V a i name
  rcases offerBatch_served (i := i) hg hs ha hn with ⟨hd, b, hoffer, hpush, hsub⟩ | ⟨-, b, count,
    hoffer, -⟩
  · rw [ho] at hoffer
    obtain ⟨rfl, -⟩ := Prod.mk.inj hoffer
    refine ⟨hsub, hpush, ?_⟩
    have hcaught : (a.store.logOf name).last ≤
        max (a.store.receiptOf name a.sub.consumer) (a.store.logOf name).base := by
      have hnot := hd
      rw [← Bool.not_eq_true, Scan.deliverable_plain hg] at hnot
      omega
    simp only [offer, hg, ne_eq, not_true_eq_false, if_false] at ho
    rw [ho] at hstore
    have hlast : (c.store.logOf name).last = (a.store.logOf name).last := by
      rw [hstore]
      rfl
    have hreceipt := hsearched.store.receipt_le (c := a.sub.consumer) hn
    have hbase := hsearched.store.base name
    dsimp only at hreceipt hbase
    rw [hsub, Psub.Drained.plain hg]
    omega
  · rw [ho] at hoffer
    exact absurd (Prod.mk.inj hoffer).2 (by simp)

/-- What an offer that finds nothing leaves: a time is noted if the group waits for one, and stays
noted; if none is, the subject is drained. -/
theorem offer_fruitless (hV : V.KeepsNames) (ha : a.Sound) (hmem : name ∈ a.push.names)
    (hm : a.sub.isMatch name = true) (ht : a.OnTime clock) (hs : a.served V clock name = true)
    (hread : a.reads V clock name = true) (ho : a.offer V clock i name = (c, none)) :
    c.OnTime clock ∧ (c.sub.wakeMs = 0 → c.sub.Drained c.store name) ∧
      (c.sub.wakeMs ≠ 0 ↔ a.sub.wakeMs ≠ 0 ∨ a.Waits clock name) := by
  have hn := ha.names name hmem
  by_cases hg : a.sub.cfg.group = []
  · obtain ⟨hsub, hpush, hdrained⟩ := offer_drains_plain hg hs ha hn ho
    exact ⟨fun hne => absurd (hsub ▸ hg) hne, fun _ => hdrained, by simp [Waits, hsub, hg]⟩
  · obtain ⟨t, due, htake, hj, hdue, hc⟩ := offer_take hV hg hs hread ho
    set d : Scan := { a with store := t.store, push := a.push.notifyDead a.store name t.dead }
      with hd
    obtain ⟨hpush, hstore, -⟩ := noteWake_fields d name
    have hsub : c.sub.cfg = a.sub.cfg := by
      rw [hc]
      exact (searched_noteWake name).sub.cfg_eq
    obtain ⟨htimely, hzero, hclear, hwaits⟩ := take_fruitless htake hj
      (ht hg name (.inl hmem) hm) hdue
    have hwake := noteWake_wakeMs d name hdue hzero
    rw [← hc] at hpush hstore hwake
    refine ⟨fun _ x hx hmx => ?_, fun hnone => ?_, ?_⟩
    · rw [hsub]
      by_cases hxn : x = name
      · rw [hxn, hstore]
        exact htimely
      · -- another subject, of those the search knew or their channels
        have hold : x ∈ a.push.names ∨ ∃ z ∈ a.push.names, deadSubjectOf z = some x := by
          rcases hx with hx | ⟨z, hz, hzx⟩
          · rw [hpush] at hx
            exact (Pusher.mem_notifyDead hx).imp id fun h => ⟨name, hmem, h.1⟩
          · rw [hpush] at hz
            rcases Pusher.mem_notifyDead hz with hz | ⟨hz, -⟩
            · exact .inr ⟨z, hz, hzx⟩
            · rw [deadSubjectOf_dead hz] at hzx
              contradiction
        have hslash : slash ∉ x := by
          rcases hold with h | ⟨z, hz, hzx⟩
          · exact ha.names x h
          · exact slash_notMem_of_nameValid (deadSubjectOf_valid hzx)
        have hkeep := keeps_offer ha hn hslash hxn ho
        refine (ht hg x hold ?_).of_same hkeep.record hkeep.base
        rw [← hkeep.isMatch_eq]
        exact hmx
    · have hnot : ¬ (d.sub.wakeMs ≠ 0 ∨ due ≠ none) := fun h => hwake.mpr h hnone
      push Not at hnot
      rw [Psub.Drained.worker (hsub ▸ hg), hsub, hstore]
      exact hclear hnot.2
    · rw [hwake, ne_eq due, hwaits, not_not, Waits, and_iff_right hg]

def Answers (V : Vendor) (clock : ℕ) (a : Scan) (name : Bytes) : Prop :=
  a.served V clock name = true ∧ a.reads V clock name = true

/-- What every turn that finds nothing keeps holds at the end of a search that finds nothing, when
it has come by every slot or has run out of fuel, and else where something is found. -/
theorem loop_rule {P : ℕ → Scan → Prop} {fuel n : ℕ} {a' : Scan} {found : Option ℕ} (hp : P n a)
    (hs : ∀ p ∈ a.offered V clock fuel n, p.1.Answers V clock p.2)
    (skip : ∀ n a name, P n a → n < a.push.names.length →
      a.push.names[RoundRobin.slot a.push.names.length a.sub.rr n]? = some name →
        ¬ a.sub.isMatch name = true → P (n + 1) a)
    (pass : ∀ n a name c, P n a → n < a.push.names.length →
      a.push.names[RoundRobin.slot a.push.names.length a.sub.rr n]? = some name →
        a.sub.isMatch name = true → a.Answers V clock name →
          a.offer V clock (RoundRobin.slot a.push.names.length a.sub.rr n) name = (c, none) →
            P (n + 1) c)
    (hl : loop V clock fuel n a = (a', found)) :
    ∃ n' d, P n' d ∧
      (found = none → d = a' ∧ (a'.push.names.length ≤ n' ∨ n' = n + fuel)) ∧
      ∀ count, found = some count → n' < d.push.names.length ∧ ∃ name,
        d.push.names[RoundRobin.slot d.push.names.length d.sub.rr n']? = some name ∧
          d.sub.isMatch name = true ∧ d.Answers V clock name ∧
            d.offer V clock (RoundRobin.slot d.push.names.length d.sub.rr n') name =
              (a', some count) := by
  induction fuel generalizing a n with
  | zero =>
    obtain ⟨rfl, rfl⟩ := Prod.mk.inj hl
    exact ⟨n, a, hp, fun _ => ⟨rfl, .inr rfl⟩, by simp⟩
  | succ fuel ih =>
    by_cases hn : n < a.push.names.length
    · simp only [loop, hn, if_true] at hl
      simp only [offered, hn, if_true] at hs
      have hlt : (a.sub.rr + n) % a.push.names.length < a.push.names.length :=
        Nat.mod_lt _ (Nat.lt_of_le_of_lt (Nat.zero_le n) hn)
      have hname : a.push.names[RoundRobin.slot a.push.names.length a.sub.rr n]? =
          some (a.push.names.getD ((a.sub.rr + n) % a.push.names.length) []) := by
        rw [RoundRobin.slot, List.getD_eq_getElem?_getD, List.getElem?_eq_getElem hlt,
          Option.getD_some]
      generalize a.push.names.getD ((a.sub.rr + n) % a.push.names.length) [] = name at *
      have hrest := fun d : Scan => @ih d (n + 1)
      rw [Nat.add_right_comm n 1 fuel] at hrest
      by_cases hm : a.sub.isMatch name = true
      · simp only [hm, if_true] at hl hs
        have hanswers := hs (a, name) List.mem_cons_self
        have hslot : RoundRobin.slot a.push.names.length a.sub.rr n =
            (a.sub.rr + n) % a.push.names.length := rfl
        rw [← hslot] at hl hs
        cases ho : a.offer V clock (RoundRobin.slot a.push.names.length a.sub.rr n) name with
        | mk c here => cases here with
          | none =>
            rw [ho] at hl hs
            exact hrest c (pass n a name c hp hn hname hm hanswers ho)
              (fun p hp => hs p (List.mem_cons_of_mem _ hp)) hl
          | some k =>
            rw [ho] at hl
            obtain ⟨rfl, rfl⟩ := Prod.mk.inj hl
            refine ⟨n, a, hp, by simp, fun count heq => ⟨hn, name, hname, hm, hanswers, ?_⟩⟩
            rw [ho, heq]
      · simp only [hm] at hl hs
        exact hrest a (skip n a name hp hn hname hm) hs hl
    · simp only [loop, hn, if_false] at hl
      obtain ⟨rfl, rfl⟩ := Prod.mk.inj hl
      exact ⟨n, a, hp, fun _ => ⟨rfl, .inl (Nat.not_lt.mp hn)⟩, by simp⟩

structure Swept (clock : ℕ) (b a : Scan) : Prop where
  sound : a.Sound
  onTime : a.OnTime clock
  grown : Grown b.push.names a.push.names
  cfg_eq : a.sub.cfg = b.sub.cfg
  consumer_eq : a.sub.consumer = b.sub.consumer
  rr_eq : a.sub.rr = b.sub.rr

namespace Swept

theorem isMatch_eq (h : Swept clock b a) (x : Bytes) : a.sub.isMatch x = b.sub.isMatch x := by
  simp only [Psub.isMatch, h.cfg_eq]

theorem pass (h : Swept clock b a) (hV : V.KeepsNames) (hmem : name ∈ a.push.names)
    (hm : a.sub.isMatch name = true) (hs : a.Answers V clock name)
    (ho : a.offer V clock i name = (c, none)) : Swept clock b c ∧ a.push.Tells name c.push := by
  have hn := h.sound.names name hmem
  have hsearched := searched_offer V clock h.sound i hn
  rw [ho] at hsearched
  rcases offer_served (i := i) hs.1 h.sound hn with ⟨d, hoffer, hpass⟩ | ⟨-, d, count, hoffer, -⟩
  · rw [ho] at hoffer
    obtain ⟨rfl, -⟩ := Prod.mk.inj hoffer
    exact ⟨⟨hsearched.sound h.sound,
      (offer_fruitless hV h.sound hmem hm h.onTime hs.1 hs.2 ho).1,
      h.grown.tells hpass.tells hmem, hsearched.sub.cfg_eq.trans h.cfg_eq,
      hsearched.sub.consumer_eq.trans h.consumer_eq, hpass.rr.trans h.rr_eq⟩, hpass.tells⟩
  · rw [ho] at hoffer
    exact absurd (Prod.mk.inj hoffer).2 (by simp)

theorem cursor_lt (h : Swept clock b a) (hr : b.sub.rr < b.push.names.length) :
    a.sub.rr < a.push.names.length := by
  obtain ⟨l, hl, -, -⟩ := h.grown.channels
  rw [h.rr_eq, hl, List.length_append]
  omega

/-- A name has one slot. -/
theorem slot_unique (h : Swept clock b a) {j k : ℕ} (hj : a.push.names[j]? = some x)
    (hk : a.push.names[k]? = some x) : j = k :=
  (List.getElem?_inj (List.getElem?_eq_some_iff.mp hj).1 h.grown.nodup).mp (hj.trans hk.symm)

theorem index (h : Swept clock b a) {j : ℕ} (hj : a.push.names[j]? = some x)
    (hx : x ∈ b.push.names) : b.push.names[j]? = some x := by
  obtain ⟨l, hl, -, -⟩ := h.grown.channels
  obtain ⟨k, hk⟩ := List.getElem?_of_mem hx
  have hk' := getElem?_of_longer (List.prefix_append b.push.names l) hk
  rw [← hl] at hk'
  exact h.slot_unique hj hk' ▸ hk

theorem stands (h : Swept clock b a) {j : ℕ} (hj : b.push.names[j]? = some x) :
    a.push.names[j]? = some x := by
  obtain ⟨l, hl, -, -⟩ := h.grown.channels
  rw [hl]
  exact getElem?_of_longer (List.prefix_append _ _) hj

end Swept

section Searches

variable {a' : Scan} {found : Option ℕ} (hV : V.KeepsNames) (hb : b.Sound)
  (hnodup : b.push.names.Nodup)
  (hr : b.push.names ≠ [] → b.sub.rr < b.push.names.length) (ht : b.OnTime clock)
  (hs : ∀ p ∈ ({ b with sub.wakeMs := 0 } : Scan).offered V clock
    (2 * b.push.names.length + 1) 0, p.1.Answers V clock p.2)

include hV hb hnodup hr ht hs

/-- What the turns that find nothing keep holds when the search has come by every slot, or to
something. -/
theorem search_rule (hsearch : b.search V clock = (a', found)) {P : ℕ → Scan → Prop}
    (hp : P 0 { b with sub.wakeMs := 0 })
    (skip : ∀ n a name, Swept clock { b with sub.wakeMs := 0 } a → P n a →
      b.sub.rr < b.push.names.length → n < a.push.names.length →
        a.push.names[RoundRobin.slot a.push.names.length b.sub.rr n]? = some name →
          ¬ b.sub.isMatch name = true → P (n + 1) a)
    (pass : ∀ n a name c, Swept clock { b with sub.wakeMs := 0 } a →
      Swept clock { b with sub.wakeMs := 0 } c → a.push.Tells name c.push → P n a →
        b.sub.rr < b.push.names.length → n < a.push.names.length →
          a.push.names[RoundRobin.slot a.push.names.length b.sub.rr n]? = some name →
            b.sub.isMatch name = true → a.Answers V clock name →
              a.offer V clock (RoundRobin.slot a.push.names.length b.sub.rr n) name = (c, none) →
                (c.sub.wakeMs = 0 → c.sub.Drained c.store name) →
                  (c.sub.wakeMs ≠ 0 ↔ a.sub.wakeMs ≠ 0 ∨ a.Waits clock name) → P (n + 1) c) :
    ∃ n d, Swept clock { b with sub.wakeMs := 0 } d ∧ P n d ∧
      (found = none → d = a' ∧ d.push.names.length ≤ n) ∧
      ∀ count, found = some count → n < d.push.names.length ∧ ∃ name,
        d.push.names[RoundRobin.slot d.push.names.length b.sub.rr n]? = some name ∧
          b.sub.isMatch name = true ∧ d.Answers V clock name ∧
            d.offer V clock (RoundRobin.slot d.push.names.length b.sub.rr n) name =
              (a', some count) := by
  set b₀ : Scan := { b with sub.wakeMs := 0 } with hb₀
  have hcursor : ∀ {n : ℕ} {a : Scan}, Swept clock b₀ a → n < a.push.names.length →
      b.sub.rr < b.push.names.length := by
    intro n a hswept hn
    refine hr fun hnil => ?_
    have hle := hswept.grown.length_le
    have hzero : b₀.push.names.length = 0 := by rw [hb₀, hnil, List.length_nil]
    omega
  have hstart : Swept clock b₀ b₀ ∧ P 0 b₀ :=
    ⟨⟨⟨hb.names, hb.base⟩, ht, .refl hnodup, rfl, rfl, rfl⟩, hp⟩
  obtain ⟨n, d, ⟨hswept, hq⟩, hnone, hsome⟩ := loop_rule
    (P := fun n a => Swept clock b₀ a ∧ P n a) hstart hs
    (by
      rintro n a name ⟨hswept, hq⟩ hn hname hm
      rw [hswept.rr_eq] at hname
      rw [hswept.isMatch_eq] at hm
      exact ⟨hswept, skip n a name hswept hq (hcursor hswept hn) hn hname hm⟩)
    (by
      rintro n a name c ⟨hswept, hq⟩ hn hname hm hanswers ho
      have hmem := List.mem_of_getElem? hname
      obtain ⟨hswept', htells⟩ := hswept.pass hV hmem hm hanswers ho
      obtain ⟨-, hdrained, hwake⟩ := offer_fruitless hV hswept.sound hmem hm hswept.onTime
        hanswers.1 hanswers.2 ho
      rw [hswept.rr_eq] at hname ho
      rw [hswept.isMatch_eq] at hm
      exact ⟨hswept', pass n a name c hswept hswept' htells hq (hcursor hswept hn) hn hname hm
        hanswers ho hdrained hwake⟩)
    hsearch
  refine ⟨n, d, hswept, hq, fun h => ?_, fun count h => ?_⟩
  · -- the names grow to twice as many at most, so the fuel reaches every slot
    obtain ⟨rfl, hend⟩ := hnone h
    have hfuel : d.push.names.length ≤ 2 * b.push.names.length := hswept.grown.length_le
    exact ⟨rfl, by omega⟩
  · obtain ⟨hn, name, hname, hm, hrest⟩ := hsome count h
    rw [hswept.rr_eq] at hname hrest
    rw [hswept.isMatch_eq] at hm
    exact ⟨hn, name, hname, hm, hrest⟩

/-- A group that waits for something of a subject the search knows has it note a time. -/
theorem search_wakes (hsearch : b.search V clock = (a', none)) (hx : x ∈ b.push.names)
    (hm : b.sub.isMatch x = true) (hw : b.Waits clock x) : a'.sub.wakeMs ≠ 0 := by
  intro hwake
  set b₀ : Scan := { b with sub.wakeMs := 0 } with hb₀
  obtain ⟨n, d, hswept, hmet, hend, -⟩ := search_rule hV hb hnodup hr ht hs hsearch
    (P := fun n a => a.sub.wakeMs = 0 → ∀ j, a.push.names[j]? = some x →
      RoundRobin.Pending a.push.names.length b.sub.rr n j ∧ Keeps x b₀ a)
    (fun _ j _ => ⟨RoundRobin.pending_zero (hr (List.ne_nil_of_mem hx)), .refl⟩)
    (by
      -- a subject the subscription does not match
      intro n a name hswept hmet hcursor hn hname hnot hzero j hj
      obtain ⟨hpending, hkeeps⟩ := hmet hzero j hj
      have hlt := hswept.cursor_lt hcursor
      rw [hswept.rr_eq] at hlt
      refine ⟨hpending.next hlt (List.getElem?_eq_some_iff.mp hj).1 ?_ (Nat.le_refl _)
        (Nat.le_succ _), hkeeps⟩
      rintro rfl
      rw [hj] at hname
      exact hnot (Option.some.inj hname ▸ hm))
    (by
      intro n a name c hswept hswept' htells hmet hcursor hn hname _ hanswers ho _ hnoted hzero j hj
      have hmem := List.mem_of_getElem? hname
      have hquiet : ¬ (a.sub.wakeMs ≠ 0 ∨ a.Waits clock name) := fun h => hnoted.mpr h hzero
      push Not at hquiet
      have hlt := hswept.cursor_lt hcursor
      rw [hswept.rr_eq] at hlt
      have hja : a.push.names[j]? = some x := hswept.stands (hswept'.index hj hx)
      obtain ⟨hpending, hkeeps⟩ := hmet hquiet.1 j hja
      have hxn : x ≠ name := by
        rintro rfl
        exact hquiet.2 ((hkeeps.waits_iff (a := b₀)).mpr hw)
      refine ⟨hpending.next hlt (List.getElem?_eq_some_iff.mp hja).1 ?_ htells.longer.length_le
        htells.length_le, hkeeps.trans (keeps_offer hswept.sound (hswept.sound.names name hmem)
          (hb.names x hx) hxn ho)⟩
      rintro rfl
      rw [hja] at hname
      exact hxn (Option.some.inj hname))
  obtain ⟨rfl, hend⟩ := hend rfl
  obtain ⟨j, hj⟩ := List.getElem?_of_mem hx
  have hj' : d.push.names[j]? = some x := hswept.stands hj
  have hlt := (hmet hwake j hj').1.lt (List.getElem?_eq_some_iff.mp hj').1
  omega

/-- The search notes a time for a group that waited for something before. -/
theorem search_waits (hsearch : b.search V clock = (a', none)) (hwake : a'.sub.wakeMs ≠ 0) :
    ∃ x, b.sub.isMatch x = true ∧ b.Waits clock x := by
  set b₀ : Scan := { b with sub.wakeMs := 0 } with hb₀
  obtain ⟨n, d, hswept, ⟨hwaits, -⟩, hend, -⟩ := search_rule hV hb hnodup hr ht hs hsearch
    (P := fun n a => (a.sub.wakeMs ≠ 0 → ∃ x, b.sub.isMatch x = true ∧ b.Waits clock x) ∧
      (a.sub.wakeMs = 0 → ∀ x, slash ∉ x → Keeps x b₀ a ∨ ¬ a.Waits clock x))
    ⟨fun h => absurd rfl h, fun _ x _ => .inl .refl⟩
    (fun n a name _ hmet _ _ _ _ => hmet)
    (by
      rintro n a name c hswept hswept' htells ⟨hold, hquiet⟩ hcursor hn hname hm hanswers ho
        hdrained hnoted
      have hslash := hswept.sound.names name (List.mem_of_getElem? hname)
      refine ⟨fun hc => ?_, fun hc x hx => ?_⟩
      · rcases hnoted.mp hc with ha | hw
        · exact hold ha
        by_cases ha : a.sub.wakeMs = 0
        · rcases hquiet ha name hslash with hkeeps | hnot
          · exact ⟨name, hm, (hkeeps.waits_iff (a := b₀)).mp hw⟩
          · exact absurd hw hnot
        · exact hold ha
      · have hnot : ¬ (a.sub.wakeMs ≠ 0 ∨ a.Waits clock name) := fun h => hnoted.mpr h hc
        push Not at hnot
        by_cases hxn : x = name
        · subst hxn
          refine .inr fun hw => ?_
          have hcleared := hdrained hc
          rw [Psub.Drained.worker hw.1] at hcleared
          exact hcleared.not_waits hw.2
        · have hkeep := keeps_offer hswept.sound hslash hx hxn ho
          exact (hquiet hnot.1 x hx).imp (fun h => h.trans hkeep) fun h hw =>
            h (hkeep.waits_iff.mp hw))
  obtain ⟨rfl, -⟩ := hend rfl
  exact hwaits hwake

/-- What the search finds was deliverable before, if it buries no job on the way. -/
theorem search_found {count : ℕ} (hsearch : b.search V clock = (a', some count))
    (hserved : ∀ x ∈ b.push.names, b.sub.isMatch x = true → b.served V clock x = true)
    (hquiet : ∀ x ∈ b.push.names, b.sub.isMatch x = true → b.buries clock x = false) :
    ∃ x, b.sub.isMatch x = true ∧ b.deliverable V clock x = true := by
  set b₀ : Scan := { b with sub.wakeMs := 0 } with hb₀
  obtain ⟨n, d, hswept, ⟨hnames, hmet⟩, -, hsome⟩ := search_rule hV hb hnodup hr ht hs hsearch
    (P := fun n a => a.push.names = b.push.names ∧ ∀ j x, b.push.names[j]? = some x →
      RoundRobin.Pending b.push.names.length b.sub.rr n j →
        Keeps x b₀ a ∧ a.store.logOf x = b.store.logOf x)
    ⟨rfl, fun _ _ _ _ => ⟨.refl, rfl⟩⟩
    (by
      rintro n a name hswept ⟨hnames, hmet⟩ hcursor hn hname hnot
      rw [hnames] at hn
      exact ⟨hnames, fun j x hj hpending => hmet j x hj (hpending.back hcursor hn).1⟩)
    (by
      rintro n a name c hswept hswept' htells ⟨hnames, hmet⟩ hcursor hn hname hm hanswers ho - -
      rw [hnames] at hn hname
      have hmem := List.mem_of_getElem? hname
      obtain ⟨hkeeps, hlog⟩ := hmet _ _ hname (RoundRobin.pending_slot hcursor hn)
      -- no letter is written, for its job would have been there before
      have hnone : ∀ y, ¬ ((c.store.logOf y).last ≠ (a.store.logOf y).last ∨
          y ∈ c.push.names ∧ y ∉ a.push.names) := fun y hy => by
        obtain ⟨-, hburies⟩ := offer_letters hV hanswers.1 hanswers.2 ho hy
        rw [hkeeps.buries_eq hlog] at hburies
        exact Bool.false_ne_true ((hquiet name hmem hm).symm.trans hburies)
      have hsame : c.push.names = a.push.names := by
        rcases htells with heq | ⟨channel, -, hnew, heq⟩
        · exact heq
        · exact absurd (.inr ⟨by simp [heq], hnew⟩) (hnone channel)
      refine ⟨hsame.trans hnames, fun j x hj hpending => ?_⟩
      obtain ⟨hbefore, hne⟩ := hpending.back hcursor hn
      obtain ⟨hkeeps, hlog⟩ := hmet j x hj hbefore
      have hxn : x ≠ name := by
        rintro rfl
        exact hne ((List.getElem?_inj (List.getElem?_eq_some_iff.mp hname).1 hnodup).mp
          (hname.trans hj.symm))
      have hkeep := keeps_offer hswept.sound (hb.names name hmem)
        (hb.names x (List.mem_of_getElem? hj)) hxn ho
      have hlast : (c.store.logOf x).last = (a.store.logOf x).last := by
        by_contra hne
        exact hnone x (.inl hne)
      exact ⟨hkeeps.trans hkeep, (hkeep.logOf_eq hlast).trans hlog⟩)
  obtain ⟨hn, name, hname, hm, hanswers, ho⟩ := hsome count rfl
  rw [hnames] at hn hname
  have hmem := List.mem_of_getElem? hname
  obtain ⟨hkeeps, hlog⟩ := hmet _ _ hname
    (RoundRobin.pending_slot (hr (List.ne_nil_of_mem hmem)) hn)
  refine ⟨name, hm, ?_⟩
  rcases offer_served (i := RoundRobin.slot d.push.names.length b.sub.rr n) hanswers.1 hswept.sound
    (hb.names name hmem) with ⟨c, hoffer, -⟩ | ⟨hd, -⟩
  · rw [ho] at hoffer
    exact absurd (Prod.mk.inj hoffer).2 (by simp)
  · exact (hkeeps.symm hlog).deliverable hd (hserved name hmem hm)

/-- Where no job is buried on the way, a search finds something exactly when, on the tables it
begins with, something is deliverable. -/
theorem search_finds_iff (hknown : ∀ x, 0 < (b.store.logOf x).last → x ∈ b.push.names)
    (hserved : ∀ x ∈ b.push.names, b.sub.isMatch x = true → b.served V clock x = true)
    (hquiet : ∀ x ∈ b.push.names, b.sub.isMatch x = true → b.buries clock x = false) :
    (∃ a count, b.search V clock = (a, some count)) ↔
      ∃ x, b.sub.isMatch x = true ∧ b.deliverable V clock x = true := by
  constructor
  · rintro ⟨a, count, hsearch⟩
    exact search_found hV hb hnodup hr ht hs hsearch hserved hquiet
  · rintro ⟨x, hm, hd⟩
    have hmem := hknown x (pos_of_deliverable hd)
    obtain ⟨j, hj⟩ := List.getElem?_of_mem hmem
    have hcursor := hr (List.ne_nil_of_mem hmem)
    obtain ⟨a, count, -, hloop, -⟩ := loop_finds (a := { b with sub.wakeMs := 0 })
      (b := { b with sub.wakeMs := 0 }) _ 0 ⟨hb.names, hb.base⟩ (.refl hnodup) rfl rfl hcursor hj hm
      (RoundRobin.pending_zero hcursor) hd .refl fun p hp => (hs p hp).1
    exact ⟨a, count, hloop⟩

end Searches

theorem offer_record {g : Bytes} (hn : slash ∉ name) (hx : slash ∉ x)
    (hor : x ≠ name ∨ g ≠ a.sub.cfg.group) (ho : a.offer V clock i name = (c, none)) :
    c.store.queues[pairKey x g]? = a.store.queues[pairKey x g]? := by
  by_cases hg : a.sub.cfg.group = []
  · obtain ⟨-, hstore, -⟩ := offerBatch_fields V a i name
    simp only [offer, hg, ne_eq, not_true_eq_false, if_false] at ho
    rw [ho] at hstore
    rw [hstore]
  · have hqueues := offerJobs_queues V clock a i name
    simp only [offer, hg, ne_eq, not_false_eq_true, if_true] at ho
    rw [ho] at hqueues
    rcases hqueues with heq | ⟨r, heq⟩
    · rw [heq]
    · rw [heq, getElem?_insert, if_neg]
      intro hkey
      obtain ⟨hname, hgroup⟩ := pairKey_injective hn hx hkey
      exact hor.elim (fun h => h hname.symm) fun h => h hgroup.symm

/-- A letter the search writes is on no channel it has come by. -/
def LettersAhead (clock : ℕ) (b : Scan) : Prop :=
  ∀ z ∈ b.push.names, b.sub.isMatch z = true → b.buries clock z = true →
    ∀ y ∈ deadSubjectOf z, b.sub.isMatch y = true →
      ¬ RoundRobin.Ahead b.sub.rr (b.push.names.idxOf z) (b.push.names.idxOf y)

instance (clock : ℕ) (b : Scan) : Decidable (b.LettersAhead clock) :=
  inferInstanceAs (Decidable (∀ z ∈ b.push.names, _ → _ → ∀ y ∈ deadSubjectOf z, _ → _))

/-- A letter was written to the subject, or the engine was told of it. -/
def Lettered (b a : Scan) (y : Bytes) : Prop :=
  (a.store.logOf y).last ≠ (b.store.logOf y).last ∨ y ∈ a.push.names ∧ y ∉ b.push.names

/-- A search that has noted no time so far: what it has come by is drained, the rest is as it
was. -/
structure Met (clock : ℕ) (b a : Scan) (n : ℕ) : Prop where
  known : ∀ j x, a.push.names[j]? = some x → b.sub.isMatch x = true →
    RoundRobin.Pending a.push.names.length b.sub.rr n j ∧ Keeps x b a ∨
      RoundRobin.Behind a.push.names.length b.sub.rr n j ∧ a.sub.Drained a.store x
  fresh : ∀ x, x ∉ a.push.names → slash ∉ x → Keeps x b a
  letters : ∀ y, Lettered b a y → ∃ z ∈ b.push.names, b.sub.isMatch z = true ∧
    b.buries clock z = true ∧ deadSubjectOf z = some y

namespace Met

variable {n j : ℕ}

theorem same_log (h : Met clock b a n) (hk : Keeps x b a) (hx : deadSubjectOf x ≠ none) :
    a.store.logOf x = b.store.logOf x := by
  have hlast : (a.store.logOf x).last = (b.store.logOf x).last := by
    by_contra hne
    obtain ⟨z, -, -, -, hz⟩ := h.letters x (.inl hne)
    exact hx (deadSubjectOf_dead hz)
  exact hk.logOf_eq hlast

theorem buried (h : Met clock b a n) (hname : a.push.names[j]? = some name)
    (hm : b.sub.isMatch name = true) (hd : deadSubjectOf name ≠ none)
    (hburies : a.buries clock name = true) :
    name ∈ b.push.names ∧ b.buries clock name = true := by
  have hmem := List.mem_of_getElem? hname
  refine ⟨?_, ?_⟩
  · by_contra hnew
    obtain ⟨z, -, -, -, hz⟩ := h.letters name (.inr ⟨hmem, hnew⟩)
    exact hd (deadSubjectOf_dead hz)
  · rcases h.known j name hname hm with ⟨-, hk⟩ | ⟨-, hdrained⟩
    · rwa [← hk.buries_eq (h.same_log hk hd)]
    · by_cases hg : a.sub.cfg.group = []
      · simp [Scan.buries, hg] at hburies
      · rw [Psub.Drained.worker hg] at hdrained
        simp [Scan.buries, hg, hdrained.buries] at hburies

/-- A letter goes to a channel that is still to come, and has not been touched. -/
theorem letter (h : Met clock b a n) (hs : Swept clock b a) (hs' : Swept clock b c)
    (hahead : b.LettersAhead clock) (hr : b.sub.rr < b.push.names.length)
    (hn : n < a.push.names.length) (hname : a.push.names[RoundRobin.slot a.push.names.length
      b.sub.rr n]? = some name)
    (hm : b.sub.isMatch name = true) (hd : deadSubjectOf name = some y)
    (hburies : a.buries clock name = true) (hle : a.push.names <+: c.push.names)
    (hj : c.push.names[j]? = some y) (hy : b.sub.isMatch y = true) :
    RoundRobin.Pending c.push.names.length b.sub.rr (n + 1) j ∧ Keeps y b a := by
  obtain ⟨hmem, hbury⟩ := h.buried hname hm (by simp [hd]) hburies
  have hnot := hahead name hmem hm hbury y hd hy
  have hcursor := hs.cursor_lt hr
  rw [hs.rr_eq] at hcursor
  have hne : y ≠ name := by
    rintro rfl
    exact absurd hd (by simp [deadSubjectOf_dead hd])
  have hindex : ∀ {k z}, c.push.names[k]? = some z → z ∈ b.push.names →
      b.push.names.idxOf z = k := by
    intro k z hk hz
    have hnodup : b.push.names.Nodup := by
      obtain ⟨l, hl, -, -⟩ := hs'.grown.channels
      have hall := hs'.grown.nodup
      rw [hl, List.nodup_append] at hall
      exact hall.1
    exact idxOf_of_getElem? hnodup (hs'.index hk hz)
  have hi := hindex (getElem?_of_longer hle hname) hmem
  have hslot : RoundRobin.slot a.push.names.length b.sub.rr n ≠ j := by
    rintro rfl
    rw [getElem?_of_longer hle hname] at hj
    exact hne (Option.some.inj hj).symm
  have hbehind : ¬ RoundRobin.Ahead b.sub.rr (RoundRobin.slot a.push.names.length b.sub.rr n) j := by
    rw [hi] at hnot
    by_cases hyb : y ∈ b.push.names
    · rwa [hindex hj hyb] at hnot
    · -- a new name stands behind all those the search began with
      have hilt := (List.getElem?_eq_some_iff.mp (hs'.index (getElem?_of_longer hle hname) hmem)).1
      have hjge : b.push.names.length ≤ j := by
        by_contra hlt
        obtain ⟨l, hl, -, -⟩ := hs'.grown.channels
        rw [hl, List.getElem?_append_left (by omega)] at hj
        exact hyb (List.mem_of_getElem? hj)
      rw [List.idxOf_eq_length hyb] at hnot
      simp only [RoundRobin.Ahead] at hnot ⊢
      split at hnot <;> split <;> omega
  refine ⟨.of_not_ahead hcursor hn hslot hbehind hle.length_le, ?_⟩
  by_cases hya : y ∈ a.push.names
  · obtain ⟨k, hk⟩ := List.getElem?_of_mem hya
    obtain rfl := hs'.slot_unique (getElem?_of_longer hle hk) hj
    rcases h.known k y hk hy with ⟨-, hkeeps⟩ | ⟨hback, -⟩
    · exact hkeeps
    · exact absurd (hback.ahead hcursor hn hslot) hbehind
  · exact h.fresh y hya (hs'.sound.names y (List.mem_of_getElem? hj))

theorem skip (h : Met clock b a n) (hs : Swept clock b a) (hr : b.sub.rr < b.push.names.length)
    (hname : a.push.names[RoundRobin.slot a.push.names.length b.sub.rr n]? = some name)
    (hm : ¬ b.sub.isMatch name = true) : Met clock b a (n + 1) := by
  have hcursor := hs.cursor_lt hr
  rw [hs.rr_eq] at hcursor
  refine ⟨fun j x hj hx => ?_, h.fresh, h.letters⟩
  rcases h.known j x hj hx with ⟨hpending, hkeeps⟩ | ⟨hbehind, hdrained⟩
  · refine .inl ⟨hpending.next hcursor (List.getElem?_eq_some_iff.mp hj).1 ?_ (Nat.le_refl _)
      (Nat.le_succ _), hkeeps⟩
    rintro rfl
    rw [hj] at hname
    exact hm (Option.some.inj hname ▸ hx)
  · exact .inr ⟨hbehind.next (Nat.le_succ _), hdrained⟩

/-- Offering a subject in vain drains it, and leaves the others but for a letter to its channel. -/
theorem pass (h : Met clock b a n) (hV : V.KeepsNames) (hs : Swept clock b a)
    (hahead : b.LettersAhead clock) (hr : b.sub.rr < b.push.names.length)
    (hn : n < a.push.names.length)
    (hname : a.push.names[RoundRobin.slot a.push.names.length b.sub.rr n]? = some name)
    (hm : b.sub.isMatch name = true) (hanswers : a.Answers V clock name)
    (ho : a.offer V clock i name = (c, none)) (hdrained : c.sub.Drained c.store name) :
    Met clock b c (n + 1) := by
  have hmem := List.mem_of_getElem? hname
  have hma : a.sub.isMatch name = true := by rwa [hs.isMatch_eq]
  obtain ⟨hs', htells⟩ := hs.pass hV hmem hma hanswers ho
  have hcursor := hs.cursor_lt hr
  rw [hs.rr_eq] at hcursor
  have hslash := hs.sound.names name hmem
  have hletter : ∀ {y}, Lettered a c y → deadSubjectOf name = some y ∧ a.buries clock name = true :=
    offer_letters hV hanswers.1 hanswers.2 ho
  have hkeep : ∀ x, slash ∉ x → x ≠ name → Keeps x a c := fun x hx hne =>
    keeps_offer hs.sound hslash hx hne ho
  refine ⟨fun j x hj hx => ?_, fun x hx hxs => ?_, fun y hy => ?_⟩
  · have hxs := hs'.sound.names x (List.mem_of_getElem? hj)
    by_cases hxn : x = name
    · subst hxn
      obtain rfl := hs'.slot_unique hj (getElem?_of_longer htells.longer hname)
      exact .inr ⟨RoundRobin.behind_slot hcursor hn htells.length_le, hdrained⟩
    by_cases hnew : Lettered a c x
    · obtain ⟨hd, hburies⟩ := hletter hnew
      obtain ⟨hpending, hkeeps⟩ := h.letter hs hs' hahead hr hn hname hm hd hburies htells.longer
        hj hx
      exact .inl ⟨hpending, hkeeps.trans (hkeep x hxs hxn)⟩
    · -- no letter: what is drained stays drained
      simp only [Lettered, not_or, not_not, not_and] at hnew
      obtain ⟨k, hk⟩ := List.getElem?_of_mem (hnew.2 (List.mem_of_getElem? hj))
      obtain rfl := hs'.slot_unique hj (getElem?_of_longer htells.longer hk)
      have hkx := hkeep x hxs hxn
      rcases h.known _ x hk hx with ⟨hpending, hkeeps⟩ | ⟨hbehind, hold⟩
      · refine .inl ⟨hpending.next hcursor (List.getElem?_eq_some_iff.mp hk).1 ?_
          htells.longer.length_le htells.length_le, hkeeps.trans hkx⟩
        rintro rfl
        rw [hk] at hname
        exact hxn (Option.some.inj hname)
      · exact .inr ⟨hbehind.next htells.length_le, hold.of_same hkx.cfg_eq hkx.consumer_eq
          (fun _ => hkx.record) hnew.1 (Nat.le_of_eq hkx.reached.symm)⟩
  · have hxa : x ∉ a.push.names := fun hxa => hx (htells.longer.subset hxa)
    refine (h.fresh x hxa hxs).trans (hkeep x hxs ?_)
    rintro rfl
    exact hxa hmem
  · by_cases hnew : Lettered a c y
    · obtain ⟨hd, hburies⟩ := hletter hnew
      obtain ⟨hmem', hbury⟩ := h.buried hname hm (by simp [hd]) hburies
      exact ⟨name, hmem', hm, hbury, hd⟩
    · simp only [Lettered, not_or, not_not, not_and] at hnew
      refine h.letters y (hy.imp (fun hlast => ?_) fun hyc => ⟨hnew.2 hyc.1, hyc.2⟩)
      rwa [← hnew.1]

end Met

/-- What a search that finds nothing and notes no time leaves. -/
structure Idled (clock : ℕ) (b a : Scan) : Prop where
  longer : b.push.names <+: a.push.names
  cfg_eq : a.sub.cfg = b.sub.cfg
  consumer_eq : a.sub.consumer = b.sub.consumer
  drained : ∀ x ∈ a.push.names, b.sub.isMatch x = true → a.sub.Drained a.store x
  letters : ∀ y, Lettered b a y → ∃ z ∈ b.push.names, b.sub.isMatch z = true ∧
    b.buries clock z = true ∧ deadSubjectOf z = some y
  record : ∀ x g, slash ∉ x → ¬ (b.sub.isMatch x = true ∧ g = b.sub.cfg.group) →
    a.store.queues[pairKey x g]? = b.store.queues[pairKey x g]?

theorem search_idled (hV : V.KeepsNames) {a' : Scan} (hb : b.Sound) (hnodup : b.push.names.Nodup)
    (hr : b.push.names ≠ [] → b.sub.rr < b.push.names.length) (ht : b.OnTime clock)
    (hahead : b.LettersAhead clock)
    (hs : ∀ p ∈ ({ b with sub.wakeMs := 0 } : Scan).offered V clock
      (2 * b.push.names.length + 1) 0, p.1.Answers V clock p.2)
    (hsearch : b.search V clock = (a', none)) (hwake : a'.sub.wakeMs = 0) :
    Idled clock b a' := by
  set b₀ : Scan := { b with sub.wakeMs := 0 } with hb₀
  obtain ⟨n, d, hswept, ⟨hrecord, hmet⟩, hend, -⟩ := search_rule hV hb hnodup hr ht hs hsearch
    (P := fun n a => (∀ x g, slash ∉ x → ¬ (b.sub.isMatch x = true ∧ g = b.sub.cfg.group) →
      a.store.queues[pairKey x g]? = b.store.queues[pairKey x g]?) ∧
        (a.sub.wakeMs = 0 → Met clock b₀ a n))
    (by
      refine ⟨fun _ _ _ _ => rfl, fun _ => ⟨fun j x hj _ => ?_, fun x _ _ => .refl, fun y hy => ?_⟩⟩
      · refine .inl ⟨RoundRobin.pending_zero (hr ?_), .refl⟩
        rintro hnil
        have hnone : ([] : List Bytes)[j]? = some x := hnil ▸ hj
        simp at hnone
      · exact hy.elim (fun hlast => absurd rfl hlast) fun hnew => absurd hnew.1 hnew.2)
    (by
      rintro n a name hswept ⟨hrecord, hmet⟩ hcursor hn hname hm
      exact ⟨hrecord, fun hw => (hmet hw).skip hswept hcursor hname hm⟩)
    (by
      rintro n a name c hswept hswept' htells ⟨hrecord, hmet⟩ hcursor hn hname hm hanswers ho
        hdrained hnoted
      have hmem := List.mem_of_getElem? hname
      refine ⟨fun x g hx hother => ?_, fun hw => ?_⟩
      · rw [← hrecord x g hx hother]
        refine offer_record (hswept.sound.names name hmem) hx ?_ ho
        by_contra hboth
        push Not at hboth
        exact hother ⟨hboth.1 ▸ hm, hboth.2.trans (congrArg PushSub.group hswept.cfg_eq)⟩
      · have hquiet : ¬ (a.sub.wakeMs ≠ 0 ∨ a.Waits clock name) := fun h => hnoted.mpr h hw
        push Not at hquiet
        exact (hmet hquiet.1).pass hV hswept hahead hcursor hn hname hm hanswers ho (hdrained hw))
  obtain ⟨rfl, hend⟩ := hend rfl
  obtain ⟨l, hl, -, -⟩ := hswept.grown.channels
  refine ⟨hl ▸ List.prefix_append _ _, hswept.cfg_eq, hswept.consumer_eq, fun x hx hm => ?_,
    fun y hy => ?_, hrecord⟩
  · obtain ⟨j, hj⟩ := List.getElem?_of_mem hx
    rcases (hmet hwake).known j x hj hm with ⟨hpending, -⟩ | ⟨-, hdrained⟩
    · have hlt := hpending.lt (List.getElem?_eq_some_iff.mp hj).1
      omega
    · exact hdrained
  · exact (hmet hwake).letters y hy

end Scan

end SukkalMsg
