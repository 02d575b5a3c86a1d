import SukkalMsg.PushRuns

/-!
# The engine of a starting broker

A starting broker learns the subjects from a listing and the subscriptions from
the registry, in key order, and only then installs the transport. Nothing is
outstanding yet.
-/

namespace SukkalMsg

open Std Names Binjson OrderedScan BoundedTable Store

/-- The registry's keys are names of consumers. -/
def Store.Enlisted (st : Store) : Prop :=
  ∀ (k : Bytes) (r : Record), st.push[k]? = some r → bjmConsumerValid k = true

theorem cString_of_nameValid {s : Bytes} {max : ℕ} (h : nameValid s max = true) : cString s = s := by
  rw [cString, List.takeWhile_eq_self_iff]
  intro c hc
  have hbody := mem_of_nameBody (nameValid_body h) c hc
  rw [bne_iff_ne]
  rintro rfl
  revert hbody
  decide

/-- Loading takes the registrations whose keys are consumers' names as they stand. -/
theorem mem_bjmPushEach {st : Store} (hv : st.Enlisted) {c : Bytes} {cfg : PushSub} :
    (c, cfg) ∈ st.bjmPushEach ↔ ∃ r, st.push[c]? = some r ∧ pushDecode r = .ok cfg := by
  simp only [bjmPushEach, List.mem_filterMap, Prod.exists, ExtTreeMap.mem_toList_iff_getElem?_eq_some]
  constructor
  · rintro ⟨k, r, hr, hk⟩
    split at hk
    · contradiction
    · cases hd : pushDecode r with
      | error e => simp [hd, Except.toOption] at hk
      | ok s =>
        simp only [hd, Except.toOption, Option.map_some, Option.some.injEq, Prod.mk.injEq] at hk
        obtain ⟨rfl, rfl⟩ := hk
        rw [cString_of_nameValid (hv k r hr)]
        exact ⟨r, hr, hd⟩
  · rintro ⟨r, hr, hd⟩
    have hlen : ¬ c.length > BJM_CONSUMER_MAX := by
      have := nameValid_length (hv c r hr)
      omega
    exact ⟨c, r, hr, by simp [hlen, hd, Except.toOption, cString_of_nameValid (hv c r hr)]⟩

theorem bjmPushEach_nodup {st : Store} (hv : st.Enlisted) :
    (st.bjmPushEach.map Prod.fst).Nodup := by
  have hkeys : (st.push.toList.map Prod.fst).Nodup := by
    have h := st.push.distinct_keys_toList
    rw [List.Nodup, List.pairwise_map]
    exact h.imp fun hne he => hne (by rw [he]; exact ReflOrd.compare_self)
  have hsub : (st.bjmPushEach.map Prod.fst).Sublist (st.push.toList.map Prod.fst) := by
    have hmem : ∀ p ∈ st.push.toList, bjmConsumerValid p.1 = true := fun p hp =>
      hv p.1 p.2 (ExtTreeMap.mem_toList_iff_getElem?_eq_some.mp hp)
    rw [bjmPushEach]
    generalize st.push.toList = l at hmem
    induction l with
    | nil => exact List.Sublist.refl _
    | cons p l ih =>
      have ih := ih fun q hq => hmem q (List.mem_cons_of_mem _ hq)
      rw [List.filterMap_cons]
      split
      · exact ih.cons _
      · rename_i q hq
        have hname : q.1 = p.1 := by
          split at hq
          · contradiction
          · obtain ⟨s, -, rfl⟩ := Option.map_eq_some_iff.mp hq
            exact cString_of_nameValid (hmem p List.mem_cons_self)
        rw [List.map_cons, List.map_cons, hname]
        exact ih.cons_cons _
  exact hkeys.sublist hsub

namespace Pusher

/-- Nothing is outstanding. -/
structure Rested (p : Pusher) : Prop where
  ids : (p.subs.map Psub.id).Nodup
  fresh : ∀ s ∈ p.subs, s.id < p.nextId
  names : ∀ name ∈ p.names, slash ∉ name
  idle : ∀ s ∈ p.subs, s.inflight = false
  here : ∀ s ∈ p.subs, s.gone = false

variable {p : Pusher}

theorem Rested.outstanding {V : Vendor} (h : p.Rested) (hc : (p.subs.map Psub.consumer).Nodup) :
    Outstanding V [] p where
  ids := h.ids
  fresh := h.fresh
  names := h.names
  gone s hs hg := by
    rw [h.here s hs] at hg
    contradiction
  one s hs t ht _ _ he := List.inj_on_of_nodup_map hc hs ht he
  carried s hs hf := by
    rw [h.idle s hs] at hf
    contradiction
  described x hx := absurd hx List.not_mem_nil

theorem Rested.loadOne (h : p.Rested) (c : Bytes) (cfg : PushSub) : (p.loadOne c cfg).Rested := by
  have hsplit : ∀ s ∈ (p.loadOne c cfg).subs, s ∈ p.subs ∨ s = p.psubNew c cfg := by
    intro s hs
    simpa [Pusher.loadOne] using hs
  refine ⟨?_, fun s hs => ?_, h.names, fun s hs => ?_, fun s hs => ?_⟩
  · rw [Pusher.loadOne, List.map_append, List.nodup_append]
    refine ⟨h.ids, by simp, fun i hi j hj => ?_⟩
    obtain rfl := List.mem_singleton.mp hj
    rintro rfl
    obtain ⟨s, hs, he⟩ := List.mem_map.mp hi
    have := h.fresh s hs
    have hid : (p.psubNew c cfg).id = p.nextId := rfl
    omega
  · rcases hsplit s hs with hs | rfl
    · exact Nat.lt_succ_of_lt (h.fresh s hs)
    · exact Nat.lt_succ_self _
  · rcases hsplit s hs with hs | rfl
    · exact h.idle s hs
    · rfl
  · rcases hsplit s hs with hs | rfl
    · exact h.here s hs
    · rfl

/-- Loading adds the registrations in order. -/
theorem Rested.loaded (h : p.Rested) (l : List (Bytes × PushSub)) :
    (l.foldl (fun p x => p.loadOne x.1 x.2) p).Rested ∧
      (l.foldl (fun p x => p.loadOne x.1 x.2) p).subs.map (fun s => (s.consumer, s.cfg)) =
        p.subs.map (fun s => (s.consumer, s.cfg)) ++ l := by
  induction l generalizing p with
  | nil => exact ⟨h, by simp⟩
  | cons x l ih =>
    obtain ⟨hrest, hpairs⟩ := ih (h.loadOne x.1 x.2)
    refine ⟨hrest, ?_⟩
    rw [List.foldl_cons, hpairs]
    simp [Pusher.loadOne, psubNew]

theorem namesAdd_rested (h : p.Rested) (name : Bytes) (hn : slash ∉ name) :
    (p.namesAdd name).Rested ∧ (p.namesAdd name).subs = p.subs := by
  have hcut : slash ∉ cut (BJM_SUBJECT_MAX + 1) name := fun hm => hn (List.mem_of_mem_take hm)
  simp only [namesAdd]
  split
  · exact ⟨h, rfl⟩
  · refine ⟨⟨h.ids, h.fresh, fun x hx => ?_, h.idle, h.here⟩, rfl⟩
    rcases List.mem_append.mp hx with hx | hx
    · exact h.names x hx
    · obtain rfl := List.mem_singleton.mp hx
      exact hcut

theorem namesLoad_rested (h : p.Rested) {listing : List Bytes} (hl : ∀ e ∈ listing, slash ∉ e) :
    (p.namesLoad listing).Rested ∧ (p.namesLoad listing).subs = p.subs := by
  induction listing generalizing p with
  | nil => exact ⟨h, rfl⟩
  | cons e listing ih =>
    have hrest := fun x hx => hl x (List.mem_cons_of_mem _ hx)
    simp only [namesLoad, List.foldl_cons] at ih ⊢
    split
    · exact ih h hrest
    split
    · exact ih h hrest
    split
    · exact ih h hrest
    · obtain ⟨hadd, hsubs⟩ := namesAdd_rested h
        (e.take (e.length - SUBJECT_SUFFIX.length))
        fun hm => hl e List.mem_cons_self (List.mem_of_mem_take hm)
      obtain ⟨h', hs'⟩ := ih hadd hrest
      exact ⟨h', hs'.trans hsubs⟩

theorem blank_rested (n : ℕ) : (blank n).Rested := by
  constructor <;> simp [blank]

/-- The engine of a starting broker holds the registrations, and rests. -/
theorem new_rested (st : Store) {listing : List Bytes} (hl : ∀ e ∈ listing, slash ∉ e) (n : ℕ) :
    (new st listing n).setTransport.Rested ∧
      (new st listing n).subs.map (fun s => (s.consumer, s.cfg)) = st.bjmPushEach := by
  obtain ⟨hnames, hsubs⟩ := namesLoad_rested (blank_rested n) hl
  obtain ⟨h, hpairs⟩ := hnames.loaded st.bjmPushEach
  refine ⟨⟨h.ids, h.fresh, h.names, h.idle, h.here⟩, ?_⟩
  rw [new, hpairs, hsubs]
  simp [blank]

end Pusher

/-- The store and the engine of a starting broker. -/
def App.start (st : Store) (listing : List Bytes) (defaultBatch : ℕ) : App :=
  ⟨st, (Pusher.new st listing defaultBatch).setTransport⟩

namespace App

variable {st : Store} {listing : List Bytes} {n : ℕ}

variable (st n) in
theorem start_pairs (hl : ∀ e ∈ listing, slash ∉ e) :
    (start st listing n).push.subs.map (fun s => (s.consumer, s.cfg)) = st.bjmPushEach :=
  (Pusher.new_rested st hl n).2

variable (st n) in
theorem start_rested (hl : ∀ e ∈ listing, slash ∉ e) : (start st listing n).push.Rested :=
  (Pusher.new_rested st hl n).1

theorem start_outstanding {V : Vendor} (hl : ∀ e ∈ listing, slash ∉ e) (hv : st.Enlisted) :
    Outstanding V [] (start st listing n).push := by
  refine (start_rested _ _ hl).outstanding ?_
  have hpairs := congrArg (List.map Prod.fst) (start_pairs st n hl)
  rw [List.map_map] at hpairs
  have hmap : (start st listing n).push.subs.map Psub.consumer = st.bjmPushEach.map Prod.fst := hpairs
  rw [hmap]
  exact bjmPushEach_nodup hv

end App

end SukkalMsg
