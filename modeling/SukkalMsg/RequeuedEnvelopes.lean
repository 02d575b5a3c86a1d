import SukkalMsg.Encoding
import SukkalMsg.Offers
import SukkalMsg.RequestCalls

/-!
# Requeueing what a dead-letter channel holds

A take wraps a buried job in an envelope, and a requeue reads the envelope back by a
visitor that keeps the last key it has seen. Whatever a take has put in the channel
comes back as it was. But anybody may publish to the channel, and of a record that no
take has made the visitor also sees what lies deeper, and cuts what is too long.
-/

namespace SukkalMsg

open Std Names Binjson OrderedScan Store

namespace Binjson

/-- The strings an outermost object holds itself under a key; `depth` counts what is
open, and `own` says whether the value to come has that key. -/
def ownStrings (key : Bytes) : ℕ → Bool → Record → List Bytes
  | _, _, [] => []
  | depth, _, .key k :: r => ownStrings key depth (depth == 1 && k == key) r
  | depth, own, .string s :: r => (if own then [s] else []) ++ ownStrings key depth false r
  | depth, _, .beginObject :: r | depth, _, .beginArray :: r => ownStrings key (depth + 1) false r
  | depth, _, .endObject :: r | depth, _, .endArray :: r => ownStrings key (depth - 1) false r
  | depth, _, _ :: r => ownStrings key depth false r

def Names (r : Record) (s : Bytes) : Prop :=
  r.head? = some .beginObject ∧ s ∈ ownStrings (ascii "subject") 0 false r

instance decidableNames (r : Record) (s : Bytes) : Decidable (Names r s) :=
  inferInstanceAs (Decidable (_ ∧ _))

/-- Each value with the last key before it, wherever the two stand, as a buffer of 16
bytes holds the key. -/
def keyed : Bytes → Record → List (Bytes × Item)
  | _, [] => []
  | _, .key k :: r => keyed (keyBuf 16 k) r
  | key, it :: r => (key, it) :: keyed key r

def Item.string? : Item → Option Bytes
  | .string s => some s
  | _ => none

def Item.binary? : Item → Option Bytes
  | .binary b => some b
  | _ => none

def valuesAfter (kind : Item → Option Bytes) (key : Bytes) (r : List (Bytes × Item)) :
    List Bytes :=
  r.filterMap fun x => if x.1 = key then kind x.2 else none

end Binjson

/-- The name in the last string after a key `subject`, as a buffer for a subject holds it. -/
def lastSubject (r : Record) : Bytes :=
  ((valuesAfter Item.string? (ascii "subject") (keyed [] r)).getLast?.map
    (keyBuf (BJM_SUBJECT_MAX + 1))).getD []

/-- If the record has a payload and a subject's name in it, that is the name the object
itself has. -/
def PlainlyNamed (r : Record) : Prop :=
  valuesAfter Item.binary? (ascii "payload") (keyed [] r) ≠ [] →
    bjmSubjectValid (lastSubject r) = true → Names r (lastSubject r)

theorem foldl_envVisit (r : Record) (g : EnvGrab) :
    (r.foldl envVisit g).subject =
        ((valuesAfter Item.string? (ascii "subject") (keyed g.key r)).getLast?.map
          (keyBuf (BJM_SUBJECT_MAX + 1))).getD g.subject ∧
      (r.foldl envVisit g).payload =
        g.payload.or (valuesAfter Item.binary? (ascii "payload") (keyed g.key r)).head? := by
  induction r generalizing g with
  | nil => simp [keyed, valuesAfter]
  | cons it r ih =>
    obtain ⟨hsubject, hpayload⟩ := ih (envVisit g it)
    rw [List.foldl_cons, hsubject, hpayload]
    cases it with
    | key k => exact ⟨rfl, rfl⟩
    | string s =>
      by_cases hk : g.key = ascii "subject"
      · have hcons : valuesAfter Item.string? (ascii "subject") (keyed g.key (.string s :: r)) =
            s :: valuesAfter Item.string? (ascii "subject") (keyed g.key r) := by
          simp [keyed, valuesAfter, hk, Item.string?]
        have hvisit : envVisit g (.string s) =
            { g with subject := keyBuf (BJM_SUBJECT_MAX + 1) s } := by
          simp [envVisit, hk]
        rw [hcons, hvisit, List.getLast?_cons]
        refine ⟨?_, by simp [keyed, valuesAfter, hk, Item.binary?]⟩
        cases (valuesAfter Item.string? (ascii "subject") (keyed g.key r)).getLast? <;> rfl
      · simp [envVisit, keyed, valuesAfter, hk, Item.binary?]
    | binary b =>
      by_cases hk : g.key = ascii "payload"
      · cases hp : g.payload with
        | none => simp [envVisit, keyed, valuesAfter, hk, hp, Item.string?, Item.binary?]
        | some p => simp [envVisit, keyed, valuesAfter, hk, hp, Item.string?]
      · simp [envVisit, keyed, valuesAfter, hk, Item.string?]
    | int v =>
      by_cases hk : g.key = ascii "type" <;>
        simp [envVisit, keyed, valuesAfter, hk, Item.string?, Item.binary?]
    | beginObject => simp [envVisit, keyed, valuesAfter, Item.string?, Item.binary?]
    | endObject => simp [envVisit, keyed, valuesAfter, Item.string?, Item.binary?]
    | beginArray => simp [envVisit, keyed, valuesAfter, Item.string?, Item.binary?]
    | endArray => simp [envVisit, keyed, valuesAfter, Item.string?, Item.binary?]
    | bool t => simp [envVisit, keyed, valuesAfter, Item.string?, Item.binary?]
    | null => simp [envVisit, keyed, valuesAfter, Item.string?, Item.binary?]

namespace Store

variable {H : Host} {st : Store} {s dead origin : Bytes} {k : ℕ} {e : Entry}

theorem subjectGet_of_get {name : Bytes} {en : Entry} (hf : fileFits name = true)
    (hget : (st.logOf name).get k = some en) : st.subjectGet name false = .ok (st.logOf name) := by
  cases hl : st.logs[name]? with
  | none =>
    have hempty : st.logOf name = ⟨0, []⟩ := by simp [logOf, hl]
    rw [hempty] at hget
    simp [Elog.get] at hget
  | some log =>
    have hlog : st.logOf name = log := by simp [logOf, hl]
    rw [hlog]
    exact subjectGet_of_log st hf hl false

/-- A channel's entry restores a message exactly when it decodes and has a payload and a
subject's name in it. -/
theorem deadEnvelope_iff (hd : deadSubjectOf s = some dead) :
    st.deadEnvelope H s k = .ok (origin, e) ↔
      ∃ en r payload, (st.logOf dead).get k = some en ∧ H.decode en.payload = .ok r ∧ Readable r ∧
        (valuesAfter Item.binary? (ascii "payload") (keyed [] r)).head? = some payload ∧
        bjmSubjectValid (lastSubject r) = true ∧ origin = lastSubject r ∧
        e = ⟨(r.foldl envVisit ⟨[], [], none, BJM_ENTRY_PLAIN⟩).type, payload⟩ := by
  have hf := fileFits_deadSubjectOf hd
  have hgathered : ∀ r : Record,
      (r.foldl envVisit ⟨[], [], none, BJM_ENTRY_PLAIN⟩).subject = lastSubject r ∧
        (r.foldl envVisit ⟨[], [], none, BJM_ENTRY_PLAIN⟩).payload =
          (valuesAfter Item.binary? (ascii "payload") (keyed [] r)).head? := fun r => by
    obtain ⟨hsubject, hpayload⟩ := foldl_envVisit r ⟨[], [], none, BJM_ENTRY_PLAIN⟩
    exact ⟨hsubject, by rw [hpayload, Option.none_or]⟩
  constructor
  · intro h
    simp only [deadEnvelope, hd] at h
    split at h
    · contradiction
    rename_i log hlog
    obtain ⟨-, -, rfl⟩ := subjectGet_logOf hlog
    split at h
    · contradiction
    rename_i en hget
    split at h
    · contradiction
    rename_i r hdec
    by_cases hr : Readable r
    · rw [bjDecode_of_readable _ hr] at h
      dsimp only at h
      rw [(hgathered r).1, (hgathered r).2] at h
      split at h
      · contradiction
      rename_i payload hp
      split at h
      · rename_i hv
        obtain ⟨rfl, rfl⟩ := Prod.mk.inj (Except.ok.inj h)
        exact ⟨en, r, payload, hget, hdec, hr, hp, hv, rfl, rfl⟩
      · contradiction
    · rw [bjDecode_of_unreadable _ hr] at h
      contradiction
  · rintro ⟨en, r, payload, hget, hdec, hr, hp, hv, rfl, rfl⟩
    simp only [deadEnvelope, hd, subjectGet_of_get hf hget, hget, hdec, bjDecode_of_readable _ hr,
      (hgathered r).1, (hgathered r).2, hp, hv, if_true]

end Store

theorem App.requeue_ok {H : Host} {b : App} {s origin : Bytes} {k : ℕ} {e : Entry} (now : ℕ)
    (h : b.store.deadEnvelope H s k = .ok (origin, e)) :
    ∃ b', b.requeue H now s k = .ok ((b.store.logOf origin).last + 1, b') ∧
      b'.store.logOf origin = (b.store.logOf origin).append e ∧
      ∀ x, x ≠ origin → b'.store.logOf x = b.store.logOf x := by
  obtain ⟨at_, st, hpub⟩ := bjmPublish_ok b.store now e (fileFits_of_valid (deadEnvelope_valid h))
  obtain ⟨rfl, hlogs, -⟩ := bjmPublish_eq hpub
  refine ⟨⟨st, b.push.notify origin⟩, by simp only [requeue, h, hpub], ?_, fun x hx => ?_⟩
  · rw [logOf_insert hlogs, if_pos rfl]
  · rw [logOf_insert hlogs, if_neg (Ne.symm hx)]
    rfl

def Host.ReadsBack (H : Host) (r : Record) : Prop := H.decode (H.vendor.encode r) = .ok r

theorem envelope_gathered {s : Bytes} (hs : bjmSubjectValid s = true) (g : Bytes) (now : ℕ)
    (d : ℕ × ℕ) (e : Entry) :
    lastSubject (envelopeRecord s g now d e) = s ∧
      (valuesAfter Item.binary? (ascii "payload") (keyed [] (envelopeRecord s g now d e))).head? =
        some e.payload ∧
      ((envelopeRecord s g now d e).foldl envVisit ⟨[], [], none, BJM_ENTRY_PLAIN⟩).type =
        e.type := by
  have hkept : keyBuf (BJM_SUBJECT_MAX + 1) s = s := by
    rw [keyBuf, Nat.add_sub_cancel, List.take_of_length_le (nameValid_length hs)]
    exact cString_of_nameValid hs
  have hstrings : valuesAfter Item.string? (ascii "subject")
      (keyed [] (envelopeRecord s g now d e)) = [s] := rfl
  have hbinaries : valuesAfter Item.binary? (ascii "payload")
      (keyed [] (envelopeRecord s g now d e)) = [e.payload] := rfl
  refine ⟨?_, ?_, rfl⟩
  · rw [lastSubject, hstrings]
    exact hkept
  · rw [hbinaries]
    rfl

/-- An index a take has appended to a channel is that of a buried job, whose message is
in its envelope there. -/
theorem Store.take_envelope {V : Vendor} {st : Store} {now : ℕ} {s g dead : Bytes} {max : ℤ}
    {lease k : ℕ} {t : Taken} (hd : deadSubjectOf s = some dead)
    (h : st.bjmTake V now s g max lease = .ok t) (hk : (st.logOf dead).last < k)
    (hk' : k ≤ (t.store.logOf dead).last) :
    ∃ d ∈ t.dead, ∃ e, (st.logOf s).get d.1 = some e ∧
      (t.store.logOf dead).get k = some (envelopeEntry V s g now d e) := by
  obtain ⟨log, q, existed, plan, hget, -, -, -, hdead, hst⟩ := bjmTake_eq h
  obtain ⟨-, -, rfl⟩ := subjectGet_logOf hget
  set st₁ : Store := { st with queues := st.queues.insert (pairKey s g) (queueRecord plan.q) }
  have hget₁ : st₁.subjectGet s false = .ok (st.logOf s) := hget
  rcases deadLetters_eq V now g hget₁ plan.deadNow.rows with ⟨hnone, -⟩ | ⟨dead', hd', -, hlog⟩
  · rw [hd] at hnone
    contradiction
  obtain rfl := Option.some.inj (hd.symm.trans hd')
  rw [← hst] at hlog
  have hbase : (st₁.logOf dead) = st.logOf dead := rfl
  rw [hbase] at hlog
  rw [hlog] at hk' ⊢
  simp only [Elog.last, List.length_append] at hk hk'
  have hget : Elog.get ⟨(st.logOf dead).base, (st.logOf dead).entries ++
      deadEntries V s g now (st.logOf s) plan.deadNow.rows⟩ k =
        (deadEntries V s g now (st.logOf s) plan.deadNow.rows)[
          k - (st.logOf dead).base - 1 - (st.logOf dead).entries.length]? := by
    have hle : ¬ k ≤ (st.logOf dead).base := by omega
    simp only [Elog.get, hle, if_false]
    rw [List.getElem?_append_right (by omega)]
  have hlt : k - (st.logOf dead).base - 1 - (st.logOf dead).entries.length <
      (deadEntries V s g now (st.logOf s) plan.deadNow.rows).length := by omega
  have hmem := List.getElem_mem hlt
  obtain ⟨d, hdmem, hentry⟩ := List.mem_filterMap.mp hmem
  obtain ⟨e, he, hentry⟩ := Option.map_eq_some_iff.mp hentry
  refine ⟨d, hdead ▸ hdmem, e, he, ?_⟩
  rw [hget, List.getElem?_eq_getElem hlt, ← hentry]

/-- Requeueing `k` from the channel of `s` undoes a dead-lettering: if a take has put the
envelope there, its message comes back to `s`; and whatever is there, an append goes to
the subject that the record itself has, and to no other. -/
structure RequeueUndoes (H : Host) (b : App) (now : ℕ) (s dead : Bytes) (k : ℕ) : Prop where
  restores : ∀ (st : Store) (g : Bytes) (takenAt : ℕ) (max : ℤ) (lease : ℕ) (t : Taken),
    bjmSubjectValid s = true → bjmGroupValid g = true →
    st.bjmTake H.vendor takenAt s g max lease = .ok t →
    (st.logOf dead).last < k → k ≤ (t.store.logOf dead).last →
    (b.store.logOf dead).get k = (t.store.logOf dead).get k →
    ∃ d ∈ t.dead, ∃ e, (st.logOf s).get d.1 = some e ∧
      (H.ReadsBack (envelopeRecord s g takenAt d e) → d.1 < 2 ^ 53 → d.2 < 2 ^ 53 →
        takenAt < 2 ^ 53 → 0 ≤ e.type → e.type < 256 →
        ∃ b', b.requeue H now s k = .ok ((b.store.logOf s).last + 1, b') ∧
          b'.store.logOf s = (b.store.logOf s).append e ∧
          ∀ x, x ≠ s → b'.store.logOf x = b.store.logOf x)
  named : ∀ at_ b', b.requeue H now s k = .ok (at_, b') → ∃ en r origin e,
    (b.store.logOf dead).get k = some en ∧ H.decode en.payload = .ok r ∧ Names r origin ∧
      bjmSubjectValid origin = true ∧
      b'.store.logOf origin = (b.store.logOf origin).append e ∧
      ∀ x, x ≠ origin → b'.store.logOf x = b.store.logOf x

/-- Requeue undoes dead-lettering exactly for the entries whose record, if it has a payload
and a subject's name in it, has that name itself. -/
theorem requeue_undoes_iff (H : Host) (b : App) (now : ℕ) {s dead : Bytes} (k : ℕ)
    (hd : deadSubjectOf s = some dead) :
    RequeueUndoes H b now s dead k ↔
      ∀ en r, (b.store.logOf dead).get k = some en → H.decode en.payload = .ok r → Readable r →
        PlainlyNamed r := by
  constructor
  · intro h en r hget hdec hr hp hv
    obtain ⟨payload, hp⟩ := Option.isSome_iff_exists.mp (List.isSome_head?.mpr hp)
    have henv := (deadEnvelope_iff (H := H) hd).mpr
      ⟨en, r, payload, hget, hdec, hr, hp, hv, rfl, rfl⟩
    obtain ⟨b', hreq, hlog, -⟩ := App.requeue_ok now henv
    obtain ⟨en', r', origin, e', hget', hdec', hnames, -, -, hothers⟩ := h.named _ _ hreq
    obtain rfl := Option.some.inj (hget.symm.trans hget')
    obtain rfl := Except.ok.inj (hdec.symm.trans hdec')
    by_cases he : lastSubject r = origin
    · exact he ▸ hnames
    · -- what has been appended to shows
      have hlast := congrArg Elog.last (hlog.symm.trans (hothers _ he))
      rw [Elog.append_last] at hlast
      omega
  · intro h
    refine ⟨fun st g takenAt max lease t hs hg htake hk hk' hsame => ?_, fun at_ b' hreq => ?_⟩
    · obtain ⟨d, hdm, e, he, henv⟩ := take_envelope hd htake hk hk'
      refine ⟨d, hdm, e, he, fun hback hi ha hn h0 hb => ?_⟩
      obtain ⟨hsubject, hpayload, htype⟩ := envelope_gathered hs g takenAt d e
      have hreadable : Readable (envelopeRecord s g takenAt d e) := by
        have htype : Item.Safe (.int e.type) := by
          simp only [Item.Safe, MAX_SAFE_INT]
          omega
        simp only [Readable, envelopeRecord, List.mem_cons, List.not_mem_nil, or_false,
          forall_eq_or_imp, forall_eq]
        exact ⟨trivial, trivial, trivial, trivial, trivial, trivial, putInt_safe hi, trivial,
          putInt_safe ha, trivial, putInt_safe hn, trivial, htype, trivial, trivial, trivial⟩
      refine App.requeue_ok now ((deadEnvelope_iff (H := H) hd).mpr
        ⟨_, _, e.payload, hsame.trans henv, hback, hreadable, hpayload, ?_, hsubject.symm, ?_⟩)
      · rwa [hsubject]
      · rw [htype]
    · obtain ⟨origin, e, henv, hpub, -⟩ := App.requeue_eq hreq
      obtain ⟨en, r, payload, hget, hdec, hr, hp, hv, rfl, -⟩ := (deadEnvelope_iff hd).mp henv
      obtain ⟨-, hlogs, -⟩ := bjmPublish_eq hpub
      have hpne : valuesAfter Item.binary? (ascii "payload") (keyed [] r) ≠ [] := by
        intro hnil
        rw [hnil] at hp
        contradiction
      refine ⟨en, r, lastSubject r, e, hget, hdec, h en r hget hdec hr hpne hv, hv, ?_,
        fun x hx => ?_⟩
      · rw [logOf_insert hlogs, if_pos rfl]
      · rw [logOf_insert hlogs, if_neg (Ne.symm hx)]
        rfl

def overlongRecord : Record :=
  [.beginObject, .key (ascii "subject"), .string (List.replicate 129 97),
    .key (ascii "payload"), .binary [7], .endObject]

def nestedRecord : Record :=
  [.beginObject, .key (ascii "subject"), .string (ascii "orders"),
    .key (ascii "payload"), .binary [7],
    .key (ascii "about"), .beginObject, .key (ascii "subject"), .string (ascii "parts"), .endObject,
    .endObject]

def Host.reading (r : Record) : Host where
  vendor := { Vendor.silent with encode := encode }
  decode := fun bs => if bs = encode r then .ok r else .error .verify
  listing := none
  backend := []
  connections := 0
  startedS := 0

def publishedDead (r : Record) : App :=
  (App.start .empty [] 0).publish 1 (ascii "orders.dead") ⟨BJM_ENTRY_PLAIN, encode r⟩

def requeuedLast (r : Record) (x : Bytes) : Option ℕ :=
  ((publishedDead r).requeue (.reading r) 2 (ascii "orders") 1).toOption.map
    fun p => (p.2.store.logOf x).last

theorem misled_of_names {r : Record} {x : Bytes} (hnames : ∀ y, Names r y → y = x)
    (hbefore : ((publishedDead r).store.logOf x).last = 0) (hafter : requeuedLast r x = some 0) :
    ¬ RequeueUndoes (.reading r) (publishedDead r) 2 (ascii "orders") (ascii "orders.dead") 1 := by
  intro h
  simp only [requeuedLast] at hafter
  cases hreq : (publishedDead r).requeue (.reading r) 2 (ascii "orders") 1 with
  | error err =>
    rw [hreq] at hafter
    contradiction
  | ok p =>
    rw [hreq] at hafter
    obtain ⟨en, r', origin, e, -, hdec, hown, -, hlog, -⟩ := h.named p.1 p.2 hreq
    have hr : r' = r := by
      simp only [Host.reading] at hdec
      split at hdec
      · exact (Except.ok.inj hdec).symm
      · contradiction
    rw [hr] at hown
    obtain rfl := hnames origin hown
    have hlast := congrArg Elog.last hlog
    rw [Elog.append_last, hbefore] at hlast
    have hzero : (p.2.store.logOf origin).last = 0 := Option.some.inj hafter
    omega

theorem names_eq_of_own {r : Record} {x : Bytes}
    (h : ownStrings (ascii "subject") 0 false r = [x]) : ∀ y, Names r y → y = x := by
  rintro y ⟨-, hy⟩
  rw [h] at hy
  exact List.mem_singleton.mp hy

/-- The payload is published to a subject of 128 bytes, which the record does not name;
or to the one that stands deeper. -/
theorem foreign_records_misled :
    requeuedLast overlongRecord (List.replicate 128 97) = some 1 ∧
    ¬ RequeueUndoes (.reading overlongRecord) (publishedDead overlongRecord) 2 (ascii "orders")
      (ascii "orders.dead") 1 ∧
    requeuedLast nestedRecord (ascii "parts") = some 1 ∧
    ¬ RequeueUndoes (.reading nestedRecord) (publishedDead nestedRecord) 2 (ascii "orders")
      (ascii "orders.dead") 1 := by
  refine ⟨?_, misled_of_names (names_eq_of_own (x := List.replicate 129 97) ?_) ?_ ?_,
    ?_, misled_of_names (names_eq_of_own (x := ascii "orders") ?_) ?_ ?_⟩ <;> decide +kernel

def plainRecord : Record :=
  [.beginObject, .key (ascii "subject"), .string (ascii "orders"),
    .key (ascii "payload"), .binary [7], .endObject]

theorem plainRecord_requeued :
    requeuedLast plainRecord (ascii "orders") = some 1 ∧
    (RequeueUndoes (.reading plainRecord) (publishedDead plainRecord) 2 (ascii "orders")
        (ascii "orders.dead") 1 ↔
      ∀ en r, ((publishedDead plainRecord).store.logOf (ascii "orders.dead")).get 1 = some en →
        (Host.reading plainRecord).decode en.payload = .ok r → Readable r → PlainlyNamed r) :=
  ⟨by decide +kernel, requeue_undoes_iff _ _ 2 1 (by decide)⟩

end SukkalMsg
