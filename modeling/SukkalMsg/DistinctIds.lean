import Mathlib.Data.List.Pairwise
import SukkalMsg.AcceptedBodies
import SukkalMsg.PublishUrls

/-!
# Publishes with different ids

A broker's duplicates are of messages published under the same subject and id. The
command line client's ids reach the broker as they were given when they conform, so that
two publishes with different ids are never duplicates of one another, whoever else
publishes in between.
-/

namespace SukkalMsg

open Std Names Store ActionRuns

variable {V : Vendor}

/-- The broker's view of a publish that the client sent. -/
structure ClientPublish.Sent (b : UrlBase) (c : ClientPublish) (req : Request) : Prop where
  path : req.path = ascii "/pub/" ++ c.subject
  reads : ∃ u, c.url b = some u ∧ req.ReadsFrom (urlQuery u)

theorem publication_parts {req : Request} {p : Publication} (h : publication V req = .ok p) :
    p.subject = req.path.drop 5 ∧ requestId req = .ok p.id := by
  have hsubject : ∀ s, subjectOf req (ascii "/pub/") = .ok s → s = req.path.drop 5 := by
    intro s hs
    simp only [subjectOf] at hs
    split at hs
    · exact (Except.ok.inj hs).symm
    · contradiction
  simp only [publication] at h
  split at h
  · contradiction
  rename_i s hs
  split at h
  · contradiction
  split at h
  · contradiction
  · contradiction
  split at h
  · contradiction
  split at h
  · contradiction
  split at h
  · contradiction
  rename_i id hid
  obtain rfl := Except.ok.inj h
  exact ⟨hsubject s hs, hid⟩

namespace ClientPublish

variable {b : UrlBase} {c : ClientPublish} {req : Request}

theorem given_noZero (hv : c.Valid) : 0 ∉ c.given := by
  cases c with
  | pub subject id nhdr =>
    intro hm
    have hid := hv.2
    simp only [bjmDedupIdValid, Bool.and_eq_true, List.all_eq_true] at hid
    exact absurd (hid.2 0 hm) (by decide)
  | reply subject correlation =>
    rw [given, List.mem_append, not_or]
    exact ⟨by decide, hv.2⟩

theorem requestKey_of_sent (hv : c.Valid) (hc : c.Conforms b) (hs : c.Sent b req)
    {k : Bytes × Bytes} (hk : requestKey V req = some k) : k = (c.subject, c.given) := by
  obtain ⟨u, hu, hreads⟩ := hs.reads
  obtain rfl := Option.some.inj ((url_of_whole hc.whole).symm.trans hu)
  rw [urlQuery_whole hv hc] at hreads
  have hget := (queryGet_of_readsFrom hreads (ascii "id") (by decide : 0 < BJM_DEDUP_ID_MAX + 1)).1
  rw [(found_of_plain hc.plain hc.fits).id] at hget
  have hid : cString c.given = c.given := takeWhile_of_notMem (given_noZero hv)
  change req.queryGet (ascii "id") (BJM_DEDUP_ID_MAX + 1) = .value (cString c.given) at hget
  rw [hid] at hget
  obtain ⟨s, i⟩ := k
  obtain ⟨p, hp, rfl, hpi, -, -⟩ := requestKey_eq_some hk
  obtain ⟨hsubject, hpid⟩ := publication_parts hp
  rw [hpi, requestId, hget] at hpid
  have hpath : req.path.drop 5 = c.subject := by
    rw [hs.path]
    rfl
  dsimp only at hpid
  split at hpid
  · rw [hsubject, hpath, Option.some.inj (Except.ok.inj hpid)]
  · contradiction

end ClientPublish

/-- Each index was appended once, and none is above the last. -/
structure Numbered (h : List Exchange) (st : Store) : Prop where
  below : ∀ x ∈ h, ∀ s n, x.Appended s n → n ≤ (st.logOf s).last
  once : h.Pairwise fun x y => ∀ s n, x.Appended s n → ¬ y.Appended s n

theorem last_hPublish (V : Vendor) (st : Store) (now : ℕ) (req : Request) (s : Bytes) :
    (st.logOf s).last ≤ ((st.hPublish V now req).2.logOf s).last := by
  rcases hPublish_logs V st now req with hlogs | ⟨p, -, hlogs⟩
  · rw [logOf, logOf, hlogs]
  · rw [logOf_insert hlogs]
    split
    · rename_i heq
      subst heq
      rw [Elog.append_last]
      exact Nat.le_succ _
    · exact Nat.le_refl _

theorem Exchange.Appended.last_eq {x : Exchange} {s : Bytes} {n : ℕ} (h : x.Appended s n) :
    (x.after.logOf s).last = n := by
  obtain ⟨hn, e, he⟩ := h
  rw [he, Elog.append_last, hn]

theorem Numbered.step {h : List Exchange} {st : Store} (hn : Numbered h st) (op : BrokerOp) :
    Numbered (h ++ (brokerExec V st op).1) (brokerExec V st op).2 := by
  cases op with
  | restart =>
    rw [brokerExec, List.append_nil]
    exact ⟨hn.below, hn.once⟩
  | request now req =>
    simp only [brokerExec]
    refine ⟨?_, ?_⟩
    · intro x hx s n ha
      rcases List.mem_append.mp hx with hx | hx
      · exact (hn.below x hx s n ha).trans (last_hPublish V st now req s)
      · obtain rfl := List.mem_singleton.mp hx
        exact Nat.le_of_eq ha.last_eq.symm
    · rw [List.pairwise_append]
      refine ⟨hn.once, List.pairwise_singleton _ _, ?_⟩
      -- a new index is above every earlier one
      intro x hx y hy s n hax hay
      obtain rfl := List.mem_singleton.mp hy
      have hle := hn.below x hx s n hax
      have hnew : n = (st.logOf s).last + 1 := hay.1
      omega

theorem Numbered.unique {h : List Exchange} {st : Store} (hn : Numbered h st) {x y : Exchange}
    (hx : x ∈ h) (hy : y ∈ h) {s : Bytes} {n : ℕ} (hax : x.Appended s n) (hay : y.Appended s n) :
    x = y := by
  by_contra hne
  have : Std.Symm fun x y : Exchange => ∀ s n, x.Appended s n → ¬ y.Appended s n :=
    ⟨fun x y hxy s n hay hax => hxy s n hax hay⟩
  exact hn.once.forall hx hy hne s n hax hay

/-- The id and the flag that a client gave are read back exactly where the publish conforms,
and then no publish is answered as a duplicate of one with another id. -/
theorem client_ids_distinct (V : Vendor) :
    (∀ (b : UrlBase) (c : ClientPublish), c.Valid → (c.ReadBack b ↔ c.Conforms b)) ∧
    ∀ (st : Store) (ops : List BrokerOp), DedupFresh st →
      Along (brokerExec V) (fun h st op => op.InOrder V h st) [] st ops →
      ∀ (before : List Exchange) (y : Exchange) (after : List Exchange),
        (run (brokerExec V) st ops).1 = before ++ y :: after → ∀ x ∈ before,
      ∀ (b b' : UrlBase) (c c' : ClientPublish), c.Valid → c'.Valid → c.Conforms b →
        c'.Conforms b' → c.Sent b x.req → c'.Sent b' y.req → c.subject = c'.subject →
        c.given ≠ c'.given → ∀ (n : ℕ) (acked : Option ℕ),
          y.answer = .published c'.subject n acked (some true) → ¬ x.Appended c'.subject n := by
  refine ⟨fun b c hv => ClientPublish.readBack_iff b hv, ?_⟩
  intro st ops hf hrun before y after hsplit x hx b b' c c' hv hv' hc hc' hs hs' hsubject hne n
    acked hans happ
  have hstart : PublishInv V st.bjmDedupWindow [] st :=
    ⟨rfl, .inl ⟨hf, by simp⟩, each_nil, each_nil⟩
  have hinv := invariant hstart hrun fun h st' op hg hi => hi.step hg
  have hnum := invariant (I := Numbered) ⟨by simp, .nil⟩ hrun fun h st' op _ hn => hn.step op
  rw [List.nil_append, hsplit] at hinv hnum
  obtain ⟨i, hkey, x', hx', hkey', happ'⟩ := hinv.own before y after rfl c'.subject n acked hans
  obtain rfl := hnum.unique (List.mem_append_left _ hx) (List.mem_append_left _ hx') happ happ'
  have hy := ClientPublish.requestKey_of_sent hv' hc' hs' hkey
  have hx := ClientPublish.requestKey_of_sent hv hc hs hkey'
  exact hne ((Prod.mk.inj hx).2.symm.trans (Prod.mk.inj hy).2)

/-! ### Ids that are cut at their `&` -/

def localBroker : UrlBase := ⟨ascii "http://127.0.0.1:8080", by decide, by decide⟩

/-- The request of a publish, of a body that is one byte. -/
def sentRequest (b : UrlBase) (c : ClientPublish) : Request where
  path := ascii "/pub/" ++ c.subject
  contentType := some SUKKAL_MEDIA_TYPE
  body := some [0]
  query := queryParameter (urlQuery ((c.url b).getD []))

theorem sent_sentRequest {b : UrlBase} {c : ClientPublish} (h : (c.url b).isSome = true) :
    c.Sent b (sentRequest b c) := by
  obtain ⟨u, hu⟩ := Option.isSome_iff_exists.mp h
  refine ⟨rfl, u, hu, ?_⟩
  intro key
  rw [sentRequest, hu]
  rfl

def orderUnder (id : Bytes) : ClientPublish := .pub (ascii "orders") id false

def requestUnder (id : Bytes) : Request := sentRequest localBroker (orderUnder id)

theorem inOrder_of_publication {h : List Exchange} {st : Store} {now : ℕ} {req : Request}
    {p : Publication} (hp : publication V req = .ok p) (hpos : 0 < now) (hlt : now < 2 ^ 53)
    (hclock : ∀ x ∈ h, x.now ≤ now) (hroom : (st.logOf p.subject).last + 1 < 2 ^ 53) :
    (BrokerOp.request now req).InOrder V h st := by
  refine ⟨hpos, hlt, hclock, ?_⟩
  intro p' hp'
  obtain rfl := Except.ok.inj (hp.symm.trans hp')
  exact hroom

/-- `a&b` and `a&c` both arrive as `a`. -/
def andRun : List BrokerOp :=
  [.request 1 (requestUnder (ascii "a&b")), .request 2 (requestUnder (ascii "a&c"))]

theorem publication_and (c : UInt8) (hc : c = 0x62 ∨ c = 0x63) :
    publication wholeBodies (requestUnder (ascii "a&" ++ [c])) =
      .ok ⟨ascii "orders", ⟨BJM_ENTRY_PLAIN, [0]⟩, some (ascii "a")⟩ := by
  rcases hc with rfl | rfl <;> rfl

theorem andRun_along :
    Along (brokerExec wholeBodies) (fun h st op => op.InOrder wholeBodies h st) [] Store.empty
      andRun := by
  refine ⟨?_, ?_, trivial⟩
  · exact inOrder_of_publication (publication_and 0x62 (.inl rfl)) (by decide) (by decide)
      (by simp) (by decide +kernel)
  · exact inOrder_of_publication (publication_and 0x63 (.inr rfl)) (by decide) (by decide)
      (by simp [brokerExec]) (by decide +kernel)

/-- The first id is not read back, and the second publish is a duplicate of the first. -/
theorem andRun_collides :
    (orderUnder (ascii "a&b")).Valid ∧ (orderUnder (ascii "a&c")).Valid ∧
      ¬ (orderUnder (ascii "a&b")).ReadBack localBroker ∧
      (orderUnder (ascii "a&b")).Sent localBroker (requestUnder (ascii "a&b")) ∧
      (orderUnder (ascii "a&c")).Sent localBroker (requestUnder (ascii "a&c")) ∧
      DedupFresh Store.empty ∧
      Along (brokerExec wholeBodies) (fun h st op => op.InOrder wholeBodies h st) [] Store.empty
        andRun ∧
      (run (brokerExec wholeBodies) Store.empty andRun).1.map (·.answer) =
        [.published (ascii "orders") 1 none (some false),
          .published (ascii "orders") 1 none (some true)] := by
  refine ⟨⟨by decide, by decide⟩, ⟨by decide, by decide⟩, ?_, ?_, ?_, ⟨rfl, rfl, rfl, rfl, rfl⟩,
    andRun_along, by decide +kernel⟩
  · rintro ⟨u, hu, hfound⟩
    have hquery : urlQuery u = ascii "id=a&b" := by
      rw [← Option.some.inj ((by decide +kernel : (orderUnder (ascii "a&b")).url localBroker =
        some (ascii "http://127.0.0.1:8080/pub/orders?id=a&b")).symm.trans hu)]
      decide +kernel
    have hid := hfound.id
    rw [hquery] at hid
    revert hid
    decide +kernel
  · exact sent_sentRequest (by decide +kernel)
  · exact sent_sentRequest (by decide +kernel)

/-- Two orders under ids of their own, the second sent again. -/
def orderRun : List BrokerOp :=
  [.request 1 (requestUnder (ascii "o-1")), .request 2 (requestUnder (ascii "o-2")),
    .request 3 (requestUnder (ascii "o-2"))]

theorem publication_o (c : UInt8) (hc : c = 0x31 ∨ c = 0x32) :
    publication wholeBodies (requestUnder (ascii "o-" ++ [c])) =
      .ok ⟨ascii "orders", ⟨BJM_ENTRY_PLAIN, [0]⟩, some (ascii "o-" ++ [c])⟩ := by
  rcases hc with rfl | rfl <;> rfl

theorem orderRun_along :
    Along (brokerExec wholeBodies) (fun h st op => op.InOrder wholeBodies h st) [] Store.empty
      orderRun := by
  refine ⟨?_, ?_, ?_, trivial⟩
  · exact inOrder_of_publication (publication_o 0x31 (.inl rfl)) (by decide) (by decide)
      (by simp) (by decide +kernel)
  · exact inOrder_of_publication (publication_o 0x32 (.inr rfl)) (by decide) (by decide)
      (by simp [brokerExec]) (by decide +kernel)
  · exact inOrder_of_publication (publication_o 0x32 (.inr rfl)) (by decide) (by decide)
      (by simp [brokerExec]) (by decide +kernel)

/-- The ids are read back, and the last publish repeats no message of the first. -/
theorem orderRun_distinct :
    (orderUnder (ascii "o-1")).ReadBack localBroker ∧
    ∃ x y z, (run (brokerExec wholeBodies) Store.empty orderRun).1 = [x, y, z] ∧
      z.answer = .published (ascii "orders") 2 none (some true) ∧
      ¬ x.Appended (ascii "orders") 2 := by
  obtain ⟨hread, hrun⟩ := client_ids_distinct wholeBodies
  refine ⟨?_, _, _, _, rfl, by decide +kernel, ?_⟩
  · exact (hread localBroker (orderUnder (ascii "o-1")) ⟨by decide, by decide⟩).mpr
      ⟨by decide, by decide, by decide +kernel⟩
  exact hrun Store.empty orderRun ⟨rfl, rfl, rfl, rfl, rfl⟩
    orderRun_along [_, _] _ [] rfl _ List.mem_cons_self localBroker localBroker
    (orderUnder (ascii "o-1")) (orderUnder (ascii "o-2")) ⟨by decide, by decide⟩
    ⟨by decide, by decide⟩ ⟨by decide, by decide, by decide +kernel⟩
    ⟨by decide, by decide, by decide +kernel⟩ (sent_sentRequest (by decide +kernel))
    (sent_sentRequest (by decide +kernel)) rfl (by decide) 2 none (by decide +kernel)

end SukkalMsg
