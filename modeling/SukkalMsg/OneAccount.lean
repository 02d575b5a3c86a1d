import SukkalMsg.Additions

/-!
# One account of a run

What each log had at the start of a run, and what the steps added to it, in order, is
its account. At every state the logs end as their accounts so far do; and the account
of the whole run tells what they hold, what is under way to subscribers, and what a
read would be answered. Whoever reads, whenever and by whatever route, reads the same
messages at the same indexes.
-/

namespace SukkalMsg

open Std Names Binjson OrderedScan BoundedTable Store ActionRuns Windows

/-- What a delivery carries was published: all from its first index to its last, or each
job at its own. The subject it tells is theirs, jobs' where names stay readable. -/
def Psub.Conveys (V : Vendor) (published : Bytes → List Entry) (t : Psub) : Prop :=
  match t.body with
  | .batch es => 0 < t.first ∧ t.first ≤ t.last ∧ t.last ≤ (published t.subject).length ∧
      es = ((published t.subject).drop (t.first - 1)).take (t.last + 1 - t.first)
  | .lease jobs => ∃ name, (V.KeepsNames → t.subject = name) ∧ ∀ j ∈ jobs, 0 < j.index ∧
      (published name)[j.index - 1]? = some ⟨j.type, j.payload⟩

/-- What is answered to a read of a subject was published on it, from some index on. -/
def Handler.Tells (published : Bytes → List Entry) (req : Request) (h : Handler) (r : Response) :
    Prop :=
  ∀ es, r.payload = .batch es → ∃ s first, h.ReadsOf req s ∧ 0 < first ∧
    es <+: (published s).drop (first - 1)

namespace App

/-- The account tells the broker: its logs, what is under way to subscribers, and what
a read would be answered. -/
structure ToldBy (H : Host) (published : Bytes → List Entry) (b : App) : Prop where
  logs : ∀ s, Window.Shows (published s) (b.store.logOf s).window
  flights : ∀ t ∈ b.push.subs, t.inflight = true → t.Conveys H.vendor published
  answers : ∀ (h : Handler) (now : ℕ) (req : Request), h.Tells published req (h.run H b now req).1

/-- The account is of this state: the logs are its ends. -/
structure Ends (H : Host) (published : Bytes → List Entry) (b : App) : Prop where
  logs : ∀ s, Window.Ends (published s) (b.store.logOf s).window
  flights : ∀ t ∈ b.push.subs, t.inflight = true → t.Conveys H.vendor published
  names : ∀ name ∈ b.push.names, slash ∉ name

end App

def GrowsTo (published published' : Bytes → List Entry) : Prop :=
  ∀ s, published s <+: published' s

/-- What the logs of a store have, with blanks for what was trimmed off them before. -/
def Store.account (st : Store) (s : Bytes) : List Entry :=
  List.replicate (st.logOf s).base ⟨0, []⟩ ++ (st.logOf s).entries

def goesInto (published : Bytes → List Entry) (b b' : App) (s : Bytes) : List Entry :=
  published s ++ b.store.appended b'.store s

def App.account (H : Host) (b : App) (ops : List ServeOp) : Bytes → List Entry :=
  history (App.serve H) goesInto b.store.account b ops

section

variable {H : Host} {V : Vendor} {b : App} {published published' : Bytes → List Entry} {t : Psub}

theorem Psub.Conveys.mono (h : t.Conveys V published) (hp : GrowsTo published published') :
    t.Conveys V published' := by
  cases hbody : t.body with
  | batch es =>
    simp only [Conveys, hbody] at h ⊢
    obtain ⟨hpos, hle, hlast, hes⟩ := h
    obtain ⟨more, hmore⟩ := hp t.subject
    refine ⟨hpos, hle, Nat.le_trans hlast (hp _).length_le, ?_⟩
    rw [← hmore, List.drop_append_of_le_length (by omega), List.take_append_of_le_length
      (by rw [List.length_drop]; omega)]
    exact hes
  | lease jobs =>
    simp only [Conveys, hbody] at h ⊢
    obtain ⟨name, hname, hjobs⟩ := h
    refine ⟨name, hname, fun j hj => ?_⟩
    obtain ⟨hpos, hat⟩ := hjobs j hj
    exact ⟨hpos, getElem?_of_longer (hp name) hat⟩

theorem Store.Gives.conveys {st : Store} (h : st.Gives V t)
    (hs : ∀ s, Window.Shows (published s) (st.logOf s).window) : t.Conveys V published := by
  cases hbody : t.body with
  | batch es =>
    simp only [Gives, hbody] at h
    simp only [Psub.Conveys, hbody]
    obtain ⟨hpos, hle, hlast, hlen, hes⟩ := h
    have hall : t.last ≤ (published t.subject).length := Nat.le_trans hlast (hs _).within
    refine ⟨hpos, hle, hall, List.ext_getElem? fun k => ?_⟩
    by_cases hk : k < es.length
    · have hget := hes k hk
      rw [List.getElem?_eq_getElem hk] at hget
      obtain ⟨-, hat⟩ := Elog.get_of_shows (hs _) hget.symm
      have hsum : t.first - 1 + k = t.first + k - 1 := by omega
      rw [List.getElem?_take, if_pos (by omega), List.getElem?_drop, hsum, hat,
        List.getElem?_eq_getElem hk]
    · rw [List.getElem?_eq_none (by omega), List.getElem?_take, if_neg (by omega)]
  | lease jobs =>
    simp only [Gives, hbody] at h
    simp only [Psub.Conveys, hbody]
    obtain ⟨name, hname, hjobs⟩ := h
    exact ⟨name, hname, fun j hj => Elog.get_of_shows (hs name) (hjobs j hj)⟩

theorem Elog.shows_of_passed {who : Bytes → Prop} {st st' : Store} (h : Passed who st st') (s : Bytes)
    {es : List Entry} (hs : Window.Shows es (st'.logOf s).window) :
    Window.Shows es (st.logOf s).window := by
  refine ⟨Nat.le_trans (h.last_le s) hs.within, ?_⟩
  have hitems := hs.items
  simp only [window, h.base s] at hitems ⊢
  exact (h.grown s).trans hitems

theorem App.ToldBy.mono (h : b.ToldBy H published) (hp : GrowsTo published published') :
    b.ToldBy H published' where
  logs s := (h.logs s).mono (hp s)
  flights t ht hf := (h.flights t ht hf).mono hp
  answers hd now req es hes := by
    obtain ⟨s, first, hread, hpos, hat⟩ := h.answers hd now req es hes
    exact ⟨s, first, hread, hpos, hat.trans ((hp s).drop _)⟩

theorem App.Ends.told (h : b.Ends H published) : b.ToldBy H published where
  logs s := (h.logs s).shows
  flights := h.flights
  answers hd now req es hes := by
    obtain ⟨s, start, count, hread, rfl, hlow⟩ := Handler.batch_read hes
    refine ⟨s, max 1 start, hread, by omega, ?_⟩
    have hpart := (h.logs s).shows.part (start - (b.store.logOf s).base - 1) count
    have hsum : (b.store.logOf s).window.base + (start - (b.store.logOf s).base - 1) =
        max 1 start - 1 := by
      simp only [Elog.window]
      omega
    rw [hsum] at hpart
    exact hpart

theorem App.Ends.goesOn (h : b.Ends H published) {b' : App} (hgo : b.store.GoesOn b'.store)
    (hmeets : b.store.Meets b'.store) (s : Bytes) :
    Window.Ends (goesInto published b b' s) (b'.store.logOf s).window :=
  (hgo s).ends_added (hmeets s) (h.logs s)

theorem growsTo_goesInto (published : Bytes → List Entry) (b b' : App) :
    GrowsTo published (goesInto published b b') := fun _ => List.prefix_append _ _

end

/-- The same delivery, as far as what it carries. -/
structure Psub.SameBody (t t' : Psub) : Prop where
  inflight_eq : t'.inflight = t.inflight
  subject_eq : t'.subject = t.subject
  first_eq : t'.first = t.first
  last_eq : t'.last = t.last
  body_eq : t'.body = t.body

theorem Psub.SameBody.refl (t : Psub) : t.SameBody t := ⟨rfl, rfl, rfl, rfl, rfl⟩

theorem Psub.SameBody.conveys {V : Vendor} {published : Bytes → List Entry} {t t' : Psub}
    (h : t.SameBody t') (ht : t.Conveys V published) : t'.Conveys V published := by
  simp only [Conveys, h.subject_eq, h.first_eq, h.last_eq, h.body_eq] at ht ⊢
  exact ht

theorem Pusher.flights_add {p : Pusher} {c : Bytes} {cfg : PushSub} {t' : Psub}
    (ht : t' ∈ (p.add c cfg).subs) (hf : t'.inflight = true) : ∃ t ∈ p.subs, t.SameBody t' := by
  rcases p.add_cases c cfg with ⟨pre, t, suf, hsubs, -, -, heq⟩ | ⟨-, heq⟩
  · rw [heq] at ht
    rcases List.mem_append.mp ht with hm | hm
    · exact ⟨t', by simp [hsubs, hm], .refl t'⟩
    · rcases List.mem_cons.mp hm with rfl | hm
      · exact ⟨t, by simp [hsubs], ⟨rfl, rfl, rfl, rfl, rfl⟩⟩
      · exact ⟨t', by simp [hsubs, hm], .refl t'⟩
  · rw [heq] at ht
    rcases List.mem_append.mp ht with hm | hm
    · exact ⟨t', hm, .refl t'⟩
    · obtain rfl := List.mem_singleton.mp hm
      contradiction

theorem Pusher.flights_remove {p : Pusher} {c : Bytes} {t' : Psub}
    (ht : t' ∈ (p.remove c).subs) : ∃ t ∈ p.subs, t.SameBody t' := by
  rcases p.remove_cases c with ⟨heq, -⟩ | ⟨pre, t, suf, hsubs, -, -, ⟨-, heq⟩ | ⟨-, suf', hperm, heq⟩⟩
  · exact ⟨t', heq ▸ ht, .refl t'⟩
  · rw [heq] at ht
    rcases List.mem_append.mp ht with hm | hm
    · exact ⟨t', by simp [hsubs, hm], .refl t'⟩
    · rcases List.mem_cons.mp hm with rfl | hm
      · exact ⟨t, by simp [hsubs], ⟨rfl, rfl, rfl, rfl, rfl⟩⟩
      · exact ⟨t', by simp [hsubs, hm], .refl t'⟩
  · rw [heq] at ht
    rcases List.mem_append.mp ht with hm | hm
    · exact ⟨t', by simp [hsubs, hm], .refl t'⟩
    · exact ⟨t', by simp [hsubs, hperm.mem_iff.mp hm], .refl t'⟩

/-- No request starts a delivery or changes what one carries, and the engine learns of
subjects with proper names only. -/
theorem Handler.flights (H : Host) (b : App) (now : ℕ) (req : Request) (h : Handler)
    (hn : ∀ name ∈ b.push.names, slash ∉ name) :
    (∀ t' ∈ (h.run H b now req).2.push.subs, t'.inflight = true → ∃ t ∈ b.push.subs, t.SameBody t') ∧
      ∀ name ∈ (h.run H b now req).2.push.names, slash ∉ name := by
  rcases h.push_cases H b now req with hl | ⟨-, r, p, -, hl, hadd⟩ | ⟨-, c, -, hrem⟩
  · exact ⟨fun t' ht hf => ⟨t', hl.subs_eq ▸ ht, .refl t'⟩, hl.slash_notMem hn⟩
  · rw [hadd]
    constructor
    · intro t' ht hf
      obtain ⟨t, hmem, hsame⟩ := Pusher.flights_add ht hf
      exact ⟨t, hl.subs_eq ▸ hmem, hsame⟩
    · have hp := hl.slash_notMem hn
      rcases p.add_cases r.consumer r.cfg with ⟨_, _, _, -, -, -, heq⟩ | ⟨-, heq⟩ <;>
        · rw [heq]
          exact hp
  · rw [hrem]
    constructor
    · exact fun t' ht hf => Pusher.flights_remove ht
    · rcases b.push.remove_cases c with ⟨heq, -⟩ | ⟨_, _, _, -, -, -, ⟨-, heq⟩ | ⟨-, _, -, heq⟩⟩ <;>
        · rw [heq]
          exact hn

namespace App.Ends

variable {H : Host} {b : App} {published : Bytes → List Entry}

theorem flights_of (h : b.Ends H published) {b' : App}
    (hsubs : ∀ t' ∈ b'.push.subs, t'.inflight = true → ∃ t ∈ b.push.subs, t.SameBody t') :
    ∀ t' ∈ b'.push.subs, t'.inflight = true → t'.Conveys H.vendor (goesInto published b b') := by
  intro t' ht hf
  obtain ⟨t, hmem, hsame⟩ := hsubs t' ht hf
  exact hsame.conveys ((h.flights t hmem (hsame.inflight_eq ▸ hf)).mono (growsTo_goesInto _ _ _))

theorem pump (h : b.Ends H published) (hw : b.store.Words) (send : Psub → Bool) (now clock : ℕ)
    (hlogs : ∀ s, Window.Ends (goesInto published b (b.pump H.vendor send now clock).app s)
      ((b.pump H.vendor send now clock).app.store.logOf s).window) :
    Ends H (goesInto published b (b.pump H.vendor send now clock).app)
      (b.pump H.vendor send now clock).app := by
  have hgrows := growsTo_goesInto published b (b.pump H.vendor send now clock).app
  have hgives := App.gives_pump H.vendor send now clock h.names hw
  rcases b.pump_cases H.vendor send now clock h.names hw with
    ⟨-, heq⟩ | ⟨-, ss', ds, st, p', w, hsent, happ, hturns, hpass, hpush, hds⟩
  · have happ : (b.pump H.vendor send now clock).app = b := by rw [heq]
    refine ⟨hlogs, fun t ht hf => ?_, fun name hn => ?_⟩
    · rw [happ] at ht
      exact (h.flights t ht hf).mono hgrows
    · rw [happ] at hn
      exact h.names name hn
  · refine ⟨hlogs, fun t' ht hf => ?_, fun name hn => ?_⟩
    · have ht' : t' ∈ ss' := by
        rw [happ] at ht
        exact ht
      obtain ⟨t, hmem, l, hturn, hsub⟩ := hturns.turn_of_mem ht'
      cases hturn with
      | skipped hidle => exact (h.flights t' hmem hf).mono hgrows
      | asked _ _ hidle =>
        rw [hidle] at hf
        contradiction
      | @sent d _ _ _ _ _ _ =>
        have hd := hsub (List.mem_singleton_self d)
        refine (hgives d (hsent ▸ hd)).conveys fun s => ?_
        refine Elog.shows_of_passed (hds d hd).2 s ?_
        have hends := (hlogs s).shows
        rw [happ] at hends ⊢
        exact hends
    · rw [happ] at hn
      exact hpush.slash_notMem h.names name hn

theorem delivered (h : b.Ends H published) (clock id : ℕ) (r : Reply) (now : ℕ)
    (hlogs : ∀ s, Window.Ends (goesInto published b (b.delivered clock id r now) s)
      ((b.delivered clock id r now).store.logOf s).window) :
    Ends H (goesInto published b (b.delivered clock id r now)) (b.delivered clock id r now) := by
  refine ⟨hlogs, h.flights_of ?_, ?_⟩ <;> rcases b.delivered_cases clock id r now with
    ⟨heq, -⟩ | ⟨pre, t, suf, hsubs, hid, ⟨-, suf', hperm, heq⟩ | ⟨-, x, hx, heq⟩⟩
  · rw [heq]
    exact fun t' ht hf => ⟨t', ht, .refl t'⟩
  · rw [heq]
    intro t' ht hf
    refine ⟨t', ?_, .refl t'⟩
    rcases List.mem_append.mp ht with hm | hm
    · simp [hsubs, hm]
    · simp [hsubs, hperm.mem_iff.mp hm]
  · rw [heq]
    intro t' ht hf
    rcases List.mem_append.mp ht with hm | hm
    · exact ⟨t', by simp [hsubs, hm], .refl t'⟩
    · rcases List.mem_cons.mp hm with rfl | hm
      · rw [hx, (Psub.replied_settle clock b.store t r now).inflight_eq] at hf
        contradiction
      · exact ⟨t', by simp [hsubs, hm], .refl t'⟩
  all_goals
    rw [heq]
    exact h.names

theorem serve (h : b.Ends H published) {op : ServeOp} (hs : Serving b op) :
    Ends H (goesInto published b (b.serve H op).2) (b.serve H op).2 := by
  have hlogs := h.goesOn (App.serve_goesOn (H := H) h.names hs) (App.serve_meets h.names hs)
  cases op with
  | request now method req =>
    rcases dispatch_cases H b now method req with ⟨hd, -, heq⟩ | ⟨-, heq⟩
    · obtain ⟨hsubs, hnames⟩ := hd.flights H b now req h.names
      simp only [App.serve, heq] at hlogs ⊢
      exact ⟨hlogs, h.flights_of hsubs, hnames⟩
    · simp only [App.serve, heq] at hlogs ⊢
      exact ⟨hlogs, h.flights_of fun t ht hf => ⟨t, ht, .refl t⟩, h.names⟩
  | sweep nowS => exact ⟨hlogs, h.flights_of fun t ht hf => ⟨t, ht, .refl t⟩, h.names⟩
  | pump send now clock => exact h.pump hs.words send now clock hlogs
  | delivered clock id r now => exact h.delivered clock id r now hlogs

end App.Ends

theorem App.start_ends (H : Host) {st : Store} {listing : List Bytes} (n : ℕ)
    (hl : ∀ e ∈ listing, slash ∉ e) : (start st listing n).Ends H st.account := by
  have hrest := start_rested st n hl
  refine ⟨fun s => ⟨?_, ?_⟩, fun t ht hf => ?_, hrest.names⟩
  · simp [Store.account, Elog.window, start]
  · simp [Store.account, Elog.window, start]
  · rw [hrest.idle t ht] at hf
    contradiction

def tellings (H : Host) : Telling (Bytes → List Entry) App where
  grows := GrowsTo
  refl _ := fun _ => List.prefix_rfl
  trans h h' := fun s => (h s).trans (h' s)
  tells published b := b.ToldBy H published
  mono hp h := h.mono hp

/-- In every run the logs are the ends of their accounts, which grow by what the steps add
to them; and the account of the run tells all that is ever stored, read or delivered. -/
theorem one_account (H : Host) {st : Store} {listing : List Bytes} (n : ℕ) {ops : List ServeOp}
    (hl : ∀ e ∈ listing, slash ∉ e)
    (ha : Along (App.serve H) (fun _ b op => Serving b op) [] (App.start st listing n) ops) :
    (∀ before after, ops = before ++ after →
      let b := (run (App.serve H) (App.start st listing n) before).2
      (∀ s, Window.Ends ((App.start st listing n).account H before s) (b.store.logOf s).window) ∧
        b.ToldBy H ((App.start st listing n).account H ops)) ∧
    ∀ before op after, ops = before ++ op :: after →
      let b := (run (App.serve H) (App.start st listing n) before).2
      op.Adds H b (b.store.appended (b.serve H op).2.store) := by
  obtain ⟨-, hrun⟩ := (tellings H).run (fun x b (hx : App.Ends H x b) => hx.told)
    (fun _ b _ x hs hx => ⟨growsTo_goesInto x b _, hx.serve hs⟩) ha (App.start_ends H n hl)
  refine ⟨fun before after hsplit => ?_, fun before op after hsplit => ?_⟩
  · obtain ⟨hends, htold⟩ := hrun before after hsplit
    exact ⟨hends.logs, htold⟩
  · obtain ⟨hends, -⟩ := hrun before (op :: after) hsplit
    rw [hsplit] at ha
    exact App.serve_adds hends.names (along_append.mp ha).2.1

/-- An order is published and repeated, a pass is made, and the broker sweeps. -/
def orderTwice : List ServeOp :=
  [.request 1 POST (order none), .request 2 POST (order none), .pump (fun _ => true) 3 3, .sweep 4]

theorem orderTwice_serving : Along (App.serve (plainHost wholeBodies))
    (fun _ b op => Serving b op) [] (App.start .empty [] 0) orderTwice := by
  refine ⟨serving_of_request (words_of_logs ?_), serving_of_request (words_of_logs ?_),
    ⟨words_of_logs ?_, nofun⟩, ⟨words_of_logs ?_, nofun⟩, trivial⟩
  all_goals decide +kernel

/-- The account has the order once. -/
theorem orderTwice_told :
    (App.start .empty [] 0).account (plainHost wholeBodies) orderTwice (ascii "orders") =
      [⟨BJM_ENTRY_PLAIN, [0]⟩] ∧
    (run (App.serve (plainHost wholeBodies)) (App.start .empty [] 0) orderTwice).2.ToldBy
      (plainHost wholeBodies)
      ((App.start .empty [] 0).account (plainHost wholeBodies) orderTwice) := by
  obtain ⟨htold, -⟩ := one_account (plainHost wholeBodies) 0 (by simp) orderTwice_serving
  exact ⟨by decide +kernel, (htold orderTwice [] (by simp)).2⟩

/-- A message stays what it is until it is trimmed: in a run no log loses its end, and
none gives an index to another message. -/
theorem messages_stay (H : Host) {st : Store} {listing : List Bytes} (n : ℕ)
    {before later : List ServeOp} (hl : ∀ e ∈ listing, slash ∉ e)
    (ha : Along (App.serve H) (fun _ b op => Serving b op) [] (App.start st listing n)
      (before ++ later)) (s : Bytes) :
    let log := (run (App.serve H) (App.start st listing n) before).2.store.logOf s
    let log' := (run (App.serve H) (App.start st listing n) (before ++ later)).2.store.logOf s
    log.base ≤ log'.base ∧ log.last ≤ log'.last ∧
      ∀ i, log'.base < i → i ≤ log.last → log'.get i = log.get i := by
  obtain ⟨hbefore, hlater⟩ := along_append.mp ha
  have hends : ∃ published,
      (run (App.serve H) (App.start st listing n) before).2.Ends H published :=
    invariant (I := fun _ b => ∃ published, App.Ends H published b) ⟨_, App.start_ends H n hl⟩
      hbefore fun _ _ _ hs ⟨_, hx⟩ => ⟨_, hx.serve hs⟩
  obtain ⟨hgo, -⟩ := invariant (I := fun _ b =>
      (run (App.serve H) (App.start st listing n) before).2.store.GoesOn b.store ∧
        ∃ published, App.Ends H published b) ⟨.refl, hends⟩ hlater
    fun _ _ _ hs ⟨hgo, _, hx⟩ =>
      ⟨hgo.trans (App.serve_goesOn hx.names hs), _, hx.serve hs⟩
  rw [← congrArg Prod.snd (run_append _ before later)] at hgo
  exact ⟨(hgo s).base, (hgo s).last_le, fun i hb hi => hgo.get hb hi⟩

theorem orderTwice_stays :
    ((run (App.serve (plainHost wholeBodies)) (App.start .empty [] 0) orderTwice).2.store.logOf
      (ascii "orders")).get 1 =
    ((run (App.serve (plainHost wholeBodies)) (App.start .empty [] 0)
      (orderTwice.take 1)).2.store.logOf (ascii "orders")).get 1 := by
  have hsplit : orderTwice = orderTwice.take 1 ++ orderTwice.drop 1 := rfl
  obtain ⟨-, -, hget⟩ := messages_stay (plainHost wholeBodies) 0 (by simp)
    (hsplit ▸ orderTwice_serving) (ascii "orders")
  exact hget 1 (by decide +kernel) (by decide +kernel)

end SukkalMsg
