import SukkalMsg.HeaderPosts
import SukkalMsg.TextEnvelopes

/-!
# Requests that are answered

The text that was asked and the text that is answered pass through both envelopes, the
broker's checks and every fixed buffer unchanged, and the correlation brings the answer to
the requester that asked and to no other.
-/

namespace SukkalMsg

open Names Binjson Store Renderer

/-! ### Made-up correlations -/

theorem plainText_append {v w : Bytes} (hv : ∀ c ∈ v, c ≠ 0x26 ∧ c ≠ 0x23 ∧ c ≠ 0x2B ∧ c ≠ 0x25) :
    plainText (v ++ w) = plainText w := by
  induction v with
  | nil => rfl
  | cons c v ih =>
    obtain ⟨h₁, h₂, h₃, h₄⟩ := hv c List.mem_cons_self
    rw [List.cons_append, plainText, ih fun c hc => hv c (List.mem_cons_of_mem _ hc)]
    simp [h₁, h₂, h₃, h₄]

/-- `%x` and `%llx`. -/
def hexText (n : ℕ) : Bytes := (Nat.toDigits 16 n).map Char.toUInt8

/-- What is printed of the clock and the process into a buffer. -/
def makeAutoId (cap sec nsec pid : ℕ) : Bytes :=
  cut cap (ascii "auto-" ++ hexText sec ++ ascii "-" ++ hexText nsec ++ ascii "-" ++ hexText pid)

/-- The digits `printf` knows. -/
def isHex (c : UInt8) : Bool := (0x30 ≤ c && c ≤ 0x39) || (0x61 ≤ c && c ≤ 0x66)

theorem isHex_of_mem_hexText {n : ℕ} {c : UInt8} (h : c ∈ hexText n) : isHex c = true := by
  have hdigit : ∀ d < 16, isHex (Nat.digitChar d).toUInt8 = true := by decide
  induction n using Nat.strongRecOn with
  | ind n ih =>
    rw [hexText] at h
    rcases Nat.lt_or_ge n 16 with hlt | hge
    · rw [Nat.toDigits_of_lt_base hlt, List.map_singleton, List.mem_singleton] at h
      rw [h]
      exact hdigit n hlt
    · rw [Nat.toDigits_of_base_le (by decide) hge, List.map_append, List.mem_append] at h
      rcases h with h | h
      · exact ih (n / 16) (Nat.div_lt_self (by omega) (by decide)) h
      · rw [List.map_singleton, List.mem_singleton] at h
        rw [h]
        exact hdigit (n % 16) (Nat.mod_lt _ (by decide))

theorem length_hexText {n k : ℕ} (hk : 0 < k) (h : n < 16 ^ k) : (hexText n).length ≤ k := by
  rw [hexText, List.length_map]
  exact (Nat.length_toDigits_le_iff (by decide) hk).mpr h

/-- A number is told by its digits. -/
theorem hexText_injective {n m : ℕ} (h : hexText n = hexText m) : n = m := by
  have hdigit : ∀ d < 16, ∀ e < 16,
      (Nat.digitChar d).toUInt8 = (Nat.digitChar e).toUInt8 → d = e := by
    decide
  induction n using Nat.strongRecOn generalizing m with
  | ind n ih =>
    have hlast : ∀ k, 16 ≤ k → hexText k = hexText (k / 16) ++ [(Nat.digitChar (k % 16)).toUInt8] :=
      fun k hk => by
        rw [hexText, Nat.toDigits_of_base_le (by decide) hk, List.map_append]
        rfl
    have hone : ∀ k, k < 16 → hexText k = [(Nat.digitChar k).toUInt8] := fun k hk => by
      rw [hexText, Nat.toDigits_of_lt_base hk]
      rfl
    have hne : ∀ k, hexText k ≠ [] := fun k hk =>
      Nat.toDigits_ne_nil (List.map_eq_nil_iff.mp hk)
    rcases Nat.lt_or_ge n 16 with hn | hn <;> rcases Nat.lt_or_ge m 16 with hm | hm
    · rw [hone n hn, hone m hm, List.cons.injEq] at h
      exact hdigit n hn m hm h.1
    · rw [hone n hn, hlast m hm] at h
      have hlen := congrArg List.length h
      have hpos := List.length_pos_iff.mpr (hne (m / 16))
      simp only [List.length_append, List.length_singleton] at hlen
      omega
    · rw [hlast n hn, hone m hm] at h
      have hlen := congrArg List.length h
      have hpos := List.length_pos_iff.mpr (hne (n / 16))
      simp only [List.length_append, List.length_singleton] at hlen
      omega
    · rw [hlast n hn, hlast m hm] at h
      obtain ⟨hinit, hend⟩ := List.append_inj' h rfl
      have hdiv := ih (n / 16) (Nat.div_lt_self (by omega) (by decide)) hinit
      have hmod := hdigit _ (Nat.mod_lt n (by decide)) _ (Nat.mod_lt m (by decide))
        (List.cons.inj hend).1
      omega

/-- A made-up id has room in its buffer, and passes every check. -/
theorem makeAutoId_valid {sec nsec pid : ℕ} (hs : sec < 2 ^ 64) (hn : nsec < 2 ^ 64)
    (hp : pid < 2 ^ 32) :
    makeAutoId 64 sec nsec pid =
        ascii "auto-" ++ hexText sec ++ ascii "-" ++ hexText nsec ++ ascii "-" ++ hexText pid ∧
      bjmDedupIdValid (makeAutoId 64 sec nsec pid) = true ∧
      plainText (makeAutoId 64 sec nsec pid) = true ∧ (makeAutoId 64 sec nsec pid).length < 64 := by
  have hlen₁ := length_hexText (k := 16) (by decide) (Nat.lt_of_lt_of_eq hs (by decide))
  have hlen₂ := length_hexText (k := 16) (by decide) (Nat.lt_of_lt_of_eq hn (by decide))
  have hlen₃ := length_hexText (k := 8) (by decide) (Nat.lt_of_lt_of_eq hp (by decide))
  have hauto : (ascii "auto-").length = 5 := rfl
  have hdash : (ascii "-").length = 1 := rfl
  have hlen : (ascii "auto-" ++ hexText sec ++ ascii "-" ++ hexText nsec ++ ascii "-" ++
      hexText pid).length ≤ 47 := by
    simp only [List.length_append, hauto, hdash]
    omega
  have hwhole : makeAutoId 64 sec nsec pid =
      ascii "auto-" ++ hexText sec ++ ascii "-" ++ hexText nsec ++ ascii "-" ++ hexText pid := by
    rw [makeAutoId, cut, List.take_of_length_le (by omega)]
  have hchars : ∀ c ∈ makeAutoId 64 sec nsec pid, isHex c = true ∨ c ∈ ascii "auto-" := by
    intro c hc
    have hsub : ∀ {c}, c ∈ ascii "-" → c ∈ ascii "auto-" := fun hc => by
      obtain rfl := List.mem_singleton.mp hc
      decide
    rw [hwhole] at hc
    simp only [List.mem_append] at hc
    rcases hc with ((((hc | hc) | hc) | hc) | hc) | hc
    · exact .inr hc
    · exact .inl (isHex_of_mem_hexText hc)
    · exact .inr (hsub hc)
    · exact .inl (isHex_of_mem_hexText hc)
    · exact .inr (hsub hc)
    · exact .inl (isHex_of_mem_hexText hc)
  have hbyte : ∀ c : UInt8, isHex c = true ∨ c ∈ ascii "auto-" →
      (c ≠ 0x26 ∧ c ≠ 0x23 ∧ c ≠ 0x2B ∧ c ≠ 0x25) ∧
        (!(c == slash || c < 0x20 || c == 0x7F)) = true := forall_byte (by decide +kernel)
  refine ⟨hwhole, ?_, ?_, by rw [hwhole]; omega⟩
  · have hmax : BJM_DEDUP_ID_MAX = 128 := rfl
    simp only [bjmDedupIdValid, Bool.and_eq_true, decide_eq_true_eq, List.all_eq_true]
    refine ⟨⟨by rw [hwhole]; rfl, by rw [hwhole]; omega⟩, fun c hc => (hbyte c (hchars c hc)).2⟩
  · have hplain := plainText_append (w := []) fun c hc => (hbyte c (hchars c hc)).1
    rw [List.append_nil] at hplain
    exact hplain

theorem makeAutoId_injective {sec nsec pid sec' nsec' pid' : ℕ} (hs : sec < 2 ^ 64)
    (hn : nsec < 2 ^ 64) (hp : pid < 2 ^ 32) (hs' : sec' < 2 ^ 64) (hn' : nsec' < 2 ^ 64)
    (hp' : pid' < 2 ^ 32) (h : makeAutoId 64 sec nsec pid = makeAutoId 64 sec' nsec' pid') :
    sec = sec' ∧ nsec = nsec' ∧ pid = pid' := by
  rw [(makeAutoId_valid hs hn hp).1, (makeAutoId_valid hs' hn' hp').1] at h
  have hdash : ascii "-" = [0x2D] := rfl
  have hstop : ∀ n, (0x2D : UInt8) ∉ hexText n := fun n hm => by
    have := isHex_of_mem_hexText hm
    revert this
    decide
  have hsplit : ∀ {n m : ℕ} {v w : Bytes}, hexText n ++ 0x2D :: v = hexText m ++ 0x2D :: w →
      n = m ∧ v = w := by
    intro n m v w hvw
    have hhead := congrArg (List.takeWhile (· != 0x2D)) hvw
    rw [List.takeWhile_append_of_pos, List.takeWhile_append_of_pos,
      List.takeWhile_cons_of_neg (by decide), List.takeWhile_cons_of_neg (by decide),
      List.append_nil, List.append_nil] at hhead
    · rw [hhead] at hvw
      exact ⟨hexText_injective hhead, (List.cons.inj (List.append_cancel_left hvw)).2⟩
    all_goals
      intro c hc
      rw [bne_iff_ne]
      rintro rfl
      exact hstop _ hc
  simp only [List.append_assoc, hdash, List.singleton_append] at h
  have h := List.append_cancel_left h
  obtain ⟨hsec, h⟩ := hsplit h
  obtain ⟨hnsec, h⟩ := hsplit h
  exact ⟨hsec, hnsec, hexText_injective h⟩

/-! ### From the request to the reply -/

section

variable {V : Vendor} {G : UInt64 → Bytes} {decode : Decoder} {consumed : Bytes → ℕ}
  {hs : List (Bytes × ShortText)} {s : ShortText}

/-- A request whose names are names, and whose correlation passes through every buffer. -/
structure CliRequest.Valid (q : CliRequest) : Prop where
  named : bjmSubjectValid q.subject = true
  reply : bjmSubjectValid q.replyTo = true
  keyed : bjmDedupIdValid q.correlation = true
  plain : plainText q.correlation = true
  short : q.correlation.length < 64
  text : q.text.length + 2 ^ 9 < 2 ^ 32
  whole : q.base.text.length + q.subject.length + q.correlation.length + 23 < urlSize

namespace CliRequest.Valid

variable {q : CliRequest}

theorem correlation_lt (hq : q.Valid) : q.correlation.length < 2 ^ 32 :=
  Nat.lt_trans hq.short (by decide)

theorem replyTo_le (hq : q.Valid) : q.replyTo.length ≤ BJM_SUBJECT_MAX := nameValid_length hq.reply

theorem replyTo_lt (hq : q.Valid) : q.replyTo.length < 2 ^ 32 :=
  Nat.lt_of_le_of_lt hq.replyTo_le (by decide)

/-- The headers of the request, and of its reply. -/
def asks (hq : q.Valid) : List (Bytes × ShortText) :=
  [(ascii "reply_to", ⟨q.replyTo, hq.replyTo_lt⟩),
    (ascii "correlation", ⟨q.correlation, hq.correlation_lt⟩)]

def answers (hq : q.Valid) : List (Bytes × ShortText) :=
  [(ascii "correlation", ⟨q.correlation, hq.correlation_lt⟩)]

theorem text_lt (hq : q.Valid) : q.text.length < 2 ^ 32 :=
  Nat.lt_of_le_of_lt (Nat.le_add_right _ _) hq.text

theorem body_eq (hq : q.Valid) : q.body = (Wire.envelope hq.asks ⟨q.text, hq.text_lt⟩).bytes :=
  enveloped_eq hq.asks ⟨q.text, hq.text_lt⟩

theorem noZero_correlation (hq : q.Valid) : 0 ∉ q.correlation :=
  ClientPublish.given_noZero (c := .pub q.subject q.correlation false) ⟨hq.named, hq.keyed⟩

theorem noZero_replyTo (hq : q.Valid) : 0 ∉ q.replyTo := by
  intro hm
  have := mem_of_nameBody (nameValid_body hq.reply) 0 hm
  revert this
  decide

theorem correlation_read (hq : q.Valid) {hs : List (Bytes × ShortText)} {s : ShortText}
    (hr : Reads V decode hs s)
    (hfind : (hs.find? fun h => keyBuf 64 h.1 = ascii "correlation").map (·.2.1) =
      some q.correlation) {size : ℕ} (hsize : 64 ≤ size) :
    headerValue decode (Wire.headers hs).bytes (ascii "correlation") size = some q.correlation := by
  rw [headerValue_headers hr]
  obtain ⟨h, hh, hc⟩ := Option.map_eq_some_iff.mp hfind
  have hshort := hq.short
  rw [hh, Option.map_some, hc,
    keyBuf_eq_self (Nat.lt_trans hshort (by decide)) hq.noZero_correlation,
    cut, List.take_of_length_le (by omega)]

theorem sized_asks (hq : q.Valid) : (Wire.envelope hq.asks ⟨q.text, hq.text_lt⟩).Sized := by
  have hshort := hq.short
  have hreply := hq.replyTo_le
  have hmax : BJM_SUBJECT_MAX = 128 := rfl
  have h₁ : (ascii "reply_to").length = 8 := rfl
  have h₂ : (ascii "correlation").length = 11 := rfl
  refine sized_envelope (Nat.le_refl 2) ?_ hq.text
  intro h hh
  rcases List.mem_pair.mp hh with rfl | rfl <;> dsimp only <;> omega

theorem sized_answers (hq : q.Valid) {s : ShortText} (hs : s.1.length + 2 ^ 9 < 2 ^ 32) :
    (Wire.envelope hq.answers s).Sized := by
  have hshort := hq.short
  have h₂ : (ascii "correlation").length = 11 := rfl
  refine sized_envelope (Nat.le_succ 1) ?_ hs
  intro h hh
  obtain rfl := List.mem_singleton.mp hh
  dsimp only
  omega

end CliRequest.Valid

theorem CliRequest.Valid.prefixed {q : CliRequest} (hq : q.Valid) (pre : Bytes)
    (hpre : bjmDedupIdValid pre = true) (hshort : pre.length ≤ 64)
    (hchars : pre.all (fun c => c != 0x26 && c != 0x23 && c != 0x2B && c != 0x25) = true) :
    bjmDedupIdValid (pre ++ q.correlation) = true ∧ plainText (pre ++ q.correlation) = true := by
  simp only [List.all_eq_true, Bool.and_eq_true, bne_iff_ne, and_assoc] at hchars
  refine ⟨?_, (plainText_append hchars).trans hq.plain⟩
  have hkeyed := hq.keyed
  have hlen := hq.short
  have hmax : BJM_DEDUP_ID_MAX = 128 := rfl
  simp only [bjmDedupIdValid, Bool.and_eq_true, decide_eq_true_eq, List.all_append] at hpre hkeyed ⊢
  refine ⟨⟨?_, ?_⟩, hpre.2, hkeyed.2⟩
  · have hne := hpre.1.1
    cases pre with
    | nil => exact absurd hne Bool.false_ne_true
    | cons c pre => rfl
  · rw [List.length_append]
    omega

/-- The message a reply is. -/
def replyMsg (out : Bytes) : Bytes := encode [.string (stripped out)]

/-- The entry the reply to a request becomes. -/
def CliRequest.answered (q : CliRequest) (out : Bytes) : Entry :=
  ⟨BJM_ENTRY_ENVELOPE, enveloped [(ascii "correlation", q.correlation)] (replyMsg out)⟩

/-- What becomes of a request whose text a replier's command makes this output of. -/
structure CliRequest.Exchanged (V : Vendor) (G : UInt64 → Bytes) (decode : Decoder) (q : CliRequest)
    (R : Replier) (out : Bytes) : Prop where
  asked : publication V q.request =
    .ok ⟨q.subject, ⟨BJM_ENTRY_ENVELOPE, q.body⟩, some (ascii "req." ++ q.correlation)⟩
  handled : ∀ (attempts : List Attempt) (st : Store) (auth : Option Bytes) (j : Job),
    authorised R.token auth = true → j.type = BJM_ENTRY_ENVELOPE → j.payload = q.body →
    Readable (takeRecord [j]) →
      hReply V G decode R attempts st auth (some (takeRecord [j])) =
        let told := R.publishReply V attempts q.replyTo q.correlation out st
        if told.1 = some 200 then
          ⟨textReply 200 "", replyLine (toInt64 j.index) "replied\n", told.2⟩
        else ⟨textReply 500 "handler failed\n", replyLine (toInt64 j.index) "failed\n", told.2⟩
  published : publication V (R.request q.replyTo q.correlation out) =
    .ok ⟨q.replyTo, q.answered out, some (ascii "reply." ++ q.correlation)⟩
  taken : ∀ want, (q.answered out).answer V decode want =
    if want = q.correlation then some (replyMsg out) else none
  printed : shown G decode (replyMsg out) = putQuoted (stripped out) ++ [0x0A]

theorem foldl_rrVisit (j : Job) : (takeRecord [j]).foldl rrVisit .blank =
    ⟨ascii "payload", toInt64 j.index, j.type, some j.payload⟩ := by
  have hkeys : keyBuf 16 (ascii "index") = ascii "index" ∧
      keyBuf 16 (ascii "attempts") = ascii "attempts" ∧
      keyBuf 16 (ascii "expires_ms") = ascii "expires_ms" ∧
      keyBuf 16 (ascii "type") = ascii "type" ∧ keyBuf 16 (ascii "payload") = ascii "payload" := by
    decide
  have hother : ascii "attempts" ≠ ascii "index" ∧ ascii "attempts" ≠ ascii "type" ∧
      ascii "expires_ms" ≠ ascii "index" ∧ ascii "expires_ms" ≠ ascii "type" ∧
      ascii "type" ≠ ascii "index" := by
    decide
  obtain ⟨h₁, h₂, h₃, h₄, h₅⟩ := hkeys
  obtain ⟨h₆, h₇, h₈, h₉, h₁₀⟩ := hother
  simp only [takeRecord, jobRecord, List.flatMap_cons, List.flatMap_nil, List.append_nil,
    List.cons_append, List.nil_append, List.foldl_cons, List.foldl_nil, putInt, RrMsg.blank]
  simp only [rrVisit, h₁, h₂, h₃, h₄, h₅, h₆, h₇, h₈, h₉, h₁₀, Option.isSome_none,
    Bool.false_eq_true, if_false, if_true, ne_eq, not_true_eq_false, or_self]

theorem CliRequest.Valid.askedIn_body {q : CliRequest} (hq : q.Valid) (hV : V.WalksWire consumed)
    (hr : Reads V decode hq.asks ⟨q.text, hq.text_lt⟩) :
    askedIn V decode BJM_ENTRY_ENVELOPE q.body =
      ⟨q.replyTo, q.correlation, (Wire.text ⟨q.text, hq.text_lt⟩).bytes⟩ := by
  have hkeys : keyBuf 64 (ascii "reply_to") = ascii "reply_to" ∧
      keyBuf 64 (ascii "correlation") = ascii "correlation" := by
    decide
  have hreply : headerValue decode (Wire.headers hq.asks).bytes (ascii "reply_to")
      (BJM_SUBJECT_MAX + 1) = some q.replyTo := by
    have hfind : (hq.asks.find? fun h => keyBuf 64 h.1 = ascii "reply_to") =
        some (ascii "reply_to", ⟨q.replyTo, hq.replyTo_lt⟩) := by
      rw [CliRequest.Valid.asks, List.find?_cons_of_pos (by simp only [hkeys, decide_true])]
    have hlen := hq.replyTo_le
    rw [headerValue_headers hr, hfind, Option.map_some,
      keyBuf_eq_self (Nat.lt_succ_of_le hlen) hq.noZero_replyTo, cut, Nat.add_sub_cancel,
      List.take_of_length_le hlen]
  have hcorrelation : headerValue decode (Wire.headers hq.asks).bytes (ascii "correlation") 64 =
      some q.correlation := by
    refine hq.correlation_read hr ?_ (Nat.le_refl 64)
    rw [CliRequest.Valid.asks, List.find?_cons_of_neg (by simp only [hkeys]; decide),
      List.find?_cons_of_pos (by simp only [hkeys, decide_true])]
    rfl
  rw [askedIn, if_pos rfl, hq.body_eq, split_envelope hV hq.sized_asks]
  simp only [hreply, hcorrelation, Option.getD_some]

theorem feedFor_text (hr : Reads V decode hs s) :
    feedFor G decode (Wire.text s).bytes false = s.1 := by
  have htag : (Wire.text s).bytes.head? = some PyBinjson.TYPE.STRING := rfl
  simp [feedFor, htag, hr.text, peekString]

theorem replyUrl_eq (urlBase subject correlation : Bytes) :
    replyUrl urlBase subject correlation = (urlBase ++ ascii "/pub/" ++ subject ++
      ascii "?headers=1&id=" ++ (ascii "reply." ++ correlation)).take (urlSize - 1) := by
  have hsplit : ascii "?headers=1&id=reply." = ascii "?headers=1&id=" ++ ascii "reply." := rfl
  rw [replyUrl, hsplit]
  simp only [List.append_assoc]

namespace CliRequest.Valid

variable {q : CliRequest} {R : Replier} {out : Bytes}

theorem saysWhere (hq : q.Valid) : ¬ (q.replyTo = [] ∨ q.correlation = []) := by
  have hnone : bjmSubjectValid [] ≠ true ∧ bjmDedupIdValid [] ≠ true := by decide
  rintro (h | h)
  · exact hnone.1 (h ▸ hq.reply)
  · exact hnone.2 (h ▸ hq.keyed)

theorem asked (hq : q.Valid) (hV : V.WalksWire consumed)
    (hr : Reads V decode hq.asks ⟨q.text, hq.text_lt⟩) : publication V q.request =
      .ok ⟨q.subject, ⟨BJM_ENTRY_ENVELOPE, q.body⟩, some (ascii "req." ++ q.correlation)⟩ := by
  obtain ⟨hne, hsize, hshape⟩ := hr.passes hV (Nat.le_refl 2) hq.sized_asks
  rw [← hq.body_eq] at hne hsize hshape
  obtain ⟨hid, hplain⟩ := hq.prefixed (ascii "req.") (by decide) (by decide) (by decide)
  have hlen : (ascii "req." ++ q.correlation).length = q.correlation.length + 4 := by
    rw [List.length_append, Nat.add_comm]
    rfl
  have hroom := hq.whole
  have hposting : Posting q.base q.subject (ascii "req." ++ q.correlation) :=
    ⟨hq.named, hid, hplain, by omega⟩
  have hurl : q.url = (q.base.text ++ ascii "/pub/" ++ q.subject ++ ascii "?headers=1&id=" ++
      (ascii "req." ++ q.correlation)).take (urlSize - 1) := by
    have hsplit : ascii "?headers=1&id=req." = ascii "?headers=1&id=" ++ ascii "req." := rfl
    rw [CliRequest.url, hsplit]
    simp only [List.append_assoc]
  exact hposting.publication hne hsize hshape hurl

theorem handled (hq : q.Valid) (hV : V.WalksWire consumed)
    (hr : Reads V decode hq.asks ⟨q.text, hq.text_lt⟩) (hexec : R.exec q.text = some out)
    (attempts : List Attempt) (st : Store) {auth : Option Bytes} {j : Job}
    (hauth : authorised R.token auth = true) (htype : j.type = BJM_ENTRY_ENVELOPE)
    (hpayload : j.payload = q.body) (hread : Readable (takeRecord [j])) :
    hReply V G decode R attempts st auth (some (takeRecord [j])) =
      let told := R.publishReply V attempts q.replyTo q.correlation out st
      if told.1 = some 200 then
        ⟨textReply 200 "", replyLine (toInt64 j.index) "replied\n", told.2⟩
      else ⟨textReply 500 "handler failed\n", replyLine (toInt64 j.index) "failed\n", told.2⟩ := by
  simp only [hReply, hauth, Bool.not_true, Bool.false_eq_true, if_false,
    bjDecode_of_readable _ hread, foldl_rrVisit, htype, hpayload, hq.askedIn_body hV hr,
    feedFor_text hr, hexec, hq.saysWhere]

theorem answered_payload (hq : q.Valid) (hout : (stripped out).length < 2 ^ 32) :
    (q.answered out).payload = (Wire.envelope hq.answers ⟨stripped out, hout⟩).bytes := by
  rw [CliRequest.answered, replyMsg]
  exact enveloped_eq hq.answers ⟨stripped out, hout⟩

theorem replyPosting (hq : q.Valid)
    (hwhole : R.base.text.length + q.replyTo.length + q.correlation.length + 25 < urlSize) :
    Posting R.base q.replyTo (ascii "reply." ++ q.correlation) := by
  obtain ⟨hid, hplain⟩ := hq.prefixed (ascii "reply.") (by decide) (by decide) (by decide)
  have hlen : (ascii "reply." ++ q.correlation).length = q.correlation.length + 6 := by
    rw [List.length_append, Nat.add_comm]
    rfl
  exact ⟨hq.reply, hid, hplain, by omega⟩

theorem reply_unacked (hq : q.Valid)
    (hwhole : R.base.text.length + q.replyTo.length + q.correlation.length + 25 < urlSize) :
    (R.request q.replyTo q.correlation out).queryU64 (ascii "ack_index") 0 = 0 :=
  (hq.replyPosting hwhole).unacked _ (replyUrl_eq ..)

theorem published (hq : q.Valid) (hV : V.WalksWire consumed)
    (hout : (stripped out).length + 2 ^ 9 < 2 ^ 32)
    (hr : Reads V decode hq.answers
      ⟨stripped out, Nat.lt_of_le_of_lt (Nat.le_add_right _ _) hout⟩)
    (hwhole : R.base.text.length + q.replyTo.length + q.correlation.length + 25 < urlSize) :
    publication V (R.request q.replyTo q.correlation out) =
      .ok ⟨q.replyTo, q.answered out, some (ascii "reply." ++ q.correlation)⟩ := by
  obtain ⟨hne, hsize, hshape⟩ := hr.passes hV (Nat.le_succ 1) (hq.sized_answers hout)
  rw [← hq.answered_payload] at hne hsize hshape
  exact (hq.replyPosting hwhole).publication hne hsize hshape (replyUrl_eq ..)

theorem taken (hq : q.Valid) (hV : V.WalksWire consumed)
    (hout : (stripped out).length + 2 ^ 9 < 2 ^ 32)
    (hr : Reads V decode hq.answers
      ⟨stripped out, Nat.lt_of_le_of_lt (Nat.le_add_right _ _) hout⟩) (want : Bytes) :
    (q.answered out).answer V decode want =
      if want = q.correlation then some (replyMsg out) else none := by
  have hkey : keyBuf 64 (ascii "correlation") = ascii "correlation" := by decide
  have hcorrelation : headerValue decode (Wire.headers hq.answers).bytes (ascii "correlation") 96 =
      some q.correlation := by
    refine hq.correlation_read hr ?_ (by decide)
    rw [CliRequest.Valid.answers, List.find?_cons_of_pos (by simp only [hkey, decide_true])]
    rfl
  have hpayload := hq.answered_payload (Nat.lt_of_le_of_lt (Nat.le_add_right _ _) hout)
  have hsplit := split_envelope hV (hq.sized_answers
    (s := ⟨stripped out, Nat.lt_of_le_of_lt (Nat.le_add_right _ _) hout⟩) hout)
  rw [← hpayload] at hsplit
  have htype : (q.answered out).type = BJM_ENTRY_ENVELOPE := rfl
  rw [Entry.answer, answerIn, htype, if_neg (fun h => h rfl), hsplit]
  simp only [hcorrelation, Option.some.injEq, eq_comm (a := want)]
  rfl

end CliRequest.Valid

/-- The text that was sent is the text the command runs on, what it prints is what is published,
and it is taken by the requester that asked and by no other, who prints it. -/
theorem request_answered {q : CliRequest} {R : Replier} {out : Bytes} (hq : q.Valid)
    (hV : V.WalksWire consumed) (hasks : Reads V decode hq.asks ⟨q.text, hq.text_lt⟩)
    (hexec : R.exec q.text = some out) (hout : (stripped out).length + 2 ^ 9 < 2 ^ 32)
    (hanswers : Reads V decode hq.answers
      ⟨stripped out, Nat.lt_of_le_of_lt (Nat.le_add_right _ _) hout⟩)
    (hwhole : R.base.text.length + q.replyTo.length + q.correlation.length + 25 < urlSize) :
    q.Exchanged V G decode R out where
  asked := hq.asked hV hasks
  handled attempts st _ _ := hq.handled hV hasks hexec attempts st
  published := hq.published hV hout hanswers hwhole
  taken := hq.taken hV hout hanswers
  printed := by
    have hvisits : decode (replyMsg out) = ([.string (stripped out)], true) := hanswers.text
    rw [shown, hvisits]
    rfl

/-- The correlation is made up from the clock and the process. -/
structure CliRequest.MadeUp (q : CliRequest) (sec nsec pid : ℕ) : Prop where
  seconds : sec < 2 ^ 64
  fraction : nsec < 2 ^ 64
  process : pid < 2 ^ 32
  correlation : q.correlation = makeAutoId 64 sec nsec pid

theorem CliRequest.Exchanged.passed_by {q q' : CliRequest} {R : Replier} {out : Bytes}
    (hex : q.Exchanged V G decode R out) {sec nsec pid sec' nsec' pid' : ℕ}
    (hq : q.MadeUp sec nsec pid) (hq' : q'.MadeUp sec' nsec' pid')
    (hne : (sec, nsec, pid) ≠ (sec', nsec', pid')) :
    (q.answered out).answer V decode q'.correlation = none := by
  rw [hex.taken, if_neg]
  intro hsame
  rw [hq.correlation, hq'.correlation] at hsame
  obtain ⟨rfl, rfl, rfl⟩ := makeAutoId_injective hq'.seconds hq'.fraction hq'.process hq.seconds
    hq.fraction hq.process hsame
  exact hne rfl

end

/-- `echo` is asked to shout. -/
def shoutRequest : CliRequest :=
  ⟨localBroker, ascii "echo", REPLY_SUBJECT_DEFAULT, makeAutoId 64 1 2 3, ascii "hello world"⟩

/-- It shouts one text. -/
def shouter : Replier where
  token := []
  base := localBroker
  exec := fun text => if text = ascii "hello world" then some (ascii "HELLO WORLD\n") else none
  retryMs := 0

theorem shoutRequest_valid : shoutRequest.Valid := by
  obtain ⟨-, hkeyed, hplain, hshort⟩ := @makeAutoId_valid 1 2 3
    (by decide) (by decide) (by decide)
  exact ⟨by decide, by decide, hkeyed, hplain, hshort, by decide, by decide +kernel⟩

def shouted : ShortText := ⟨stripped (ascii "HELLO WORLD\n"), by decide +kernel⟩

/-- The two envelopes of the exchange. -/
def shoutEnvelopes : List Wire :=
  [Wire.envelope shoutRequest_valid.asks ⟨shoutRequest.text, shoutRequest_valid.text_lt⟩,
    Wire.envelope shoutRequest_valid.answers shouted]

/-- A decoder that knows these two and what is in them, and sizes by the rule. -/
def shoutVendor : Vendor :=
  { sizedVendor with
    callbacks := fun data => (shoutEnvelopes.find? fun w => w.bytes = data).map Wire.callbacks }

def shoutDecoder : Decoder := fun data =>
  match [(Wire.headers shoutRequest_valid.asks, headerVisits shoutRequest_valid.asks),
      (Wire.text ⟨shoutRequest.text, shoutRequest_valid.text_lt⟩, [.string shoutRequest.text]),
      (Wire.headers shoutRequest_valid.answers, headerVisits shoutRequest_valid.answers),
      (Wire.text shouted, [.string shouted.1])].find? fun p => p.1.bytes = data with
  | none => ([], false)
  | some p => (p.2, true)

theorem shoutRequest_exchanged :
    shoutRequest.Exchanged shoutVendor (fun _ => []) shoutDecoder shouter
      (ascii "HELLO WORLD\n") := by
  have hV : shoutVendor.WalksWire List.length := by
    constructor
    · intro data cbs h
      obtain ⟨w, hfind, rfl⟩ := Option.map_eq_some_iff.mp h
      have hbytes : w.bytes = data := by simpa using List.find?_some hfind
      refine ⟨w, ?_, by rw [List.take_length, hbytes], rfl⟩
      rcases List.mem_pair.mp (List.mem_of_find?_eq_some hfind) with rfl | rfl
      · exact shoutRequest_valid.sized_asks
      · exact shoutRequest_valid.sized_answers (by decide +kernel)
    · intro w rest hs
      have hsize := PyBinjson.valueSize_append rest (valueSize_bytes w hs)
      simp only [shoutVendor, sizedVendor, hsize]
      rfl
  refine request_answered shoutRequest_valid hV ⟨?_, ?_, ?_⟩ ?_ (by decide +kernel) ⟨?_, ?_, ?_⟩ ?_
  all_goals decide +kernel

end SukkalMsg
