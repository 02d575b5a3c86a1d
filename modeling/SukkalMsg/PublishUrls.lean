import SukkalMsg.QueryEscapes

/-!
# The URLs of the command line client's publishes

`pub` prints its URL in up to three pieces into one buffer, with the id as it was given,
and then drops the separator that is left over. `publish_reply` prints its URL at once.
The broker finds the id again when it holds nothing that separates, ends or escapes.
-/

namespace SukkalMsg

open Names

/-- `sizeof url`. -/
def urlSize : ℕ := 1024

/-- `snprintf` behind the first `n` bytes of a buffer, which is left alone where there are
`n` already; `none` once that is outside of it. -/
def snprintfPiece (size : ℕ) (buf : Bytes) (n : ℕ) (text : Bytes) : Option (Bytes × ℕ) :=
  if n > size then none else some (buf ++ text.take (size - n - 1), n + text.length)

/-- The id goes behind the `?`, the flag behind that. -/
def pubPrint (urlBase subject : Bytes) (id : Option Bytes) (nhdr : Bool) : Option (Bytes × ℕ) :=
  match snprintfPiece urlSize [] 0 (urlBase ++ ascii "/pub/" ++ subject ++ ascii "?") with
  | none => none
  | some (url, n) =>
    match (match id with
      | none => some (url, n)
      | some id => snprintfPiece urlSize url n (ascii "id=" ++ id ++ ascii "&")) with
    | none => none
    | some (url, n) =>
      if nhdr then snprintfPiece urlSize url n (ascii "headers=1&") else some (url, n)

/-- The URL of `pub`, without the trailing `&` or `?`. -/
def pubUrl (urlBase subject : Bytes) (id : Option Bytes) (nhdr : Bool) : Option Bytes :=
  match pubPrint urlBase subject id nhdr with
  | none => none
  | some (url, n) => some (if 0 < n ∧ n < urlSize then url.take (n - 1) else url)

/-- The URL `publish_reply` prints. -/
def replyUrl (urlBase subject correlation : Bytes) : Bytes :=
  (urlBase ++ ascii "/pub/" ++ subject ++ ascii "?headers=1&id=reply." ++ correlation).take
    (urlSize - 1)

/-- The part of a URL between its `?` and any `#`. -/
def urlQuery (url : Bytes) : Bytes :=
  ((url.takeWhile (· != 0x23)).dropWhile (· != 0x3F)).drop 1

/-- What `--url` names: a scheme, a host and a port, without a query. -/
structure UrlBase where
  text : Bytes
  noQuery : 0x3F ∉ text
  noFragment : 0x23 ∉ text

/-- A publish of the client: of a message under an id, or of a reply. -/
inductive ClientPublish where
  | pub (subject id : Bytes) (nhdr : Bool)
  | reply (subject correlation : Bytes)

namespace ClientPublish

def subject : ClientPublish → Bytes
  | pub subject _ _ | reply subject _ => subject

/-- The id the publish is meant to carry. -/
def given : ClientPublish → Bytes
  | pub _ id _ => id
  | reply _ correlation => ascii "reply." ++ correlation

def flag : ClientPublish → Bool
  | pub _ _ nhdr => nhdr
  | reply _ _ => true

def url (b : UrlBase) : ClientPublish → Option Bytes
  | pub subject id nhdr => pubUrl b.text subject (some id) nhdr
  | reply subject correlation => some (replyUrl b.text subject correlation)

/-- The subject and the id are valid; a correlation is any text. -/
def Valid : ClientPublish → Prop
  | pub subject id _ => bjmSubjectValid subject = true ∧ bjmDedupIdValid id = true
  | reply subject correlation => bjmSubjectValid subject = true ∧ 0 ∉ correlation

/-- The broker's reader finds the id and the flag that were given in a query. -/
structure FoundIn (q : Bytes) (c : ClientPublish) : Prop where
  id : sukkalQueryFromString q (ascii "id") (BJM_DEDUP_ID_MAX + 1) = (1, c.given)
  headers : sukkalQueryFromString q (ascii "headers") 32 =
    if c.flag then (1, ascii "1") else (0, [])

def ReadBack (b : UrlBase) (c : ClientPublish) : Prop :=
  ∃ u, c.url b = some u ∧ c.FoundIn (urlQuery u)

end ClientPublish

def hexPair : Bytes → Bool
  | hi :: lo :: _ => (unhex hi).isSome && (unhex lo).isSome
  | _ => false

/-- Nothing in the text separates, ends or escapes: no `&`, `#` or `+`, and no `%` in front
of two hexadecimal digits. -/
def plainText : Bytes → Bool
  | [] => true
  | c :: v => c != 0x26 && c != 0x23 && c != 0x2B && !(c == 0x25 && hexPair v) && plainText v

namespace ClientPublish

/-- The parameters before and behind the id, and the whole URL, however long. -/
def lead : ClientPublish → Bytes
  | pub _ _ _ => []
  | reply _ _ => ascii "headers=1&"

def trail : ClientPublish → Bytes
  | pub _ _ true => ascii "&headers=1"
  | _ => []

def parameters (c : ClientPublish) : Bytes := c.lead ++ ascii "id=" ++ c.given ++ c.trail

def text (b : UrlBase) (c : ClientPublish) : Bytes :=
  b.text ++ ascii "/pub/" ++ c.subject ++ 0x3F :: c.parameters

/-- The id is plain, fits the broker's buffer, and the URL fits the client's. -/
structure Conforms (b : UrlBase) (c : ClientPublish) : Prop where
  plain : plainText c.given = true
  fits : c.given.length ≤ BJM_DEDUP_ID_MAX
  whole : (c.text b).length < urlSize

end ClientPublish

/-! ### What undoing the escapes does to a text -/

theorem length_unescaped_le (skip : ℕ) (v : Bytes) :
    (unescaped skip v).length ≤ v.length - skip := by
  induction v generalizing skip with
  | nil => simp [unescaped]
  | cons c v ih =>
    cases skip with
    | zero =>
      have := ih (unescape c v).2
      simp only [unescaped, List.length_cons]
      omega
    | succ skip =>
      have := ih skip
      simp only [unescaped, List.length_cons]
      omega

theorem unescape_cases (c : UInt8) (v : Bytes) :
    c = 0x2B ∧ unescape c v = (0x20, 0) ∨ c = 0x25 ∧ hexPair v = true ∧ (unescape c v).2 = 2 ∨
      c ≠ 0x2B ∧ (c == 0x25 && hexPair v) = false ∧ unescape c v = (c, 0) := by
  by_cases hplus : c = 0x2B
  · exact .inl ⟨hplus, by simp [unescape, hplus]⟩
  by_cases hpct : c = 0x25
  · subst hpct
    rcases v with _ | ⟨hi, _ | ⟨lo, v⟩⟩
    · exact .inr (.inr ⟨hplus, rfl, rfl⟩)
    · exact .inr (.inr ⟨hplus, rfl, rfl⟩)
    cases hh : unhex hi with
    | none => exact .inr (.inr ⟨hplus, by simp [hexPair, hh], by simp [unescape, hh]⟩)
    | some h =>
      cases hl : unhex lo with
      | none => exact .inr (.inr ⟨hplus, by simp [hexPair, hl], by simp [unescape, hh, hl]⟩)
      | some l => exact .inr (.inl ⟨rfl, by simp [hexPair, hh, hl], by simp [unescape, hh, hl]⟩)
  · exact .inr (.inr ⟨hplus, by simp [hpct], by simp [unescape, hplus, hpct]⟩)

theorem unescaped_eq_self {v : Bytes} (hamp : 0x26 ∉ v) (hhash : 0x23 ∉ v) :
    unescaped 0 v = v ↔ plainText v = true := by
  induction v with
  | nil => simp [unescaped, plainText]
  | cons c v ih =>
    rw [List.mem_cons, not_or] at hamp hhash
    have ih := ih hamp.2 hhash.2
    have hne : c ≠ 0x26 ∧ c ≠ 0x23 := ⟨Ne.symm hamp.1, Ne.symm hhash.1⟩
    rcases unescape_cases c v with ⟨rfl, he⟩ | ⟨rfl, hpair, he⟩ | ⟨hplus, hpair, he⟩
    · simp [unescaped, he, plainText]
    · -- an escape taken makes the text shorter
      have htwo : 2 ≤ v.length := by
        rcases v with _ | ⟨hi, _ | ⟨lo, v⟩⟩
        · exact absurd hpair Bool.false_ne_true
        · exact absurd hpair Bool.false_ne_true
        · simp
      have hshort := length_unescaped_le (unescape 0x25 v).2 v
      constructor
      · intro h
        have hlen := congrArg List.length h
        simp only [unescaped, List.length_cons] at hlen
        rw [he] at hshort hlen
        omega
      · intro h
        simp [plainText, hpair] at h
    · simp [unescaped, he, ih, plainText, hne, hplus, hpair]

theorem notMem_of_plainText {v : Bytes} (h : plainText v = true) : 0x26 ∉ v ∧ 0x23 ∉ v := by
  induction v with
  | nil => simp
  | cons c v ih =>
    simp only [plainText, Bool.and_eq_true, bne_iff_ne] at h
    have ih := ih h.2
    simp [Ne.symm h.1.1.1.1, Ne.symm h.1.1.1.2, ih.1, ih.2]

/-! ### The buffer of the client -/

theorem snprintfPiece_take (size : ℕ) (w text : Bytes) :
    snprintfPiece size (w.take (size - 1)) w.length text =
      if w.length > size then none else some ((w ++ text).take (size - 1), (w ++ text).length) := by
  simp only [snprintfPiece]
  split
  · rfl
  · rw [List.take_append, List.length_append, Nat.sub_right_comm]

/-- The three pieces of `pub`, one behind the other. -/
def pubText (urlBase subject id : Bytes) (nhdr : Bool) : Bytes :=
  urlBase ++ ascii "/pub/" ++ subject ++ ascii "?" ++ (ascii "id=" ++ id ++ ascii "&") ++
    if nhdr then ascii "headers=1&" else []

theorem pubPrint_cases (urlBase subject id : Bytes) (nhdr : Bool) :
    (pubPrint urlBase subject (some id) nhdr = none ∧
        urlSize < (pubText urlBase subject id nhdr).length) ∨
      pubPrint urlBase subject (some id) nhdr = some ((pubText urlBase subject id nhdr).take
        (urlSize - 1), (pubText urlBase subject id nhdr).length) := by
  have hfirst := snprintfPiece_take urlSize []
    (urlBase ++ ascii "/pub/" ++ subject ++ ascii "?")
  rw [List.take_nil, List.length_nil, if_neg (Nat.not_lt_zero _), List.nil_append] at hfirst
  simp only [pubPrint, hfirst, snprintfPiece_take, pubText]
  generalize urlBase ++ ascii "/pub/" ++ subject ++ ascii "?" = w
  generalize ascii "id=" ++ id ++ ascii "&" = piece
  by_cases hw : w.length > urlSize
  · rw [if_pos hw]
    refine .inl ⟨rfl, ?_⟩
    simp only [List.length_append]
    omega
  · rw [if_neg hw]
    cases nhdr with
    | false => simp
    | true =>
      simp only [if_true, snprintfPiece_take]
      by_cases hp : (w ++ piece).length > urlSize
      · rw [if_pos hp]
        refine .inl ⟨rfl, ?_⟩
        rw [List.length_append]
        omega
      · rw [if_neg hp]
        exact .inr rfl

namespace ClientPublish

variable {b : UrlBase} {c : ClientPublish}

theorem pubText_eq (b : UrlBase) (subject id : Bytes) (nhdr : Bool) :
    pubText b.text subject id nhdr = (pub subject id nhdr).text b ++ ascii "&" := by
  cases nhdr <;> simp [pubText, text, parameters, lead, trail, ClientPublish.subject, given] <;> rfl

theorem url_eq_some {u : Bytes} (h : c.url b = some u) : u = (c.text b).take (urlSize - 1) := by
  cases c with
  | reply subject correlation =>
    obtain rfl := Option.some.inj h
    simp [replyUrl, text, parameters, lead, trail, ClientPublish.subject, given]
    rfl
  | pub subject id nhdr =>
    simp only [url, pubUrl] at h
    rcases pubPrint_cases b.text subject id nhdr with ⟨hp, -⟩ | hp
    · rw [hp] at h
      contradiction
    · rw [hp] at h
      obtain rfl := Option.some.inj h
      rw [pubText_eq]
      generalize (pub subject id nhdr).text b = t
      have hlen : (t ++ ascii "&").length = t.length + 1 := List.length_append
      rw [hlen]
      split
      · have hshort : t.length ≤ urlSize - 1 := by omega
        rw [Nat.add_sub_cancel, List.take_take, Nat.min_eq_left hshort, List.take_left,
          List.take_of_length_le hshort]
      · have hlong : urlSize - 1 ≤ t.length := by omega
        rw [List.take_append_of_le_length hlong]

theorem url_of_whole (h : (c.text b).length < urlSize) : c.url b = some (c.text b) := by
  have hu : ∃ u, c.url b = some u := by
    cases c with
    | reply subject correlation => exact ⟨_, rfl⟩
    | pub subject id nhdr =>
      simp only [url, pubUrl]
      rcases pubPrint_cases b.text subject id nhdr with ⟨-, hlong⟩ | hp
      · rw [pubText_eq, List.length_append] at hlong
        have : (ascii "&").length = 1 := rfl
        omega
      · rw [hp]
        exact ⟨_, rfl⟩
  obtain ⟨u, hu⟩ := hu
  rw [hu, url_eq_some hu, List.take_of_length_le (by omega)]

end ClientPublish

/-! ### The query of a URL -/

theorem takeWhile_of_notMem {x : UInt8} {l : Bytes} (h : x ∉ l) : l.takeWhile (· != x) = l := by
  rw [List.takeWhile_eq_self_iff]
  intro y hy
  rw [bne_iff_ne]
  rintro rfl
  exact h hy

theorem notMem_takeWhile (x : UInt8) (l : Bytes) : x ∉ l.takeWhile (· != x) := by
  intro h
  have := List.mem_takeWhile_imp h
  simp at this

theorem urlQuery_take {pre p : Bytes} (hq : 0x3F ∉ pre) (hf : 0x23 ∉ pre) (k : ℕ) :
    urlQuery ((pre ++ 0x3F :: p).take k) =
      (p.take (k - pre.length - 1)).takeWhile (· != 0x23) := by
  have hdrop : ∀ l : Bytes, (∀ y ∈ l, y ∈ pre) → l.dropWhile (· != 0x3F) = [] := by
    intro l hl
    rw [List.dropWhile_eq_nil_iff]
    intro y hy
    rw [bne_iff_ne]
    rintro rfl
    exact hq (hl _ hy)
  rw [urlQuery, List.take_append]
  by_cases hk : k ≤ pre.length
  · have hz : k - pre.length = 0 := Nat.sub_eq_zero_of_le hk
    have hmem : ∀ y ∈ (pre.take k).takeWhile (· != 0x23), y ∈ pre := fun y hy =>
      List.mem_of_mem_take ((List.takeWhile_prefix _).subset hy)
    rw [hz, List.take_zero, List.append_nil, hdrop _ hmem]
    simp
  · obtain ⟨j, hj⟩ : ∃ j, k - pre.length = j + 1 := ⟨k - pre.length - 1, by omega⟩
    have hall : pre.take k = pre := List.take_of_length_le (by omega)
    rw [hall, hj, List.take_succ_cons, List.takeWhile_append_of_pos, List.takeWhile_cons_of_pos
      (by decide), List.dropWhile_append, hdrop pre fun y hy => hy]
    · simp
    · intro y hy
      rw [bne_iff_ne]
      rintro rfl
      exact hf hy

/-! ### What the reader finds -/

variable {q r key : Bytes} {n : ℕ}

theorem query_of_none (hamp : 0x26 ∉ r) (hr : valueOf key r = none) :
    sukkalQueryFromString r key n = (0, []) := by
  simp [sukkalQueryFromString, regions_of_notMem hamp, hr]

theorem query_skip (hamp : 0x26 ∉ r) (hr : valueOf key r = none) :
    sukkalQueryFromString (r ++ 0x26 :: q) key n = sukkalQueryFromString q key n := by
  simp [sukkalQueryFromString, regions_append hamp, hr]

theorem query_here (hkey : 0x3D ∉ key) (hk : 0x26 ∉ key) (q : Bytes) :
    sukkalQueryFromString (key ++ 0x3D :: q) key n = fill n 0 (q.takeWhile (· != 0x26)) [] := by
  have htake : (key ++ 0x3D :: q).takeWhile (· != 0x26) =
      key ++ 0x3D :: q.takeWhile (· != 0x26) := by
    rw [List.takeWhile_append_of_pos, List.takeWhile_cons_of_pos (by decide)]
    intro y hy
    rw [bne_iff_ne]
    rintro rfl
    exact hk hy
  have hval : valueOf key (key ++ 0x3D :: q.takeWhile (· != 0x26)) =
      some (q.takeWhile (· != 0x26)) := by
    have hmem : (0x3D : UInt8) ∈ key ++ 0x3D :: q.takeWhile (· != 0x26) := by simp
    rw [valueOf, takeWhile_key hkey, if_pos ⟨hmem, rfl⟩]
    simp
  rcases region_cases (key ++ 0x3D :: q) with ⟨-, hr⟩ | ⟨-, hr⟩ <;>
    simp only [sukkalQueryFromString, hr, htake, List.findSome?_cons, hval]

theorem fill_eq_one {size : ℕ} (hsize : 0 < size) {v w : Bytes} :
    fill size 0 v [] = (1, w) ↔ unescaped 0 v = w ∧ w.length + 1 ≤ size := by
  rw [fill_eq [] hsize, List.nil_append]
  split
  · constructor
    · intro h
      simp at h
    · rintro ⟨rfl, h⟩
      omega
  · constructor
    · intro h
      obtain rfl := (Prod.mk.inj h).2
      exact ⟨rfl, by omega⟩
    · rintro ⟨rfl, -⟩
      rfl

theorem prefix_append_cases {q a b : Bytes} (h : q <+: a ++ b) :
    (∃ k < a.length, q = a.take k) ∨ ∃ b', b' <+: b ∧ q = a ++ b' := by
  by_cases hl : q.length < a.length
  · have hq := List.prefix_of_prefix_length_le h (List.prefix_append a b) (Nat.le_of_lt hl)
    exact .inl ⟨q.length, hl, List.prefix_iff_eq_take.mp hq⟩
  · obtain ⟨b', rfl⟩ :=
      List.prefix_of_prefix_length_le (List.prefix_append a b) h (Nat.not_lt.mp hl)
    exact .inr ⟨b', (List.prefix_append_right_inj a).mp h, rfl⟩

namespace ClientPublish

variable {b : UrlBase} {c : ClientPublish}

theorem id_here (c : ClientPublish) (n : ℕ) (q : Bytes) :
    sukkalQueryFromString (c.lead ++ ascii "id=" ++ q) (ascii "id") n =
      fill n 0 (q.takeWhile (· != 0x26)) [] := by
  have hid : sukkalQueryFromString (ascii "id" ++ 0x3D :: q) (ascii "id") n =
      fill n 0 (q.takeWhile (· != 0x26)) [] := query_here (by decide) (by decide) q
  cases c with
  | pub subject id nhdr => exact hid
  | reply subject correlation =>
    have hskip : sukkalQueryFromString (ascii "headers=1" ++ 0x26 :: (ascii "id" ++ 0x3D :: q))
        (ascii "id") n = sukkalQueryFromString (ascii "id" ++ 0x3D :: q) (ascii "id") n :=
      query_skip (by decide) (by decide)
    exact hskip.trans hid

theorem id_cut (c : ClientPublish) {k : ℕ} (hk : k < (c.lead ++ ascii "id=").length) (n : ℕ) :
    sukkalQueryFromString ((c.lead ++ ascii "id=").take k) (ascii "id") n = (0, []) := by
  have hnone : ((regions ((c.lead ++ ascii "id=").take k)).findSome? (valueOf (ascii "id"))) =
      none := by
    cases c with
    | pub subject id nhdr =>
      have hall : ∀ k < 3, (regions ((ascii "id=").take k)).findSome? (valueOf (ascii "id")) =
          none := by decide
      exact hall k hk
    | reply subject correlation =>
      have hall : ∀ k < 13, (regions ((ascii "headers=1&id=").take k)).findSome?
          (valueOf (ascii "id")) = none := by decide
      exact hall k hk
  simp [sukkalQueryFromString, hnone]

theorem trail_cases (c : ClientPublish) :
    c.trail = [] ∧ (c.flag = true → ∃ s r, c = reply s r) ∨
      c.trail = 0x26 :: ascii "headers=1" ∧ ∃ s i, c = pub s i true := by
  cases c with
  | reply s r => exact .inl ⟨rfl, fun _ => ⟨s, r, rfl⟩⟩
  | pub s i nhdr =>
    cases nhdr with
    | false => exact .inl ⟨rfl, fun h => by simp [flag] at h⟩
    | true => exact .inr ⟨rfl, s, i, rfl⟩

theorem given_of_read {q : Bytes} (hq : q <+: c.given ++ c.trail)
    (h : unescaped 0 (q.takeWhile (· != 0x26)) = c.given) :
    q.takeWhile (· != 0x26) = c.given := by
  have hlen := length_unescaped_le 0 (q.takeWhile (· != 0x26))
  rw [h, Nat.sub_zero] at hlen
  have hv := (List.takeWhile_prefix (fun x => x != (0x26 : UInt8))).trans hq
  rcases prefix_append_cases hv with ⟨k, hk, he⟩ | ⟨t, ht, he⟩
  · rw [he, List.length_take] at hlen
    omega
  · rw [he]
    rcases c.trail_cases with ⟨hnil, -⟩ | ⟨hamp, -⟩
    · rw [hnil] at ht
      rw [List.prefix_nil.mp ht, List.append_nil]
    · -- the flag stands behind an `&`, which the reader stops at
      cases t with
      | nil => exact List.append_nil _
      | cons y t =>
        rw [hamp, List.cons_prefix_cons] at ht
        have hmem : (0x26 : UInt8) ∈ q.takeWhile (· != 0x26) := by simp [he, ht.1]
        exact absurd hmem (notMem_takeWhile _ _)

theorem parameters_eq (c : ClientPublish) :
    c.parameters = c.lead ++ ascii "id=" ++ (c.given ++ c.trail) := by
  rw [parameters, List.append_assoc _ c.given]

theorem headers_ne_id (v : Bytes) : valueOf (ascii "headers") (ascii "id=" ++ v) = none := by
  have hkey : (ascii "id=" ++ v).takeWhile (· != 0x3D) = ascii "id" :=
    takeWhile_key (by decide : (0x3D : UInt8) ∉ ascii "id")
  rw [valueOf, hkey, if_neg]
  rintro ⟨-, h⟩
  revert h
  decide

/-- Whatever is left of the query, where the id and the flag are found nothing is missing. -/
theorem whole_of_found {q : Bytes} (hq : q <+: c.parameters) (hhash : 0x23 ∉ q)
    (h : c.FoundIn q) : plainText c.given = true ∧ c.given.length ≤ BJM_DEDUP_ID_MAX ∧
      q = c.parameters := by
  have hid := h.id
  rw [parameters_eq] at hq ⊢
  rcases prefix_append_cases hq with ⟨k, hk, rfl⟩ | ⟨q', hq', rfl⟩
  · rw [id_cut c hk] at hid
    simp at hid
  rw [id_here, fill_eq_one (by decide)] at hid
  obtain ⟨hread, hlen⟩ := hid
  have hgiven := given_of_read hq' hread
  have hamp : 0x26 ∉ c.given := hgiven ▸ notMem_takeWhile _ _
  have hno : 0x23 ∉ c.given := by
    intro hm
    apply hhash
    rw [← hgiven] at hm
    exact List.mem_append_right _ ((List.takeWhile_prefix _).subset hm)
  rw [hgiven] at hread
  refine ⟨(unescaped_eq_self hamp hno).mp hread, Nat.le_of_succ_le_succ hlen, ?_⟩
  congr 1
  obtain ⟨r, rfl⟩ : c.given <+: q' := hgiven ▸ List.takeWhile_prefix _
  have hr := (List.prefix_append_right_inj _).mp hq'
  congr 1
  rcases c.trail_cases with ⟨hnil, -⟩ | ⟨htrail, s, i, rfl⟩
  · rw [hnil] at hr ⊢
    exact List.prefix_nil.mp hr
  · -- all of the flag is there, since it was read
    rw [htrail] at hr ⊢
    have hflag := h.headers
    simp only [flag, if_true, lead, List.nil_append, given] at hflag hamp
    have hregion : 0x26 ∉ ascii "id=" ++ i := by
      rw [List.mem_append, not_or]
      exact ⟨by decide, hamp⟩
    cases r with
    | nil =>
      rw [List.append_nil, query_of_none hregion (headers_ne_id i)] at hflag
      simp at hflag
    | cons y r =>
      obtain ⟨rfl, hrest⟩ := List.cons_prefix_cons.mp hr
      rw [← List.append_assoc, query_skip hregion (headers_ne_id i)] at hflag
      have hcut : ∀ k < 9, sukkalQueryFromString ((ascii "headers=1").take k) (ascii "headers") 32 ≠
          (1, ascii "1") := by decide
      have hlong : 9 ≤ r.length := by
        by_contra hlt
        rw [List.prefix_iff_eq_take.mp hrest] at hflag
        exact hcut _ (Nat.not_le.mp hlt) hflag
      rw [hrest.eq_of_length_le hlong]

theorem found_of_plain (hp : plainText c.given = true)
    (hl : c.given.length ≤ BJM_DEDUP_ID_MAX) : c.FoundIn c.parameters := by
  obtain ⟨hamp, hhash⟩ := notMem_of_plainText hp
  have hregion : 0x26 ∉ ascii "id=" ++ c.given := by
    rw [List.mem_append, not_or]
    exact ⟨by decide, hamp⟩
  constructor
  · rw [parameters_eq, id_here, fill_eq_one (by decide)]
    have hstop : (c.given ++ c.trail).takeWhile (· != 0x26) = c.given := by
      rcases c.trail_cases with ⟨htrail, -⟩ | ⟨htrail, -⟩
      · rw [htrail, List.append_nil, takeWhile_of_notMem hamp]
      · rw [htrail, List.takeWhile_append_of_pos, List.takeWhile_cons_of_neg (by decide),
          List.append_nil]
        intro y hy
        rw [bne_iff_ne]
        rintro rfl
        exact hamp hy
    rw [hstop]
    exact ⟨(unescaped_eq_self hamp hhash).mpr hp, Nat.succ_le_succ hl⟩
  · cases c with
    | reply s r =>
      exact @query_here (ascii "headers") 32 (by decide) (by decide)
        (ascii "1&id=" ++ ((reply s r).given ++ []))
    | pub s i nhdr =>
      cases nhdr with
      | false =>
        have hnone := query_of_none (n := 32) hregion (headers_ne_id i)
        simpa [parameters, lead, trail, flag] using hnone
      | true =>
        have hskip := query_skip (q := ascii "headers=1") (n := 32) hregion (headers_ne_id i)
        exact hskip

theorem subject_valid (hv : c.Valid) : bjmSubjectValid c.subject = true := by
  cases c with
  | pub s i nhdr => exact hv.1
  | reply s r => exact hv.1

theorem urlQuery_url (hv : c.Valid) {u : Bytes} (hu : c.url b = some u) :
    urlQuery u = (c.parameters.take (urlSize - 1 - (b.text ++ ascii "/pub/" ++ c.subject).length
      - 1)).takeWhile (· != 0x23) := by
  have hname : ∀ x : UInt8, (nameChar x || x == dot) = false →
      x ∉ b.text → x ∉ ascii "/pub/" → x ∉ b.text ++ ascii "/pub/" ++ c.subject := by
    intro x hx hb hpub
    simp only [List.mem_append, not_or]
    refine ⟨⟨hb, hpub⟩, fun hm => ?_⟩
    rw [mem_of_nameBody (nameValid_body (subject_valid hv)) x hm] at hx
    contradiction
  rw [url_eq_some hu, text, urlQuery_take (hname _ (by decide) b.noQuery (by decide))
    (hname _ (by decide) b.noFragment (by decide))]

theorem length_text (b : UrlBase) (c : ClientPublish) : (c.text b).length =
    (b.text ++ ascii "/pub/" ++ c.subject).length + (c.parameters.length + 1) := by
  rw [text, List.length_append, List.length_cons]

theorem urlQuery_whole (hv : c.Valid) (h : c.Conforms b) : urlQuery (c.text b) = c.parameters := by
  have hhash : 0x23 ∉ c.parameters := by
    simp only [parameters, List.mem_append, not_or]
    refine ⟨⟨⟨?_, by decide⟩, (notMem_of_plainText h.plain).2⟩, ?_⟩
    · cases c <;> simp only [lead] <;> decide
    · rcases c.trail_cases with ⟨htrail, -⟩ | ⟨htrail, -⟩ <;> rw [htrail] <;> decide
  have hwhole := h.whole
  rw [length_text] at hwhole
  rw [urlQuery_url hv (url_of_whole h.whole), List.take_of_length_le (by omega),
    takeWhile_of_notMem hhash]

/-- The broker reads back what was given exactly where nothing of it is an escape and the
URL fits. -/
theorem readBack_iff (b : UrlBase) (hv : c.Valid) : c.ReadBack b ↔ c.Conforms b := by
  constructor
  · rintro ⟨u, hu, hfound⟩
    rw [urlQuery_url hv hu] at hfound
    obtain ⟨hplain, hfits, hwhole⟩ := whole_of_found
      ((List.takeWhile_prefix _).trans (List.take_prefix _ _)) (notMem_takeWhile _ _) hfound
    refine ⟨hplain, hfits, ?_⟩
    have hpos : 3 ≤ c.parameters.length := by
      rw [parameters_eq, List.length_append, List.length_append]
      have : (ascii "id=").length = 3 := rfl
      omega
    have hle : c.parameters.length ≤
        urlSize - 1 - (b.text ++ ascii "/pub/" ++ c.subject).length - 1 := by
      rw [← congrArg List.length hwhole]
      exact (List.takeWhile_prefix _).length_le.trans (List.length_take_le _ _)
    rw [length_text]
    omega
  · intro h
    refine ⟨_, url_of_whole h.whole, ?_⟩
    rw [urlQuery_whole hv h]
    exact found_of_plain h.plain h.fits

end ClientPublish

end SukkalMsg
