import SukkalMsg.RequestReply

/-!
# Publishes with headers

A request and a reply are posted with the `headers` flag in front and an id behind it. As
long as the id needs no escapes and the URL fits its buffer, the broker finds the subject,
the flag and the id as they were meant, and no acknowledgement.
-/

namespace SukkalMsg

open Names Binjson Store

variable {V : Vendor}

/-- A subject under a base that leaves room for it. -/
structure Posting (b : UrlBase) (subject id : Bytes) : Prop where
  named : bjmSubjectValid subject = true
  keyed : bjmDedupIdValid id = true
  plain : plainText id = true
  whole : b.text.length + subject.length + id.length + 19 < urlSize

namespace Posting

variable {b : UrlBase} {subject id url : Bytes}

theorem url_eq (h : Posting b subject id)
    (hurl : url = (b.text ++ ascii "/pub/" ++ subject ++ ascii "?headers=1&id=" ++ id).take
      (urlSize - 1)) :
    url = (b.text ++ ascii "/pub/" ++ subject) ++ 0x3F :: (ascii "headers=1&id=" ++ id) := by
  rw [hurl, List.take_of_length_le]
  · simp only [List.append_assoc]
    rfl
  · have h₁ : (ascii "/pub/").length = 5 := rfl
    have h₂ : (ascii "?headers=1&id=").length = 14 := rfl
    have h₃ : urlSize = 1024 := rfl
    have hroom := h.whole
    simp only [List.length_append, h₁, h₂]
    omega

theorem notMem_path (h : Posting b subject id) {x : UInt8} (hx : (nameChar x || x == dot) = false)
    (hb : x ∉ b.text) (hpub : x ∉ ascii "/pub/") : x ∉ b.text ++ ascii "/pub/" ++ subject := by
  simp only [List.mem_append, not_or]
  refine ⟨⟨hb, hpub⟩, fun hm => ?_⟩
  rw [mem_of_nameBody (nameValid_body h.named) x hm] at hx
  contradiction

/-- What the broker is asked, and with which parameters. -/
theorem parts (h : Posting b subject id) (body : Bytes)
    (hurl : url = (b.text ++ ascii "/pub/" ++ subject ++ ascii "?headers=1&id=" ++ id).take
      (urlSize - 1)) :
    urlPath b url = ascii "/pub/" ++ subject ∧
      (postTo b url body).ReadsFrom (ascii "headers=1&id=" ++ id) := by
  have hq := h.notMem_path (x := 0x3F) (by decide) b.noQuery (by decide)
  have hf := h.notMem_path (x := 0x23) (by decide) b.noFragment (by decide)
  have hparams : (0x23 : UInt8) ∉ ascii "headers=1&id=" ++ id := by
    rw [List.mem_append, not_or]
    exact ⟨by decide, (notMem_of_plainText h.plain).2⟩
  have hwhole := h.url_eq hurl
  constructor
  · have hcut : (0x23 : UInt8) ∉
        (b.text ++ ascii "/pub/" ++ subject) ++ 0x3F :: (ascii "headers=1&id=" ++ id) := by
      rw [List.mem_append, List.mem_cons, not_or, not_or]
      exact ⟨hf, by decide, hparams⟩
    rw [urlPath, hwhole, takeWhile_of_notMem hcut, List.takeWhile_append_of_pos,
      List.takeWhile_cons_of_neg (by decide), List.append_nil, List.append_assoc, List.drop_left]
    intro y hy
    rw [bne_iff_ne]
    rintro rfl
    exact hq hy
  · have hquery : urlQuery url = ascii "headers=1&id=" ++ id := by
      rw [hwhole, ← List.take_length (l := _ ++ 0x3F :: _), urlQuery_take hq hf,
        List.take_of_length_le, takeWhile_of_notMem hparams]
      simp only [List.length_append, List.length_cons]
      omega
    intro key
    rw [← hquery]
    rfl

theorem flagged (h : Posting b subject id) (body : Bytes)
    (hurl : url = (b.text ++ ascii "/pub/" ++ subject ++ ascii "?headers=1&id=" ++ id).take
      (urlSize - 1)) : (postTo b url body).queryU64 (ascii "headers") 0 ≠ 0 := by
  have hread : sukkalQueryFromString (ascii "headers" ++ 0x3D :: (ascii "1&id=" ++ id))
      (ascii "headers") 32 = (1, ascii "1") := query_here (by decide) (by decide) _
  have hget := (queryGet_of_readsFrom (h.parts body hurl).2 (ascii "headers")
    (by decide : 0 < 32)).1
  have hsame : ascii "headers=1&id=" ++ id = ascii "headers" ++ 0x3D :: (ascii "1&id=" ++ id) :=
    rfl
  rw [hsame, hread] at hget
  have hone : (postTo b url body).queryGet (ascii "headers") 32 = .value (ascii "1") := hget
  rw [Request.queryU64, hone]
  decide

theorem identified (h : Posting b subject id) (body : Bytes)
    (hurl : url = (b.text ++ ascii "/pub/" ++ subject ++ ascii "?headers=1&id=" ++ id).take
      (urlSize - 1)) : requestId (postTo b url body) = .ok (some id) := by
  have hlen := idValid_length h.keyed
  have hplain := notMem_of_plainText h.plain
  have hread : sukkalQueryFromString (ascii "headers=1" ++ 0x26 :: (ascii "id" ++ 0x3D :: id))
      (ascii "id") (BJM_DEDUP_ID_MAX + 1) = (1, id) := by
    rw [query_skip (by decide) (by decide), query_here (by decide) (by decide),
      takeWhile_of_notMem hplain.1, fill_eq_one (by decide)]
    exact ⟨(unescaped_eq_self hplain.1 hplain.2).mpr h.plain, by omega⟩
  have hget := (queryGet_of_readsFrom (h.parts body hurl).2 (ascii "id")
    (by decide : 0 < BJM_DEDUP_ID_MAX + 1)).1
  have hsame : ascii "headers=1&id=" ++ id =
      ascii "headers=1" ++ 0x26 :: (ascii "id" ++ 0x3D :: id) := rfl
  rw [hsame, hread] at hget
  have hzero : cString id = id := takeWhile_of_notMem
    (ClientPublish.given_noZero (c := .pub subject id false) ⟨h.named, h.keyed⟩)
  have hvalue : (postTo b url body).queryGet (ascii "id") (BJM_DEDUP_ID_MAX + 1) = .value id :=
    hget.trans (by rw [← hzero]; simp [hzero])
  rw [requestId, hvalue]
  simp only [h.keyed, if_true]

/-- No acknowledgement is asked for. -/
theorem unacked (h : Posting b subject id) (body : Bytes)
    (hurl : url = (b.text ++ ascii "/pub/" ++ subject ++ ascii "?headers=1&id=" ++ id).take
      (urlSize - 1)) : (postTo b url body).queryU64 (ascii "ack_index") 0 = 0 := by
  have hplain := notMem_of_plainText h.plain
  have hregion : (0x26 : UInt8) ∉ ascii "id=" ++ id := by
    rw [List.mem_append, not_or]
    exact ⟨by decide, hplain.1⟩
  have hother : valueOf (ascii "ack_index") (ascii "id=" ++ id) = none := by
    have hkey : (ascii "id=" ++ id).takeWhile (· != 0x3D) = ascii "id" :=
      takeWhile_key (by decide : (0x3D : UInt8) ∉ ascii "id")
    rw [valueOf, hkey, if_neg]
    rintro ⟨-, h⟩
    revert h
    decide
  have hread : sukkalQueryFromString (ascii "headers=1" ++ 0x26 :: (ascii "id=" ++ id))
      (ascii "ack_index") 32 = (0, []) := by
    rw [query_skip (by decide) (by decide), query_of_none hregion hother]
  have hget := (queryGet_of_readsFrom (h.parts body hurl).2 (ascii "ack_index")
    (by decide : 0 < 32)).1
  have hsame : ascii "headers=1&id=" ++ id = ascii "headers=1" ++ 0x26 :: (ascii "id=" ++ id) := rfl
  rw [hsame, hread] at hget
  have habsent : (postTo b url body).queryGet (ascii "ack_index") 32 = .absent := hget
  rw [Request.queryU64, habsent]

theorem publication (h : Posting b subject id) {body : Bytes} (hbody : body ≠ [])
    (hsize : V.valueSize body = some body.length) (hshape : bjmEnvelopeShapeOk V body = true)
    (hurl : url = (b.text ++ ascii "/pub/" ++ subject ++ ascii "?headers=1&id=" ++ id).take
      (urlSize - 1)) :
    SukkalMsg.publication V (postTo b url body) =
      .ok ⟨subject, ⟨BJM_ENTRY_ENVELOPE, body⟩, some id⟩ := by
  have hid := h.identified body hurl
  have hsubject : subjectOf (postTo b url body) (ascii "/pub/") = .ok subject := by
    have hdrop : (postTo b url body).path.drop (ascii "/pub/").length = subject := by
      rw [postTo, (h.parts body hurl).1, List.drop_left]
    simp only [subjectOf, hdrop, h.named, if_true]
  have htype : entryType V (postTo b url body) body = .ok BJM_ENTRY_ENVELOPE := by
    simp only [entryType, h.flagged body hurl, if_false, hshape, if_true]
  obtain ⟨c, rest, rfl⟩ := List.exists_cons_of_ne_nil hbody
  have hcontent : (postTo b url (c :: rest)).contentType = some SUKKAL_MEDIA_TYPE := rfl
  have hpayload : (postTo b url (c :: rest)).body = some (c :: rest) := rfl
  simp only [SukkalMsg.publication, hsubject, hcontent, hpayload, ne_eq, not_true_eq_false,
    if_false, hsize, htype, hid]

end Posting

end SukkalMsg
