import SukkalMsg.PublishHandler

/-!
# The idempotency key of a pipeline stage

A stage publishes its output under `"<consumer>.<subject>.<index>"`, so that a
rerun of the same input collapses onto what the first run published. The command
line client prints the key into a buffer of fixed size, the Python and Node
clients send it whole. Names contain dots themselves, so a key can be read in
more than one way.
-/

namespace SukkalMsg

open Names Binjson

/-- A message a stage runs on: who reads, from which subject, at which index. -/
structure StageInput where
  consumer : Bytes
  subject : Bytes
  index : ℕ
  consumer_valid : bjmConsumerValid consumer = true
  subject_valid : bjmSubjectValid subject = true
  index_pos : 0 < index

inductive StageClient where
  | commandLine
  | python
  | node
  deriving DecidableEq

def pipeText (consumer subject : Bytes) (index : ℕ) : Bytes :=
  consumer ++ dot :: (subject ++ dot :: decimalText index)

/-- The key of `pipe_one`, as its buffer holds it. -/
def pipeOneKey (consumer subject : Bytes) (index : ℕ) : Bytes :=
  (pipeText consumer subject index).take BJM_DEDUP_ID_MAX

/-- The key of the Python client's `Client.pipe`. -/
def pythonPipeKey (consumer subject : Bytes) (index : ℕ) : Bytes :=
  pipeText consumer subject index

/-- The key of the Node client's `pipe`. -/
def nodePipeKey (consumer subject : Bytes) (index : ℕ) : Bytes :=
  pipeText consumer subject index

def StageClient.pipeKey : StageClient → Bytes → Bytes → ℕ → Bytes
  | .commandLine => pipeOneKey
  | .python => pythonPipeKey
  | .node => nodePipeKey

namespace StageInput

def text (x : StageInput) : Bytes := pipeText x.consumer x.subject x.index

def key (k : StageClient) (x : StageInput) : Bytes := k.pipeKey x.consumer x.subject x.index

end StageInput

/-- The broker takes the key, sent as `id`, for the id of the publish. -/
def UsedAsId (key : Bytes) : Prop :=
  ∀ req : Request, req.query (ascii "id") = some key → requestId req = .ok (some key)

theorem usedAsId_iff {key : Bytes} : UsedAsId key ↔ bjmDedupIdValid key = true := by
  constructor
  · intro h
    have hreq := h ⟨[], none, none, fun _ => some key⟩ rfl
    simp only [requestId, Request.queryGet] at hreq
    split at hreq
    · rename_i id _
      split at hreq
      · rename_i hv
        rwa [Option.some.inj (Except.ok.inj hreq)] at hv
      · contradiction
    · simp at hreq
  · intro h req hreq
    have hlen : ¬ key.length + 1 > BJM_DEDUP_ID_MAX + 1 := by
      have := idValid_length h
      omega
    have hzero : cString key = key := by
      have hall : ∀ c ∈ key, (c != 0) = true := by
        intro c hc
        simp only [bjmDedupIdValid, Bool.and_eq_true, List.all_eq_true] at h
        rw [bne_iff_ne]
        rintro rfl
        exact absurd (h.2 0 hc) (by decide)
      have htake : (key ++ []).takeWhile (· != 0) = key ++ [].takeWhile (· != 0) :=
        List.takeWhile_append_of_pos hall
      simpa [cString] using htake
    simp [requestId, Request.queryGet, hreq, hlen, hzero, h]

theorem printable_of_char {c : UInt8} (h : (nameChar c || c == dot) = true) :
    (!(c == slash || c < 0x20 || c == 0x7F)) = true := by
  have hlow : 0x2D ≤ c.toNat ∧ c.toNat ≤ 0x7A ∧ c.toNat ≠ 0x2F := by
    simp only [nameChar, dot, Bool.or_eq_true, Bool.and_eq_true, decide_eq_true_eq, beq_iff_eq,
      UInt8.le_iff_toNat_le, ← UInt8.toNat_inj, UInt8.reduceToNat] at h
    omega
  simp only [slash, Bool.not_eq_true', Bool.or_eq_false_iff, beq_eq_false_iff_ne, ne_eq,
    decide_eq_false_iff_not, UInt8.lt_iff_toNat_lt, ← UInt8.toNat_inj, UInt8.reduceToNat]
  omega

theorem idValid_of_chars {key : Bytes} (hne : key ≠ []) (hl : key.length ≤ BJM_DEDUP_ID_MAX)
    (hc : ∀ c ∈ key, (nameChar c || c == dot) = true) : bjmDedupIdValid key = true := by
  simp only [bjmDedupIdValid, Bool.and_eq_true, decide_eq_true_eq, List.all_eq_true]
  exact ⟨⟨by simpa using hne, hl⟩, fun c h => printable_of_char (hc c h)⟩

namespace StageInput

theorem chars_text (x : StageInput) : ∀ c ∈ x.text, (nameChar c || c == dot) = true := by
  have hdigit : ∀ c : UInt8, isDigit c = true → (nameChar c || c == dot) = true := by
    intro c hc
    simp only [isDigit] at hc
    simp [nameChar, hc]
  intro c hc
  simp only [text, pipeText, List.mem_append, List.mem_cons] at hc
  rcases hc with hc | rfl | hc | rfl | hc
  · exact mem_of_nameBody (nameValid_body x.consumer_valid) c hc
  · decide
  · exact mem_of_nameBody (nameValid_body x.subject_valid) c hc
  · decide
  · exact hdigit c (isDigit_of_mem_decimalText hc)

theorem text_ne_nil (x : StageInput) : x.text ≠ [] := by
  simp [text, pipeText]

theorem key_eq_text {x : StageInput} (h : x.text.length ≤ BJM_DEDUP_ID_MAX) (k : StageClient) :
    x.key k = x.text := by
  cases k with
  | commandLine => exact List.take_of_length_le h
  | python => rfl
  | node => rfl

theorem text_eq_of_key {x : StageInput} {k : StageClient} {t : Bytes} (h : x.key k = t)
    (ht : t.length < BJM_DEDUP_ID_MAX) : x.text = t := by
  rw [← key_eq_text _ k]
  · exact h
  · cases k with
    | commandLine =>
      have hlen : (x.text.take BJM_DEDUP_ID_MAX).length < BJM_DEDUP_ID_MAX :=
        Nat.lt_of_le_of_lt (Nat.le_of_eq (congrArg List.length h)) ht
      rw [List.length_take] at hlen
      omega
    | python =>
      rw [show x.text = t from h]
      omega
    | node =>
      rw [show x.text = t from h]
      omega

theorem ext {x y : StageInput} (hc : x.consumer = y.consumer) (hs : x.subject = y.subject)
    (hi : x.index = y.index) : x = y := by
  cases x
  cases y
  simp only at hc hs hi
  subst hc hs hi
  rfl

theorem count_dot_text (x : StageInput) :
    x.text.count dot = x.consumer.count dot + x.subject.count dot + 2 := by
  have hdigits : (decimalText x.index).count dot = 0 := by
    rw [List.count_eq_zero]
    intro h
    exact absurd (isDigit_of_mem_decimalText h) (by decide)
  simp only [text, pipeText, List.count_append, List.count_cons_self, hdigits]
  omega

theorem eq_of_text {x y : StageInput} (hc : dot ∉ x.consumer) (hs : dot ∉ x.subject)
    (h : y.text = x.text) : y = x := by
  have hcount := count_dot_text y
  rw [h, count_dot_text, List.count_eq_zero.mpr hc, List.count_eq_zero.mpr hs] at hcount
  have hyc : dot ∉ y.consumer := List.count_eq_zero.mp (by omega)
  have hys : dot ∉ y.subject := List.count_eq_zero.mp (by omega)
  obtain ⟨hconsumer, hrest⟩ := split_at_mark hyc hc h
  obtain ⟨hsubject, hdigits⟩ := split_at_mark hys hs hrest
  exact ext hconsumer hsubject (decimalText_injective hdigits)

theorem exists_other {x : StageInput} (hlen : x.text.length < BJM_DEDUP_ID_MAX)
    (hdot : dot ∈ x.consumer ∨ dot ∈ x.subject) : ∃ y : StageInput, y.text = x.text ∧ y ≠ x := by
  obtain ⟨c, s, i, hcv, hsv, hi⟩ := x
  simp only [text, pipeText, List.length_append, List.length_cons] at hlen hdot
  rcases hdot with hd | hd
  · obtain ⟨c₁, c₂, rfl⟩ := List.append_of_mem hd
    obtain ⟨h₁, h₂, -⟩ := nameValid_join.mp hcv
    have hjoin : bjmSubjectValid (c₂ ++ dot :: s) = true := by
      refine nameValid_join.mpr ⟨h₂, hsv, ?_⟩
      simp only [List.length_append, List.length_cons, BJM_DEDUP_ID_MAX] at hlen ⊢
      simp only [BJM_SUBJECT_MAX]
      omega
    refine ⟨⟨c₁, c₂ ++ dot :: s, i, h₁, hjoin, hi⟩, by simp [text, pipeText], fun he => ?_⟩
    have hlens := congrArg (fun y => y.consumer.length) he
    simp at hlens
  · obtain ⟨s₁, s₂, rfl⟩ := List.append_of_mem hd
    obtain ⟨h₁, h₂, -⟩ := nameValid_join.mp hsv
    have hjoin : bjmConsumerValid (c ++ dot :: s₁) = true := by
      refine nameValid_join.mpr ⟨hcv, h₁, ?_⟩
      simp only [List.length_append, List.length_cons, BJM_DEDUP_ID_MAX] at hlen ⊢
      simp only [BJM_CONSUMER_MAX]
      omega
    refine ⟨⟨c ++ dot :: s₁, s₂, i, hjoin, h₂, hi⟩, by simp [text, pipeText], fun he => ?_⟩
    have hlens := congrArg (fun y => y.consumer.length) he
    simp at hlens

def tenfold (x : StageInput) : StageInput :=
  { x with index := 10 * x.index, index_pos := Nat.mul_pos (by decide) x.index_pos }

theorem tenfold_ne (x : StageInput) : x.tenfold ≠ x := by
  intro h
  have hi := congrArg StageInput.index h
  have hpos := x.index_pos
  simp only [tenfold] at hi
  omega

theorem key_tenfold {x : StageInput} (h : BJM_DEDUP_ID_MAX ≤ x.text.length) :
    x.tenfold.key .commandLine = x.key .commandLine := by
  have htext : x.tenfold.text = x.text ++ decimalText 0 := by
    simp [text, pipeText, tenfold, decimalText_mul_ten x.index_pos]
  change x.tenfold.text.take BJM_DEDUP_ID_MAX = x.text.take BJM_DEDUP_ID_MAX
  rw [htext, List.take_append_of_le_length h]

end StageInput

/-- The key of an input is used as its id and belongs to no other input, of any
client, exactly when neither name has a dot and the text is shorter than the buffer. -/
theorem stage_key_iff (k : StageClient) (x : StageInput) :
    (UsedAsId (x.key k) ∧ ∀ (k' : StageClient) (y : StageInput), y.key k' = x.key k → y = x) ↔
      dot ∉ x.consumer ∧ dot ∉ x.subject ∧ x.text.length < BJM_DEDUP_ID_MAX := by
  constructor
  · rintro ⟨hused, honly⟩
    by_cases hlen : x.text.length < BJM_DEDUP_ID_MAX
    · have hkey := fun y : StageInput => fun h : y.text = x.text =>
        honly k y (by
          rw [x.key_eq_text (Nat.le_of_lt hlen), y.key_eq_text (h ▸ Nat.le_of_lt hlen), h])
      refine ⟨fun hd => ?_, fun hd => ?_, hlen⟩
      · obtain ⟨y, hy, hne⟩ := StageInput.exists_other hlen (.inl hd)
        exact hne (hkey y hy)
      · obtain ⟨y, hy, hne⟩ := StageInput.exists_other hlen (.inr hd)
        exact hne (hkey y hy)
    · -- the command line client sends the same 128 bytes for a later input
      have hcut : x.key k = x.key .commandLine := by
        have hfits := idValid_length (usedAsId_iff.mp hused)
        cases k with
        | commandLine => rfl
        | python => exact (List.take_of_length_le hfits).symm
        | node => exact (List.take_of_length_le hfits).symm
      exact absurd (honly .commandLine x.tenfold
        ((StageInput.key_tenfold (by omega)).trans hcut.symm)) x.tenfold_ne
  · rintro ⟨hc, hs, hlen⟩
    have hkey := x.key_eq_text (Nat.le_of_lt hlen) k
    rw [hkey]
    refine ⟨usedAsId_iff.mpr (idValid_of_chars x.text_ne_nil (Nat.le_of_lt hlen) x.chars_text),
      fun k' y hy => ?_⟩
    exact StageInput.eq_of_text hc hs (StageInput.text_eq_of_key hy hlen)

/-- Consumer `a.b` on subject `c`. -/
def dottedConsumer : StageInput := ⟨ascii "a.b", ascii "c", 1, by decide, by decide, by decide⟩

/-- Consumer `a` on subject `b.c`. -/
def dottedSubject : StageInput := ⟨ascii "a", ascii "b.c", 1, by decide, by decide, by decide⟩

/-- Two stages, whatever their clients, have one key for two inputs. -/
theorem dotted_keys_collide :
    (∀ k k', dottedConsumer.key k = dottedSubject.key k') ∧ dottedConsumer ≠ dottedSubject ∧
      ¬ ∀ (k k' : StageClient) (x y : StageInput),
        UsedAsId (x.key k) ∧ (x.key k = y.key k' → x = y) := by
  have hkeys : ∀ k k', dottedConsumer.key k = dottedSubject.key k' := by
    intro k k'
    rw [StageInput.key_eq_text (by decide), StageInput.key_eq_text (by decide)]
    rfl
  have hne : dottedConsumer ≠ dottedSubject := by
    intro h
    exact absurd (congrArg StageInput.consumer h) (by decide)
  exact ⟨hkeys, hne, fun h => hne ((h .node .node _ _).2 (hkeys _ _))⟩

end SukkalMsg
