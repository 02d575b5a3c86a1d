import SukkalMsg.Patterns
import SukkalMsg.PyBinjson
import SukkalMsg.SplitLists

/-!
# The grammar of names and patterns, in any encoding

The broker reads a name as bytes, Python as code points and Node as UTF-16 code units. A
name and a pattern hold ASCII only, so the three say the same of one text.
-/

namespace SukkalMsg

open Names SplitLists PyBinjson

/-- The alphabet of a token: `[A-Za-z0-9_-]`. -/
def nameUnit (n : ℕ) : Bool :=
  (0x61 ≤ n && n ≤ 0x7A) || (0x41 ≤ n && n ≤ 0x5A) || (0x30 ≤ n && n ≤ 0x39) || n == 0x5F ||
    n == 0x2D

/-- One to 128 units of `[A-Za-z0-9_.-]`, no dot at either end, and no two in a row. -/
structure IsName (l : List ℕ) : Prop where
  nonempty : l ≠ []
  short : l.length ≤ 128
  units : ∀ n ∈ l, nameUnit n = true ∨ n = 0x2E
  head : l.head? ≠ some 0x2E
  last : l.getLast? ≠ some 0x2E
  apart : ¬ [0x2E, 0x2E] <:+: l

def asterisk : List ℕ := [0x2A]
def chevron : List ℕ := [0x3E]

/-- One or more units of a token. -/
def IsWord (t : List ℕ) : Prop := t ≠ [] ∧ ∀ n ∈ t, nameUnit n = true

/-- A token of a pattern; `>` is one in the last place only. -/
def IsToken (final : Prop) (t : List ℕ) : Prop := t = asterisk ∨ (t = chevron ∧ final) ∨ IsWord t

/-- Every token, where it stands. -/
def AllTokens (p : Prop → List ℕ → Prop) (ts : List (List ℕ)) : Prop :=
  ∀ pre t suf, ts = pre ++ t :: suf → p (suf = []) t

/-- At most 128 units that split on dots into tokens. -/
structure IsPattern (l : List ℕ) : Prop where
  short : l.length ≤ 128
  tokens : AllTokens IsToken (l.splitOn 0x2E)

/-- The bytes as numbers. -/
def units (b : Bytes) : List ℕ := b.map UInt8.toNat

def codePoints (s : String) : List ℕ := s.toList.map Char.toNat

/-- The UTF-16 code units of a character. -/
def utf16Char (c : Char) : List ℕ :=
  if c.toNat < 0x10000 then [c.toNat]
  else [0xD800 + (c.toNat - 0x10000) / 0x400, 0xDC00 + (c.toNat - 0x10000) % 0x400]

def utf16 (s : String) : List ℕ := s.toList.flatMap utf16Char

theorem nameUnit_lt {n : ℕ} (h : nameUnit n = true) : n < 128 := by
  simp only [nameUnit, Bool.or_eq_true, Bool.and_eq_true, decide_eq_true_eq, beq_iff_eq] at h
  omega

theorem nameUnit_toNat (c : UInt8) : nameUnit c.toNat = nameChar c := by
  revert c
  apply forall_byte
  decide +kernel

theorem allTokens_nil (p : Prop → List ℕ → Prop) : AllTokens p [] := by
  intro pre t suf h
  simp at h

theorem allTokens_cons {p : Prop → List ℕ → Prop} {t : List ℕ} {ts : List (List ℕ)} :
    AllTokens p (t :: ts) ↔ p (ts = []) t ∧ AllTokens p ts := by
  constructor
  · intro h
    refine ⟨h [] t ts rfl, fun pre u suf hts => ?_⟩
    exact h (t :: pre) u suf (by rw [hts, List.cons_append])
  · rintro ⟨ht, hts⟩ pre u suf h
    cases pre with
    | nil =>
      obtain ⟨rfl, rfl⟩ := List.cons.inj h
      exact ht
    | cons v pre => exact hts pre u suf (List.cons.inj h).2

theorem AllTokens.mem {p : Prop → List ℕ → Prop} {ts : List (List ℕ)} (h : AllTokens p ts)
    {t : List ℕ} (ht : t ∈ ts) : ∃ final, p final t := by
  obtain ⟨pre, suf, rfl⟩ := List.append_of_mem ht
  exact ⟨suf = [], h pre t suf rfl⟩

theorem IsToken.lt {final : Prop} {t : List ℕ} (h : IsToken final t) : ∀ n ∈ t, n < 128 := by
  intro n hn
  rcases h with rfl | ⟨rfl, -⟩ | ⟨-, hall⟩
  · simp only [asterisk, List.mem_singleton] at hn
    omega
  · simp only [chevron, List.mem_singleton] at hn
    omega
  · exact nameUnit_lt (hall n hn)

theorem IsToken.ne_nil {final : Prop} {t : List ℕ} (h : IsToken final t) : t ≠ [] := by
  rcases h with rfl | ⟨rfl, -⟩ | ⟨hne, -⟩
  · simp [asterisk]
  · simp [chevron]
  · exact hne

theorem IsName.ascii {l : List ℕ} (h : IsName l) : ∀ n ∈ l, n < 128 := by
  intro n hn
  rcases h.units n hn with hu | rfl
  · exact nameUnit_lt hu
  · omega

theorem IsPattern.ascii {l : List ℕ} (h : IsPattern l) : ∀ n ∈ l, n < 128 := by
  intro n hn
  by_cases hdot : n = 0x2E
  · omega
  · obtain ⟨t, ht, hnt⟩ := mem_part_of_mem hn hdot
    obtain ⟨final, htok⟩ := h.tokens.mem ht
    exact htok.lt n hnt

/-- A pattern without `*` and `>` is a name, and a name is a pattern. -/
theorem isPattern_plain {l : List ℕ} (h : 0x2A ∉ l ∧ 0x3E ∉ l) : IsPattern l ↔ IsName l := by
  constructor
  · intro hp
    have hnil : [] ∉ l.splitOn 0x2E := fun hm => by
      obtain ⟨final, htok⟩ := hp.tokens.mem hm
      exact htok.ne_nil rfl
    rw [nil_mem_parts] at hnil
    push Not at hnil
    obtain ⟨hne, hhead, hlast, happart⟩ := hnil
    refine ⟨hne, hp.short, fun n hn => ?_, hhead, hlast, happart⟩
    by_cases hdot : n = 0x2E
    · exact .inr hdot
    · left
      obtain ⟨t, ht, hnt⟩ := mem_part_of_mem hn hdot
      obtain ⟨final, htok⟩ := hp.tokens.mem ht
      rcases htok with rfl | ⟨rfl, -⟩ | ⟨-, hall⟩
      · exact absurd (List.mem_singleton.mp hnt ▸ hn) h.1
      · exact absurd (List.mem_singleton.mp hnt ▸ hn) h.2
      · exact hall n hnt
  · intro hn
    refine ⟨hn.short, fun pre t suf hts => .inr (.inr ⟨?_, fun n hnt => ?_⟩)⟩
    · rintro rfl
      have hmem : [] ∈ l.splitOn 0x2E := by rw [hts]; simp
      rcases nil_mem_parts.mp hmem with h | h | h | h
      · exact hn.nonempty h
      · exact hn.head h
      · exact hn.last h
      · exact hn.apart h
    · have hmem : t ∈ l.splitOn 0x2E := by rw [hts]; simp
      obtain ⟨hl, hdot⟩ := mem_of_mem_part hmem hnt
      exact (hn.units n hl).resolve_right hdot

theorem nameBody_iff {b : Bytes} : nameBody b = true ↔
    (∀ c ∈ b, nameChar c = true ∨ c = dot) ∧ ¬ [dot, dot] <:+: b := by
  induction b with
  | nil => simp [nameBody]
  | cons c b ih =>
    have hpre : [dot, dot] <+: c :: b ↔ c = dot ∧ b.head? = some dot := by
      cases b with
      | nil => simp [List.cons_prefix_cons]
      | cons d b => simp [List.cons_prefix_cons, eq_comm]
    simp only [nameBody, Bool.and_eq_true, ih, List.infix_cons_iff, hpre, Bool.or_eq_true,
      Bool.not_eq_true', Bool.and_eq_false_iff, beq_iff_eq, beq_eq_false_iff_ne,
      List.forall_mem_cons, not_or, not_and_or, ne_eq]
    tauto

theorem units_dots {b : Bytes} : [0x2E, 0x2E] <:+: units b ↔ [dot, dot] <:+: b := by
  constructor
  · rintro ⟨pre, suf, h⟩
    obtain ⟨x, suf', rfl, hx, hsuf⟩ := List.map_eq_append_iff.mp h.symm
    obtain ⟨pre', dots, rfl, hpre, hdots⟩ := List.map_eq_append_iff.mp hx
    have : dots = [dot, dot] := by
      have hinj : dots.map UInt8.toNat = [dot, dot].map UInt8.toNat := hdots
      exact List.map_injective_iff.mpr (fun a b => UInt8.toNat_inj.mp) hinj
    subst this
    exact ⟨pre', suf', rfl⟩
  · rintro ⟨pre, suf, rfl⟩
    exact ⟨units pre, units suf, by simp [units, dot]⟩

theorem toNat_eq_dot {c : UInt8} : c.toNat = 0x2E ↔ c = dot := by
  constructor
  · intro h
    exact UInt8.toNat_inj.mp h
  · rintro rfl
    rfl

theorem nameValid_iff (b : Bytes) : bjmSubjectValid b = true ↔ IsName (units b) := by
  have hhead : (units b).head? = b.head?.map UInt8.toNat := List.head?_map
  have hlast : (units b).getLast? = b.getLast?.map UInt8.toNat := List.getLast?_map
  have hunit : (∀ n ∈ units b, nameUnit n = true ∨ n = 0x2E) ↔
      ∀ c ∈ b, nameChar c = true ∨ c = dot := by
    simp only [units, List.forall_mem_map, nameUnit_toNat, toNat_eq_dot]
  have hopt : ∀ o : Option UInt8, o.map UInt8.toNat = some 0x2E ↔ o = some dot := by
    intro o
    cases o with
    | none => simp
    | some c => simpa using toNat_eq_dot
  have hne : units b ≠ [] ↔ b ≠ [] := by simp [units]
  have hlen : (units b).length = b.length := by simp [units]
  simp only [bjmSubjectValid, nameValid, Bool.and_eq_true, Bool.not_eq_true', bne_iff_ne, ne_eq,
    decide_eq_true_eq, nameBody_iff]
  constructor
  · rintro ⟨⟨⟨⟨he, hl⟩, hh⟩, ht⟩, hu, ha⟩
    refine ⟨hne.mpr (by simpa using he), hlen.trans_le hl, hunit.mpr hu, ?_, ?_,
      fun h => ha (units_dots.mp h)⟩
    · rw [hhead, ne_eq, hopt]
      exact hh
    · rw [hlast, ne_eq, hopt]
      exact ht
  · intro h
    have hh := h.head
    have ht := h.last
    rw [hhead, ne_eq, hopt] at hh
    rw [hlast, ne_eq, hopt] at ht
    exact ⟨⟨⟨⟨by simpa using hne.mp h.nonempty, hlen.symm.trans_le h.short⟩, hh⟩, ht⟩,
      hunit.mp h.units, fun hin => h.apart (units_dots.mpr hin)⟩

theorem splitOn_units (b : Bytes) :
    (units b).splitOn 0x2E = (b.splitOn dot).map units :=
  splitOn_map (fun _ h => toNat_eq_dot.mp h) b

theorem isWord_units {t : Bytes} : IsWord (units t) ↔ t ≠ [] ∧ t.all nameChar = true := by
  simp only [IsWord, units, ne_eq, List.map_eq_nil_iff, List.forall_mem_map, nameUnit_toNat,
    List.all_eq_true]

theorem units_injective {x y : Bytes} (h : units x = units y) : x = y :=
  List.map_injective_iff.mpr (fun _ _ => UInt8.toNat_inj.mp) h

/-- The loop over the tokens accepts them where they are tokens. -/
theorem tokensValid_iff (ts : List Bytes) :
    tokensValid ts = true ↔ AllTokens IsToken (ts.map units) := by
  have hstar : ∀ t : Bytes, units t = asterisk ↔ t = anyToken := fun t =>
    ⟨fun h => units_injective (h.trans (by decide +kernel)), by rintro rfl; decide +kernel⟩
  have hchevron : ∀ t : Bytes, units t = chevron ↔ t = anyTail := fun t =>
    ⟨fun h => units_injective (h.trans (by decide +kernel)), by rintro rfl; decide +kernel⟩
  induction ts with
  | nil => simp [tokensValid, allTokens_nil]
  | cons t ts ih =>
    have hempty : t.isEmpty = true ↔ t = [] := List.isEmpty_iff
    have hcons : AllTokens IsToken ((t :: ts).map units) ↔
        (t = anyToken ∨ (t = anyTail ∧ ts = []) ∨ t ≠ [] ∧ t.all nameChar = true) ∧
          tokensValid ts = true := by
      simp only [List.map_cons, allTokens_cons, IsToken, hstar, hchevron, isWord_units,
        List.map_eq_nil_iff, ih]
    rw [hcons]
    by_cases hnil : t = []
    · subst hnil
      have hany : ([] : Bytes) ≠ anyToken := by decide +kernel
      have htail : ([] : Bytes) ≠ anyTail := by decide +kernel
      simp [tokensValid, hany, htail]
    · by_cases htail : t = anyTail
      · subst htail
        have hany : anyTail ≠ anyToken := by decide +kernel
        have hword : anyTail.all nameChar = false := by decide +kernel
        simp only [tokensValid, hempty, hnil, if_false, if_true, List.isEmpty_iff, hany, hword,
          true_and, false_or, or_false, Bool.false_eq_true, and_false]
        constructor
        · rintro rfl
          exact ⟨rfl, rfl⟩
        · exact fun h => h.1
      · simp [tokensValid, hempty, hnil, htail]

/-- The text ends with a dot that the tokeniser cannot see. -/
def EndsOpen (l : List ℕ) : Prop := l.length ≤ 128 ∧ ∃ u, l = u ++ [0x2E] ∧ IsPattern u

theorem EndsOpen.not_isPattern {l : List ℕ} (h : EndsOpen l) : ¬ IsPattern l := by
  rintro ⟨-, htok⟩
  obtain ⟨-, u, rfl, -⟩ := h
  have hmem : [] ∈ (u ++ [0x2E]).splitOn 0x2E := by simp [splitOn_concat]
  obtain ⟨final, ht⟩ := htok.mem hmem
  exact ht.ne_nil rfl

/-- `bjm_pattern_valid` accepts the patterns, and those with one more dot behind. -/
theorem patternValid_iff (b : Bytes) :
    bjmPatternValid b = true ↔ IsPattern (units b) ∨ EndsOpen (units b) := by
  have hlen : (units b).length = b.length := by simp [units]
  simp only [bjmPatternValid, Bool.and_eq_true, Bool.not_eq_true', decide_eq_true_eq,
    tokensValid_iff]
  have hsplit := splitOn_dot b
  constructor
  · rintro ⟨⟨hne, hl⟩, hv⟩
    have hshort : (units b).length ≤ 128 := hlen.trans_le hl
    by_cases hlast : b.getLast? = some dot
    · obtain ⟨u, rfl⟩ := List.getLast?_eq_some_iff.mp hlast
      have htokens : tokens (u ++ [dot]) = u.splitOn dot := by
        rw [splitOn_concat, if_pos (.inr hlast)] at hsplit
        exact (List.append_cancel_right hsplit).symm
      refine .inr ⟨hshort, units u, by simp [units, dot], ?_, ?_⟩
      · simp only [units, List.length_map, List.length_append, List.length_singleton] at hshort ⊢
        omega
      · rwa [splitOn_units, ← htokens]
    · have hno : ¬ (b = [] ∨ b.getLast? = some dot) := by
        rintro (rfl | h)
        · contradiction
        · exact hlast h
      rw [if_neg hno, List.append_nil] at hsplit
      exact .inl ⟨hshort, by rwa [splitOn_units, hsplit]⟩
  · rintro (h | ⟨hl, u, hu, hp⟩)
    · have hnil : [] ∉ b.splitOn dot := fun hm => by
        obtain ⟨final, ht⟩ := h.tokens.mem (t := []) (by
          rw [splitOn_units]
          exact List.mem_map.mpr ⟨[], hm, rfl⟩)
        exact ht.ne_nil rfl
      have htokens := splitOn_dot_of_full fun t ht he => hnil (he ▸ ht)
      refine ⟨⟨?_, hlen.symm.trans_le h.short⟩, ?_⟩
      · cases b with
        | nil => simp at hnil
        | cons c b => rfl
      · rw [← htokens, ← splitOn_units]
        exact h.tokens
    · obtain ⟨u', d, rfl, rfl, hd⟩ := List.map_eq_append_iff.mp hu
      have hdot : d = [dot] := units_injective hd
      subst hdot
      have htokens : tokens (u' ++ [dot]) = u'.splitOn dot := by
        rw [splitOn_concat, if_pos (.inr (List.getLast?_concat ..))] at hsplit
        exact (List.append_cancel_right hsplit).symm
      refine ⟨⟨by simp, hlen.symm.trans_le hl⟩, ?_⟩
      rw [htokens, ← splitOn_units]
      exact hp.tokens

theorem utf8_eq (s : String) : utf8 s = s.toList.flatMap String.utf8EncodeChar := by
  rw [utf8, ← String.utf8Encode_toList, List.utf8Encode, List.toList_data_toByteArray]

theorem utf8Char_ascii {c : Char} (h : c.toNat < 128) : units (String.utf8EncodeChar c) = [c.toNat] := by
  have hle : c.val.toNat ≤ 0x7F := Nat.lt_succ_iff.mp h
  simp only [String.utf8EncodeChar, if_pos hle, units, List.map_singleton, UInt8.toNat_ofNat']
  have hmod : c.val.toNat % 2 ^ 8 = c.val.toNat := Nat.mod_eq_of_lt (by omega)
  rw [hmod]
  rfl

theorem utf8Char_beyond {c : Char} (h : ¬ c.toNat < 128) :
    ∃ n ∈ units (String.utf8EncodeChar c), ¬ n < 128 := by
  have hle : ¬ c.val.toNat ≤ 0x7F := fun hle => h (Nat.lt_succ_iff.mpr hle)
  simp only [String.utf8EncodeChar, if_neg hle]
  split
  · refine ⟨_, List.mem_map.mpr ⟨_, List.mem_cons_self, rfl⟩, ?_⟩
    rw [UInt8.toNat_ofNat']
    omega
  · split
    · refine ⟨_, List.mem_map.mpr ⟨_, List.mem_cons_self, rfl⟩, ?_⟩
      rw [UInt8.toNat_ofNat']
      omega
    · refine ⟨_, List.mem_map.mpr ⟨_, List.mem_cons_self, rfl⟩, ?_⟩
      rw [UInt8.toNat_ofNat']
      omega

theorem utf16Char_beyond {c : Char} (h : ¬ c.toNat < 128) : ∃ n ∈ utf16Char c, ¬ n < 128 := by
  simp only [utf16Char]
  split
  · exact ⟨_, List.mem_singleton_self _, h⟩
  · exact ⟨_, List.mem_cons_self, by omega⟩

/-- What holds of ASCII texts only holds of a text in one encoding as in another. -/
theorem same_units {p : List ℕ → Prop} (hp : ∀ l, p l → ∀ n ∈ l, n < 128) (s : String) :
    (p (units (utf8 s)) ↔ p (codePoints s)) ∧ (p (utf16 s) ↔ p (codePoints s)) := by
  have hcode : (∀ n ∈ codePoints s, n < 128) ↔ ∀ c ∈ s.toList, c.toNat < 128 := by
    simp [codePoints]
  have heq : (∀ c ∈ s.toList, c.toNat < 128) →
      units (utf8 s) = codePoints s ∧ utf16 s = codePoints s := by
    rw [utf8_eq, utf16, codePoints]
    generalize s.toList = cs
    intro h
    induction cs with
    | nil => exact ⟨rfl, rfl⟩
    | cons c cs ih =>
      obtain ⟨h8, h16⟩ := ih fun d hd => h d (List.mem_cons_of_mem _ hd)
      have hc := h c List.mem_cons_self
      have hsmall : c.toNat < 0x10000 := by omega
      constructor
      · rw [List.flatMap_cons, units, List.map_append, List.map_cons, ← h8]
        exact congrArg (· ++ _) (utf8Char_ascii hc)
      · rw [List.flatMap_cons, List.map_cons, h16, utf16Char, if_pos hsmall, List.singleton_append]
  have h8 : (∀ n ∈ units (utf8 s), n < 128) → ∀ c ∈ s.toList, c.toNat < 128 := by
    intro h c hc
    by_contra hbeyond
    obtain ⟨n, hn, hlarge⟩ := utf8Char_beyond hbeyond
    obtain ⟨b, hb, rfl⟩ := List.mem_map.mp hn
    refine hlarge (h _ (List.mem_map.mpr ⟨b, ?_, rfl⟩))
    rw [utf8_eq]
    exact List.mem_flatMap.mpr ⟨c, hc, hb⟩
  have h16 : (∀ n ∈ utf16 s, n < 128) → ∀ c ∈ s.toList, c.toNat < 128 := by
    intro h c hc
    by_contra hbeyond
    obtain ⟨n, hn, hlarge⟩ := utf16Char_beyond hbeyond
    exact hlarge (h n (List.mem_flatMap.mpr ⟨c, hc, hn⟩))
  refine ⟨⟨fun h => ?_, fun h => ?_⟩, ⟨fun h => ?_, fun h => ?_⟩⟩
  · exact (heq (h8 (hp _ h))).1 ▸ h
  · exact (heq (hcode.mp (hp _ h))).1.symm ▸ h
  · exact (heq (h16 (hp _ h))).2 ▸ h
  · exact (heq (hcode.mp (hp _ h))).2.symm ▸ h

end SukkalMsg
