import SukkalMsg.QueryStrings

/-!
# Form encoding, and that the reader undoes it

A value may be written in many ways: each byte as it is, unless it separates or escapes,
as `%` and two digits of either case, or as `+` for a space. Whichever is taken, the
reader finds the first pair with its key and gives back the bytes of the value, as far
as the buffer holds them.
-/

namespace SukkalMsg

open Names

def IsHexDigit (c : UInt8) (d : ℕ) : Prop :=
  (ascii "0123456789abcdef")[d]? = some c ∨ (ascii "0123456789ABCDEF")[d]? = some c

/-- The text is one of the encodings of the value. -/
inductive FormEncoded : Bytes → Bytes → Prop where
  | nil : FormEncoded [] []
  | plain {c : UInt8} {v e : Bytes} : c ≠ 0x26 → c ≠ 0x25 → c ≠ 0x2B → FormEncoded v e →
      FormEncoded (c :: v) (c :: e)
  | percent {c hi lo : UInt8} {v e : Bytes} : IsHexDigit hi (c.toNat / 16) →
      IsHexDigit lo (c.toNat % 16) → FormEncoded v e → FormEncoded (c :: v) (0x25 :: hi :: lo :: e)
  | plus {v e : Bytes} : FormEncoded v e → FormEncoded (0x20 :: v) (0x2B :: e)

/-- Letters, digits and `-`, `.`, `_`, `~`. -/
def unreserved (c : UInt8) : Bool := nameChar c || c == dot || c == 0x7E

/-- One pair, and the text it is sent as. -/
structure FormPair where
  key : Bytes
  value : Bytes
  text : Bytes
  named : key ≠ []
  plainKey : key.all unreserved = true
  noZero : 0 ∉ value
  encoded : FormEncoded value text

namespace FormPair

def region (p : FormPair) : Bytes := p.key ++ 0x3D :: p.text

end FormPair

/-- The pairs joined by `&`. -/
def formQuery (ps : List FormPair) : Bytes := [0x26].intercalate (ps.map FormPair.region)

/-- What the reader is to answer: the value of the first pair with the key. -/
def firstValue (ps : List FormPair) (key : Bytes) : Option Bytes :=
  (ps.find? (·.key = key)).map FormPair.value

theorem unhex_of_isHexDigit {c : UInt8} {d : ℕ} (h : IsHexDigit c d) : unhex c = some d := by
  have hall : ∀ d : Fin 16, ∀ t ∈ [ascii "0123456789abcdef", ascii "0123456789ABCDEF"],
      ∀ c, t[d.val]? = some c → unhex c = some d.val := by decide +kernel
  have hlt : d < 16 := by
    rcases h with h | h <;> exact (List.getElem?_eq_some_iff.mp h).1
  rcases h with h | h
  · exact hall ⟨d, hlt⟩ _ (by simp) c h
  · exact hall ⟨d, hlt⟩ _ (by simp) c h

theorem unreserved_ne {c : UInt8} (h : unreserved c = true) : c ≠ 0x26 ∧ c ≠ 0x3D := by
  refine ⟨?_, ?_⟩ <;> rintro rfl <;> exact absurd h (by decide)

namespace FormEncoded

variable {v e : Bytes}

theorem unescaped_eq (h : FormEncoded v e) : unescaped 0 e = v := by
  induction h with
  | nil => rfl
  | plain hamp hpct hplus _ ih => simp [unescaped, unescape, hpct, hplus, ih]
  | @percent c hi lo v e hhi hlo _ ih =>
    have hback : UInt8.ofNat (c.toNat / 16 * 16 + c.toNat % 16) = c := by
      rw [Nat.div_add_mod', UInt8.ofNat_toNat]
    simp [unescaped, unescape, unhex_of_isHexDigit hhi, unhex_of_isHexDigit hlo, hback, ih]
  | plus _ ih => simp [unescaped, unescape, ih]

theorem amp_notMem (h : FormEncoded v e) : 0x26 ∉ e := by
  have hdigit : ∀ {c : UInt8} {d : ℕ}, IsHexDigit c d → c ≠ 0x26 := by
    rintro c d hd rfl
    have := unhex_of_isHexDigit hd
    contradiction
  induction h with
  | nil => simp
  | plain hamp _ _ _ ih => simp [Ne.symm hamp, ih]
  | percent hhi hlo _ ih => simp [Ne.symm (hdigit hhi), Ne.symm (hdigit hlo), ih]
  | plus _ ih => simp [ih]

end FormEncoded

theorem regions_append {r q : Bytes} (h : 0x26 ∉ r) :
    regions (r ++ 0x26 :: q) = r :: regions q := by
  induction r with
  | nil => rfl
  | cons c r ih =>
    rw [List.mem_cons, not_or] at h
    simp only [List.cons_append, regions, if_neg (Ne.symm h.1), ih h.2]

theorem regions_of_notMem {r : Bytes} (h : 0x26 ∉ r) : regions r = [r] := by
  induction r with
  | nil => rfl
  | cons c r ih =>
    rw [List.mem_cons, not_or] at h
    simp only [regions, if_neg (Ne.symm h.1), ih h.2]

theorem FormPair.amp_notMem (p : FormPair) : 0x26 ∉ p.region := by
  simp only [FormPair.region, List.mem_append, List.mem_cons, not_or]
  refine ⟨fun hm => ?_, by decide, p.encoded.amp_notMem⟩
  exact (unreserved_ne (List.all_eq_true.mp p.plainKey _ hm)).1 rfl

theorem regions_formQuery {p : FormPair} {ps : List FormPair} :
    regions (formQuery (p :: ps)) = (p :: ps).map FormPair.region := by
  induction ps generalizing p with
  | nil =>
    rw [formQuery, List.map_singleton, List.intercalate_singleton]
    exact regions_of_notMem p.amp_notMem
  | cons p' ps ih =>
    have hjoin : formQuery (p :: p' :: ps) = p.region ++ 0x26 :: formQuery (p' :: ps) := by
      simp [formQuery, List.intercalate]
    rw [hjoin, regions_append p.amp_notMem, ih]
    rfl

theorem takeWhile_key {k t : Bytes} (h : (0x3D : UInt8) ∉ k) :
    (k ++ 0x3D :: t).takeWhile (· != 0x3D) = k := by
  induction k with
  | nil => simp
  | cons c k ih =>
    rw [List.mem_cons, not_or] at h
    simp [Ne.symm h.1, ih h.2]

/-- The reader's outer loop, the cursor moving from region to region. -/
def queryFrom (key : Bytes) (size : ℕ) (p : Bytes) : ℤ × Bytes :=
  if p = [] then (0, [])
  else
    let region := p.takeWhile (· != 0x26)
    match valueOf key region with
    | some v => fill size 0 v []
    | none => if region.length = p.length then (0, []) else queryFrom key size (p.drop (region.length + 1))
termination_by p.length
decreasing_by
  have := List.length_pos_of_ne_nil ‹_›
  rw [List.length_drop]
  omega

theorem region_cases (p : Bytes) :
    (p.takeWhile (· != 0x26)).length = p.length ∧ regions p = [p.takeWhile (· != 0x26)] ∨
      (p.takeWhile (· != 0x26)).length ≠ p.length ∧
        regions p = p.takeWhile (· != 0x26) ::
          regions (p.drop ((p.takeWhile (· != 0x26)).length + 1)) := by
  induction p with
  | nil => exact .inl ⟨rfl, rfl⟩
  | cons c p ih =>
    by_cases hc : c = 0x26
    · subst hc
      right
      simp [regions]
    · have htake : (c :: p).takeWhile (· != 0x26) = c :: p.takeWhile (· != 0x26) := by simp [hc]
      rw [htake, List.length_cons, List.length_cons, List.drop_succ_cons, regions, if_neg hc]
      rcases ih with ⟨hlen, hone⟩ | ⟨hlen, hmore⟩
      · exact .inl ⟨by rw [hlen], by rw [hone]⟩
      · refine .inr ⟨by omega, ?_⟩
        rw [hmore]

theorem queryFrom_eq (key : Bytes) (size : ℕ) (q : Bytes) :
    queryFrom key size q = sukkalQueryFromString q key size := by
  fun_induction queryFrom key size q with
  | case1 => simp [sukkalQueryFromString, regions, valueOf]
  | case2 p hne region v hv =>
    have hfirst : (regions p).findSome? (valueOf key) = some v := by
      rcases region_cases p with ⟨-, h⟩ | ⟨-, h⟩ <;> rw [h] <;> simp [hv, region]
    simp only [sukkalQueryFromString, hfirst]
  | case3 p hne region hv hlen =>
    have hone : regions p = [region] := by
      rcases region_cases p with ⟨-, h⟩ | ⟨h, -⟩
      · exact h
      · exact absurd hlen h
    simp only [sukkalQueryFromString, hone, List.findSome?_cons, hv, List.findSome?_nil]
  | case4 p hne region hv hlen ih =>
    have hmore : regions p = region :: regions (p.drop (region.length + 1)) := by
      rcases region_cases p with ⟨h, -⟩ | ⟨-, h⟩
      · exact absurd h hlen
      · exact h
    rw [ih]
    simp only [sukkalQueryFromString, hmore, List.findSome?_cons, hv]

theorem valueOf_region (p : FormPair) (key : Bytes) :
    valueOf key p.region = if p.key = key then some p.text else none := by
  have hkey : (0x3D : UInt8) ∉ p.key := fun hm =>
    (unreserved_ne (List.all_eq_true.mp p.plainKey _ hm)).2 rfl
  have hmem : (0x3D : UInt8) ∈ p.region := by simp [FormPair.region]
  simp only [valueOf, hmem, true_and]
  rw [FormPair.region, takeWhile_key hkey]
  split
  · rename_i h
    subst h
    simp
  · rfl

theorem findSome?_formQuery (ps : List FormPair) (key : Bytes) :
    (regions (formQuery ps)).findSome? (valueOf key) =
      (ps.find? (·.key = key)).map FormPair.text := by
  cases ps with
  | nil => simp [formQuery, regions, valueOf]
  | cons p ps =>
    rw [regions_formQuery]
    generalize p :: ps = ps
    induction ps with
    | nil => rfl
    | cons p ps ih =>
      rw [List.map_cons, List.findSome?_cons, valueOf_region, List.find?_cons]
      by_cases h : p.key = key
      · simp [h]
      · simp [h, ih]

/-- The reader answers with the first pair of its key, or that it does not fit, or that
there is none; and whatever the query, it stays within its buffer. -/
theorem form_decoded (ps : List FormPair) (key : Bytes) {n : ℕ} (hn : 1 ≤ n) :
    (match firstValue ps key with
      | none => (sukkalQueryFromString (formQuery ps) key n).1 = 0
      | some v =>
        if v.length + 1 ≤ n then sukkalQueryFromString (formQuery ps) key n = (1, v)
        else (sukkalQueryFromString (formQuery ps) key n).1 = -1) ∧
    ∀ q, (sukkalQueryFromString q key n).2.length + 1 ≤ n := by
  constructor
  · simp only [firstValue, sukkalQueryFromString, findSome?_formQuery]
    cases ps.find? (·.key = key) with
    | none => rfl
    | some p =>
      simp only [Option.map_some, fill_eq [] hn, List.nil_append, p.encoded.unescaped_eq]
      by_cases hfits : p.value.length + 1 ≤ n
      · simp [hfits, Nat.not_lt.mpr hfits]
      · simp [hfits, Nat.lt_of_not_le hfits]
  · intro q
    simp only [sukkalQueryFromString]
    cases (regions q).findSome? (valueOf key) with
    | none => simpa using hn
    | some v =>
      simp only [fill_eq [] hn, List.nil_append]
      split
      · simp only [List.length_take]
        omega
      · simp only
        omega

/-- `from=2` and `pattern=>`, the second escaped. -/
def readQuery : List FormPair :=
  [⟨ascii "from", ascii "2", ascii "2", by decide +kernel, by decide +kernel, by decide +kernel,
      .plain (by decide) (by decide) (by decide) .nil⟩,
    ⟨ascii "pattern", ascii ">", ascii "%3E", by decide +kernel, by decide +kernel,
      by decide +kernel, .percent (.inl (by decide +kernel)) (.inr (by decide +kernel)) .nil⟩]

theorem readQuery_decoded :
    sukkalQueryFromString (formQuery readQuery) (ascii "pattern") 2 = (1, ascii ">") := by
  obtain ⟨hread, -⟩ := form_decoded readQuery (ascii "pattern") (by decide : 1 ≤ 2)
  exact hread

end SukkalMsg
