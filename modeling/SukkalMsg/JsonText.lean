import Mathlib.Data.List.Basic
import Mathlib.Data.Int.Notation

/-!
# Compact JSON text, and its parser

A value is null, a boolean, an integer, a string, an array, or an object whose pairs keep
their order. Its compact text has no white space outside the strings and escapes what JSON
forbids inside them. The parser takes any JSON text whose numbers are integers: white space
between tokens, every escape, surrogates in pairs.
-/

namespace SukkalMsg.JsonText

abbrev Text := List Char

inductive Json where
  | null
  | bool (b : Bool)
  | num (n : ℤ)
  | str (s : Text)
  | arr (items : List Json)
  | obj (pairs : List (Text × Json))

/-! ### Printing -/

def hexChars : List Char := "0123456789abcdef".toList

def hexChar (n : ℕ) : Char := hexChars.getD n '0'

/-- A character inside the quotes. -/
def escape (c : Char) : Text :=
  if c = '"' then ['\\', '"']
  else if c = '\\' then ['\\', '\\']
  else if c = '\n' then ['\\', 'n']
  else if c = '\r' then ['\\', 'r']
  else if c = '\t' then ['\\', 't']
  else if c.toNat < 0x20 then ['\\', 'u', '0', '0', hexChar (c.toNat / 16), hexChar (c.toNat % 16)]
  else [c]

def quoted (s : Text) : Text := '"' :: (s.flatMap escape ++ ['"'])

def natText (n : ℕ) : Text := Nat.toDigits 10 n

def intText (n : ℤ) : Text := if n < 0 then '-' :: natText n.natAbs else natText n.natAbs

mutual

def compact : Json → Text
  | .null => ['n', 'u', 'l', 'l']
  | .bool b => if b then ['t', 'r', 'u', 'e'] else ['f', 'a', 'l', 's', 'e']
  | .num n => intText n
  | .str s => quoted s
  | .arr items => '[' :: (compactItems true items ++ [']'])
  | .obj pairs => '{' :: (compactPairs true pairs ++ ['}'])

/-- The elements, with a comma in front of each but the first. -/
def compactItems : Bool → List Json → Text
  | _, [] => []
  | first, v :: vs => (if first then [] else [',']) ++ (compact v ++ compactItems false vs)

def compactPairs : Bool → List (Text × Json) → Text
  | _, [] => []
  | first, (k, v) :: ps =>
    (if first then [] else [',']) ++ (quoted k ++ (':' :: (compact v ++ compactPairs false ps)))

end

/-! ### Parsing -/

def isWhite (c : Char) : Bool := c == ' ' || c == '\t' || c == '\n' || c == '\r'

def skipWhite (t : Text) : Text := t.dropWhile isWhite

def hexValue (c : Char) : Option ℕ :=
  if c.isDigit then some (c.toNat - '0'.toNat)
  else if 'a' ≤ c ∧ c ≤ 'f' then some (c.toNat - 'a'.toNat + 10)
  else if 'A' ≤ c ∧ c ≤ 'F' then some (c.toNat - 'A'.toNat + 10)
  else none

/-- The four digits of a `\u` escape. -/
def hexUnit : Text → Option (ℕ × Text)
  | a :: b :: c :: d :: t => do
    let a ← hexValue a
    let b ← hexValue b
    let c ← hexValue c
    let d ← hexValue d
    return (((a * 16 + b) * 16 + c) * 16 + d, t)
  | _ => none

/-- A `\u` escape: a scalar value, or a high surrogate with the low one behind it. -/
def unicodeEscape (t : Text) : Option (Char × Text) := do
  let (u, t) ← hexUnit t
  if 0xD800 ≤ u ∧ u < 0xDC00 then
    match t with
    | '\\' :: 'u' :: t => do
      let (low, t) ← hexUnit t
      if 0xDC00 ≤ low ∧ low < 0xE000 then
        return (Char.ofNat (0x10000 + (u - 0xD800) * 0x400 + (low - 0xDC00)), t)
      else none
    | _ => none
  else if 0xDC00 ≤ u ∧ u < 0xE000 then none
  else return (Char.ofNat u, t)

/-- What stands behind a backslash. -/
def escaped : Text → Option (Char × Text)
  | [] => none
  | c :: t =>
    if c = '"' ∨ c = '\\' ∨ c = '/' then some (c, t)
    else if c = 'b' then some ('\x08', t)
    else if c = 'f' then some ('\x0c', t)
    else if c = 'n' then some ('\n', t)
    else if c = 'r' then some ('\r', t)
    else if c = 't' then some ('\t', t)
    else if c = 'u' then unicodeEscape t
    else none

/-- The characters up to the closing quote. -/
def parseChars : ℕ → Text → Option (Text × Text)
  | 0, _ => none
  | _, [] => none
  | fuel + 1, c :: t =>
    if c = '"' then some ([], t)
    else if c.toNat < 0x20 then none
    else do
      let (c, t) ← if c = '\\' then escaped t else some (c, t)
      let (s, t) ← parseChars fuel t
      return (c :: s, t)

def parseString : Text → Option (Text × Text)
  | '"' :: t => parseChars (t.length + 1) t
  | _ => none

/-- Digits without a leading zero. -/
def parseNat (t : Text) : Option (ℕ × Text) :=
  let ds := t.takeWhile Char.isDigit
  if ds = [] ∨ ds.head? = some '0' ∧ ds ≠ ['0'] then none
  else some (Nat.ofDigitChars 10 ds 0, t.dropWhile Char.isDigit)

/-- An integer; what goes on as a fraction or an exponent is none. -/
def parseInt (t : Text) : Option (ℤ × Text) := do
  let (n, t) ← match t with
    | '-' :: t => (parseNat t).map fun p => (-(p.1 : ℤ), p.2)
    | t => (parseNat t).map fun p => ((p.1 : ℤ), p.2)
  if t.head? = some '.' ∨ t.head? = some 'e' ∨ t.head? = some 'E' then none else return (n, t)

/-- A literal, if the text goes on with it. -/
def literal (word : Text) (v : Json) (t : Text) : Option (Json × Text) :=
  if word <+: t then some (v, t.drop word.length) else none

mutual

def parseValue : ℕ → Text → Option (Json × Text)
  | 0, _ => none
  | _, [] => none
  | fuel + 1, c :: t =>
    if c = 'n' then literal ['u', 'l', 'l'] .null t
    else if c = 't' then literal ['r', 'u', 'e'] (.bool true) t
    else if c = 'f' then literal ['a', 'l', 's', 'e'] (.bool false) t
    else if c = '"' then (parseString (c :: t)).map fun p => (.str p.1, p.2)
    else if c = '[' then
      if (skipWhite t).head? = some ']' then some (.arr [], (skipWhite t).tail)
      else (parseItems fuel (skipWhite t)).map fun p => (.arr p.1, p.2)
    else if c = '{' then
      if (skipWhite t).head? = some '}' then some (.obj [], (skipWhite t).tail)
      else (parsePairs fuel (skipWhite t)).map fun p => (.obj p.1, p.2)
    else (parseInt (c :: t)).map fun p => (.num p.1, p.2)

/-- One element or more, up to the bracket. -/
def parseItems : ℕ → Text → Option (List Json × Text)
  | 0, _ => none
  | fuel + 1, t => do
    let (v, t) ← parseValue fuel t
    match skipWhite t with
    | ']' :: t => some ([v], t)
    | ',' :: t => (parseItems fuel (skipWhite t)).map fun p => (v :: p.1, p.2)
    | _ => none

/-- One pair or more, up to the brace. -/
def parsePairs : ℕ → Text → Option (List (Text × Json) × Text)
  | 0, _ => none
  | fuel + 1, t => do
    let (k, t) ← parseString t
    match skipWhite t with
    | ':' :: t => do
      let (v, t) ← parseValue fuel (skipWhite t)
      match skipWhite t with
      | '}' :: t => some ([(k, v)], t)
      | ',' :: t => (parsePairs fuel (skipWhite t)).map fun p => ((k, v) :: p.1, p.2)
      | _ => none
    | _ => none

end

/-- A whole text, white space around it. -/
def parse (t : Text) : Option Json := do
  let (v, t) ← parseValue (t.length + 1) (skipWhite t)
  if skipWhite t = [] then return v else none

/-! ### What is printed parses -/

/-- What may stand behind a value: a comma, a closing bracket, or nothing. -/
def Stops (t : Text) : Prop := ∀ c ∈ t.head?, c = ',' ∨ c = ']' ∨ c = '}'

theorem stops_nil : Stops [] := by
  intro c hc
  contradiction

theorem stops_cons {c : Char} {t : Text} (h : c = ',' ∨ c = ']' ∨ c = '}') : Stops (c :: t) := by
  intro d hd
  obtain rfl : c = d := by simpa using hd
  exact h

theorem skipWhite_cons {c : Char} {t : Text} (h : isWhite c = false) :
    skipWhite (c :: t) = c :: t := by
  simp only [skipWhite, List.dropWhile_cons, h, Bool.false_eq_true, if_false]

theorem hexValue_hexChar : ∀ n < 16, hexValue (hexChar n) = some n := by decide

theorem hexUnit_control {n : ℕ} (h : n < 0x20) (t : Text) :
    hexUnit ('0' :: '0' :: hexChar (n / 16) :: hexChar (n % 16) :: t) = some (n, t) := by
  have hzero : hexValue '0' = some 0 := by decide
  have hhigh := hexValue_hexChar (n / 16) (by omega)
  have hlow := hexValue_hexChar (n % 16) (by omega)
  have hsum : ((0 * 16 + 0) * 16 + n / 16) * 16 + n % 16 = n := by omega
  simp only [hexUnit, hzero, hhigh, hlow, Option.bind_eq_bind, Option.bind_some, Option.pure_def,
    hsum]

theorem unicodeEscape_control {c : Char} (h : c.toNat < 0x20) (t : Text) :
    unicodeEscape ('0' :: '0' :: hexChar (c.toNat / 16) :: hexChar (c.toNat % 16) :: t) =
      some (c, t) := by
  have hhigh : ¬ (0xD800 ≤ c.toNat ∧ c.toNat < 0xDC00) := by omega
  have hlow : ¬ (0xDC00 ≤ c.toNat ∧ c.toNat < 0xE000) := by omega
  simp only [unicodeEscape, hexUnit_control h, Option.bind_eq_bind, Option.bind_some, hhigh, hlow,
    if_false, Char.ofNat_toNat, Option.pure_def]

/-- One character inside the quotes is read back as itself. -/
theorem parseChars_escape (fuel : ℕ) (c : Char) (t : Text) :
    parseChars (fuel + 1) (escape c ++ t) =
      (parseChars fuel t).map fun p => (c :: p.1, p.2) := by
  by_cases hshort : c = '"' ∨ c = '\\' ∨ c = '\n' ∨ c = '\r' ∨ c = '\t'
  · rcases hshort with rfl | rfl | rfl | rfl | rfl <;>
      simp [escape, parseChars, escaped, Option.map_eq_bind] <;> rfl
  · simp only [not_or] at hshort
    obtain ⟨hquote, hslash, hn, hr, ht⟩ := hshort
    by_cases hcontrol : c.toNat < 0x20
    · simp [escape, hquote, hslash, hn, hr, ht, hcontrol, parseChars, escaped,
        unicodeEscape_control hcontrol, Option.map_eq_bind] <;> rfl
    · simp [escape, hquote, hslash, hn, hr, ht, hcontrol, parseChars, Option.map_eq_bind] <;>
        rfl

theorem parseChars_quoted (s : Text) (t : Text) {fuel : ℕ} (h : s.length < fuel) :
    parseChars fuel (s.flatMap escape ++ '"' :: t) = some (s, t) := by
  induction s generalizing fuel with
  | nil =>
    obtain ⟨fuel, rfl⟩ := Nat.exists_eq_add_of_lt h
    simp [parseChars]
  | cons c s ih =>
    cases fuel with
    | zero => simp at h
    | succ fuel =>
      have hs : s.length < fuel := by simpa using h
      simp only [List.flatMap_cons, List.append_assoc, parseChars_escape, ih hs, Option.map_some]

theorem length_escape (c : Char) : 1 ≤ (escape c).length := by
  simp only [escape]
  split_ifs <;> simp

theorem length_flatMap_escape (s : Text) : s.length ≤ (s.flatMap escape).length := by
  induction s with
  | nil => exact Nat.le_refl 0
  | cons c s ih =>
    have := length_escape c
    simp only [List.flatMap_cons, List.length_cons, List.length_append]
    omega

theorem parseString_quoted (s t : Text) : parseString (quoted s ++ t) = some (s, t) := by
  have hlen := length_flatMap_escape s
  simp only [quoted, List.cons_append, List.append_assoc, List.nil_append, parseString]
  apply parseChars_quoted
  simp only [List.length_append, List.length_cons]
  omega

theorem isDigit_of_mem_natText {n : ℕ} {c : Char} (h : c ∈ natText n) : c.isDigit = true :=
  Nat.isDigit_of_mem_toDigits (by decide) (by decide) h

/-- A printed number begins with a zero when it is zero. -/
theorem head_natText (n : ℕ) (h : (natText n).head? = some '0') : natText n = ['0'] := by
  induction n using Nat.strongRecOn with
  | ind n ih =>
    by_cases hlt : n < 10
    · have hall : ∀ m < 10, (natText m).head? = some '0' → natText m = ['0'] := by decide
      exact hall n hlt h
    · have hsplit : natText n = natText (n / 10) ++ natText (n % 10) := by
        have hd := Nat.toDigits_append_toDigits (b := 10) (n := n / 10) (d := n % 10) (by decide)
          (by omega) (by omega)
        rw [Nat.div_add_mod n 10] at hd
        exact hd.symm
      have hne : natText (n / 10) ≠ [] := Nat.toDigits_ne_nil
      rw [hsplit, List.head?_append_of_ne_nil _ hne] at h
      have hzero := ih (n / 10) (by omega) h
      have hval : n / 10 = 0 := by
        have hback := Nat.ofDigitChars_ten_toDigits (n := n / 10)
        rw [← hback]
        simp only [natText] at hzero
        rw [hzero]
        rfl
      omega

theorem parseNat_natText (n : ℕ) {t : Text} (h : ∀ c ∈ t.head?, c.isDigit = false) :
    parseNat (natText n ++ t) = some (n, t) := by
  have htake : (natText n ++ t).takeWhile Char.isDigit = natText n := by
    rw [List.takeWhile_append_of_pos fun c hc => isDigit_of_mem_natText hc]
    cases t with
    | nil => simp
    | cons c t => simp [h c (by simp)]
  have hdrop : (natText n ++ t).dropWhile Char.isDigit = t := by
    rw [List.dropWhile_append_of_pos fun c hc => isDigit_of_mem_natText hc]
    cases t with
    | nil => simp
    | cons c t => simp [h c (by simp)]
  have hne : natText n ≠ [] := Nat.toDigits_ne_nil
  have hlead : ¬ (natText n = [] ∨ (natText n).head? = some '0' ∧ natText n ≠ ['0']) := by
    rintro (hnil | ⟨hhead, hlong⟩)
    · exact hne hnil
    · exact hlong (head_natText n hhead)
  simp only [parseNat, htake, hdrop, if_neg hlead]
  rw [natText, Nat.ofDigitChars_ten_toDigits]

theorem parseInt_intText (n : ℤ) {t : Text} (h : Stops t) :
    parseInt (intText n ++ t) = some (n, t) := by
  have hdigit : ∀ c ∈ t.head?, c.isDigit = false := by
    intro c hc
    rcases h c hc with rfl | rfl | rfl <;> decide
  have hgoes : ¬ (t.head? = some '.' ∨ t.head? = some 'e' ∨ t.head? = some 'E') := by
    rintro (hc | hc | hc) <;> rcases h _ hc with h | h | h <;> exact absurd h (by decide)
  have hnat := parseNat_natText n.natAbs hdigit
  by_cases hneg : n < 0
  · obtain ⟨m, hm⟩ : ∃ m, n.natAbs = m := ⟨_, rfl⟩
    have hint : intText n = '-' :: natText m := by rw [intText, if_pos hneg, hm]
    have habs : (-(m : ℤ)) = n := by omega
    rw [hm] at hnat
    simp [parseInt, hint, hnat, hgoes, habs]
  · obtain ⟨c, u, hcu⟩ := List.exists_cons_of_ne_nil (Nat.toDigits_ne_nil (b := 10) (n := n.natAbs))
    have hc : c ≠ '-' := by
      rintro rfl
      have hmem : '-' ∈ natText n.natAbs := by
        rw [natText, hcu]
        exact List.mem_cons_self
      exact absurd (isDigit_of_mem_natText hmem) (by decide)
    have habs : (n.natAbs : ℤ) = n := by omega
    simp only [natText, hcu, List.cons_append] at hnat
    simp [parseInt, intText, hneg, natText, hcu, hnat, hgoes, habs, hc]

/-- What a compact text may begin with. -/
def Starts (c : Char) : Prop := isWhite c = false ∧ c ≠ ',' ∧ c ≠ ']' ∧ c ≠ '}'

theorem starts_of_digit {c : Char} (h : c.isDigit = true) : Starts c := by
  refine ⟨?_, ?_, ?_, ?_⟩
  · by_contra hw
    simp only [isWhite, Bool.not_eq_false, Bool.or_eq_true, beq_iff_eq] at hw
    rcases hw with ((rfl | rfl) | rfl) | rfl <;> exact absurd h (by decide)
  all_goals rintro rfl; exact absurd h (by decide)

theorem intText_starts (n : ℤ) : ∃ c u, intText n = c :: u ∧ Starts c ∧
    (c = '-' ∨ c.isDigit = true) := by
  by_cases hneg : n < 0
  · have hminus : Starts '-' := ⟨by decide, by decide, by decide, by decide⟩
    exact ⟨'-', natText n.natAbs, by simp [intText, hneg], hminus, .inl rfl⟩
  · obtain ⟨c, u, hcu⟩ := List.exists_cons_of_ne_nil (Nat.toDigits_ne_nil (b := 10) (n := n.natAbs))
    have hmem : c ∈ natText n.natAbs := by
      rw [natText, hcu]
      exact List.mem_cons_self
    have hdigit := isDigit_of_mem_natText hmem
    exact ⟨c, u, by simp [intText, hneg, natText, hcu], starts_of_digit hdigit, .inr hdigit⟩

theorem compact_starts (v : Json) : ∃ c u, compact v = c :: u ∧ Starts c := by
  cases v with
  | null => exact ⟨'n', _, rfl, by decide, by decide, by decide, by decide⟩
  | bool b =>
    cases b with
    | false => exact ⟨'f', _, rfl, by decide, by decide, by decide, by decide⟩
    | true => exact ⟨'t', _, rfl, by decide, by decide, by decide, by decide⟩
  | num n =>
    obtain ⟨c, u, h, hc, -⟩ := intText_starts n
    exact ⟨c, u, by rw [compact, h], hc⟩
  | str s => exact ⟨'"', _, by rw [compact, quoted], by decide, by decide, by decide, by decide⟩
  | arr items => exact ⟨'[', _, by rw [compact], by decide, by decide, by decide, by decide⟩
  | obj pairs => exact ⟨'{', _, by rw [compact], by decide, by decide, by decide, by decide⟩

theorem length_compact (v : Json) : 1 ≤ (compact v).length := by
  obtain ⟨c, u, h, -⟩ := compact_starts v
  simp [h]

theorem skipWhite_compact (v : Json) (t : Text) : skipWhite (compact v ++ t) = compact v ++ t := by
  obtain ⟨c, u, h, hc⟩ := compact_starts v
  rw [h, List.cons_append]
  exact skipWhite_cons hc.1

/-- What the parser reads back with some fuel: the texts that are shorter. -/
structure ReadsBack (fuel : ℕ) : Prop where
  value : ∀ v t, Stops t → (compact v).length < fuel →
    parseValue fuel (compact v ++ t) = some (v, t)
  items : ∀ v vs t, (compactItems true (v :: vs)).length + 1 < fuel →
    parseItems fuel (compactItems true (v :: vs) ++ ']' :: t) = some (v :: vs, t)
  pairs : ∀ p ps t, (compactPairs true (p :: ps)).length + 1 < fuel →
    parsePairs fuel (compactPairs true (p :: ps) ++ '}' :: t) = some (p :: ps, t)

namespace ReadsBack

variable {fuel : ℕ}

theorem value_succ (h : ReadsBack fuel) (v : Json) (t : Text) (ht : Stops t)
    (hf : (compact v).length < fuel + 1) :
    parseValue (fuel + 1) (compact v ++ t) = some (v, t) := by
  cases v with
  | null => simp [compact, parseValue, literal]
  | bool b => cases b <;> simp [compact, parseValue, literal]
  | num n =>
    obtain ⟨c, u, hcu, -, hc⟩ := intText_starts n
    have hint := parseInt_intText n ht
    have hnot : ∀ d ∈ ['n', 't', 'f', '"', '[', '{'], c ≠ d := by
      rintro d hd rfl
      have hnone : (['n', 't', 'f', '"', '[', '{'].all fun d => !(d == '-' || d.isDigit)) = true := by
        decide
      have hno := List.all_eq_true.mp hnone c hd
      rcases hc with hc | hc <;> simp [hc] at hno
    rw [hcu, List.cons_append] at hint
    rw [compact, hcu, List.cons_append, parseValue, if_neg (hnot 'n' (by simp)),
      if_neg (hnot 't' (by simp)), if_neg (hnot 'f' (by simp)), if_neg (hnot '"' (by simp)),
      if_neg (hnot '[' (by simp)), if_neg (hnot '{' (by simp)), hint, Option.map_some]
  | str s =>
    have hstr := parseString_quoted s t
    simp only [quoted, List.cons_append] at hstr
    simp only [compact, quoted, List.cons_append, parseValue, hstr, Option.map_some]
    simp
  | arr items =>
    cases items with
    | nil => simp [compact, compactItems, parseValue, skipWhite, isWhite]
    | cons v vs =>
      have hlen : (compactItems true (v :: vs)).length + 1 < fuel := by
        simp only [compact, List.length_cons, List.length_append] at hf
        simpa using hf
      have hitems := h.items v vs t hlen
      obtain ⟨c, u, hcu, hc⟩ := compact_starts v
      have hskip : skipWhite (compactItems true (v :: vs) ++ ']' :: t) =
          compactItems true (v :: vs) ++ ']' :: t := by
        simp only [compactItems, hcu, if_true, List.nil_append, List.cons_append]
        exact skipWhite_cons hc.1
      have hhead : (compactItems true (v :: vs) ++ ']' :: t).head? ≠ some ']' := by
        simp [compactItems, hcu, hc.2.2.1]
      have htext : compact (.arr (v :: vs)) ++ t =
          '[' :: (compactItems true (v :: vs) ++ ']' :: t) := by simp [compact]
      rw [htext, parseValue, hskip, if_neg hhead, hitems]
      simp
  | obj pairs =>
    cases pairs with
    | nil => simp [compact, compactPairs, parseValue, skipWhite, isWhite]
    | cons p ps =>
      have hlen : (compactPairs true (p :: ps)).length + 1 < fuel := by
        simp only [compact, List.length_cons, List.length_append] at hf
        simpa using hf
      have hpairs := h.pairs p ps t hlen
      have hskip : skipWhite (compactPairs true (p :: ps) ++ '}' :: t) =
          compactPairs true (p :: ps) ++ '}' :: t := by
        simp only [compactPairs, quoted, if_true, List.nil_append, List.cons_append]
        exact skipWhite_cons (by decide)
      have hhead : (compactPairs true (p :: ps) ++ '}' :: t).head? ≠ some '}' := by
        simp [compactPairs, quoted]
      have htext : compact (.obj (p :: ps)) ++ t =
          '{' :: (compactPairs true (p :: ps) ++ '}' :: t) := by simp [compact]
      rw [htext, parseValue, hskip, if_neg hhead, hpairs]
      simp

theorem items_succ (h : ReadsBack fuel) (v : Json) (vs : List Json) (t : Text)
    (hf : (compactItems true (v :: vs)).length + 1 < fuel + 1) :
    parseItems (fuel + 1) (compactItems true (v :: vs) ++ ']' :: t) = some (v :: vs, t) := by
  have hpos := length_compact v
  cases vs with
  | nil =>
    simp only [compactItems, if_true, List.nil_append, List.append_nil] at hf ⊢
    have hv := h.value v (']' :: t) (stops_cons (by simp)) (by omega)
    have hskip : skipWhite (']' :: t) = ']' :: t := skipWhite_cons (by decide)
    simp [parseItems, hv, hskip]
  | cons w ws =>
    have hsplit : compactItems true (v :: w :: ws) =
        compact v ++ ',' :: compactItems true (w :: ws) := by simp [compactItems]
    rw [hsplit] at hf ⊢
    simp only [List.length_append, List.length_cons] at hf
    have hv := h.value v (',' :: (compactItems true (w :: ws) ++ ']' :: t))
      (stops_cons (by simp)) (by omega)
    have hws := h.items w ws t (by omega)
    have hcomma : ∀ u, skipWhite (',' :: u) = ',' :: u := fun u => skipWhite_cons (by decide)
    have hskip : skipWhite (compactItems true (w :: ws) ++ ']' :: t) =
        compactItems true (w :: ws) ++ ']' :: t := by
      simp only [compactItems, if_true, List.nil_append, List.append_assoc]
      exact skipWhite_compact w _
    simp [parseItems, hv, hcomma, hskip, hws]

theorem pairs_succ (h : ReadsBack fuel) (p : Text × Json) (ps : List (Text × Json)) (t : Text)
    (hf : (compactPairs true (p :: ps)).length + 1 < fuel + 1) :
    parsePairs (fuel + 1) (compactPairs true (p :: ps) ++ '}' :: t) = some (p :: ps, t) := by
  obtain ⟨k, v⟩ := p
  have hpos := length_compact v
  have hcolon : ∀ u, skipWhite (':' :: u) = ':' :: u := fun u => skipWhite_cons (by decide)
  cases ps with
  | nil =>
    simp only [compactPairs, if_true, List.nil_append, List.append_nil, List.length_append,
      List.length_cons] at hf
    have hv := h.value v ('}' :: t) (stops_cons (by simp)) (by omega)
    have hbrace : skipWhite ('}' :: t) = '}' :: t := skipWhite_cons (by decide)
    simp [compactPairs, parsePairs, parseString_quoted, hcolon, skipWhite_compact, hv, hbrace]
  | cons q qs =>
    have hsplit : compactPairs true ((k, v) :: q :: qs) =
        quoted k ++ ':' :: (compact v ++ ',' :: compactPairs true (q :: qs)) := by
      simp [compactPairs]
    rw [hsplit] at hf ⊢
    simp only [List.length_append, List.length_cons] at hf
    have hv := h.value v (',' :: (compactPairs true (q :: qs) ++ '}' :: t))
      (stops_cons (by simp)) (by omega)
    have hqs := h.pairs q qs t (by omega)
    have hcomma : ∀ u, skipWhite (',' :: u) = ',' :: u := fun u => skipWhite_cons (by decide)
    have hskip : skipWhite (compactPairs true (q :: qs) ++ '}' :: t) =
        compactPairs true (q :: qs) ++ '}' :: t := by
      simp only [compactPairs, quoted, if_true, List.nil_append, List.cons_append]
      exact skipWhite_cons (by decide)
    simp [parsePairs, parseString_quoted, hcolon, skipWhite_compact, hv, hcomma, hskip, hqs]

theorem all (fuel : ℕ) : ReadsBack fuel := by
  induction fuel with
  | zero => constructor <;> intros <;> omega
  | succ fuel ih => exact ⟨ih.value_succ, ih.items_succ, ih.pairs_succ⟩

end ReadsBack

/-- The compact text of a value is a text of that value. -/
theorem parse_compact (v : Json) : parse (compact v) = some v := by
  have hv := (ReadsBack.all _).value v [] stops_nil (Nat.lt_succ_self _)
  have hskip := skipWhite_compact v []
  rw [List.append_nil] at hv hskip
  simp only [parse, hskip, hv, Option.bind_eq_bind, Option.bind_some]
  rfl

theorem compact_injective {v w : Json} (h : compact v = compact w) : v = w := by
  have hv := parse_compact v
  rw [h, parse_compact w] at hv
  exact (Option.some.inj hv).symm

end SukkalMsg.JsonText
