import SukkalMsg.NameGrammar
import SukkalMsg.Regexes

/-!
# The validators of the client libraries

Python and Node check names with one regular expression, patterns token by token with
another. In Python `$` also holds in front of a line feed that ends the text, in Node it
holds at the end only.
-/

namespace SukkalMsg

open Names SplitLists Regexes PyBinjson

/-- `re`, for text, without flags. -/
def python : Dialect where
  lineEnd n := n == 0x0A
  atEnd rest := rest == [] || rest == [0x0A]

/-- `RegExp`, without flags. -/
def node : Dialect where
  lineEnd n := n == 0x0A || n == 0x0D || n == 0x2028 || n == 0x2029
  atEnd rest := rest == []

def dotUnit : Regex := .run (.among (· == 0x2E)) 1 (some 1)

/-- `[A-Za-z0-9_.-]`. -/
def nameOrDot (n : ℕ) : Bool := nameUnit n || n == 0x2E

/-- `(?!\.)(?!.*\.\.)(?!.*\.$)[A-Za-z0-9_.-]{1,128}$`. -/
def nameRest : Regex :=
  .seq (.notAhead dotUnit) <|
  .seq (.notAhead (.seq (.run .dot 0 none) (.seq dotUnit dotUnit))) <|
  .seq (.notAhead (.seq (.run .dot 0 none) (.seq dotUnit .finish))) <|
  .seq (.run (.among nameOrDot) 1 (some 128)) .finish

/-- `^(?!\.)(?!.*\.\.)(?!.*\.$)[A-Za-z0-9_.-]{1,128}$`. -/
def NAME : Regex := .seq .start nameRest

/-- `^[A-Za-z0-9_-]+$`. -/
def TOKEN : Regex := .seq .start (.seq (.run (.among nameUnit) 1 none) .finish)

namespace PyProtocol

def isValidSubject (s : List ℕ) : Bool := NAME.matchStart python s

def isValidName (s : List ℕ) : Bool := isValidSubject s

def tokensOk : List (List ℕ) → Bool
  | [] => true
  | t :: ts =>
    if t = chevron then (if ts ≠ [] then false else tokensOk ts)
    else if t ≠ asterisk ∧ ¬ TOKEN.matchStart python t = true then false
    else tokensOk ts

def isValidPattern (s : List ℕ) : Bool :=
  if ¬ (0 < s.length ∧ s.length ≤ 128) then false else tokensOk (s.splitOn 0x2E)

end PyProtocol

namespace NodeProtocol

def isValidSubject (s : List ℕ) : Bool := NAME.test node s

def isValidName (s : List ℕ) : Bool := NAME.test node s

/-- `tokens.every`. -/
def tokensOk : List (List ℕ) → Bool
  | [] => true
  | t :: ts =>
    (if t = chevron then ts.isEmpty else if t = asterisk then true else TOKEN.test node t) &&
      tokensOk ts

def isValidPattern (s : List ℕ) : Bool :=
  if s.length = 0 ∨ s.length > 128 then false else tokensOk (s.splitOn 0x2E)

end NodeProtocol

/-- `$` holds at the end, and at most in front of one line feed besides; no unit of a name
ends a line. -/
structure Ending (d : Dialect) : Prop where
  nil : d.atEnd [] = true
  rest : ∀ t, d.atEnd t = true → t = [] ∨ t = [0x0A]
  inLine : ∀ n, nameOrDot n = true → d.lineEnd n = false

theorem ending_python : Ending python where
  nil := rfl
  rest t h := by simpa [python] using h
  inLine n h := by
    simp only [nameOrDot, nameUnit, Bool.or_eq_true, Bool.and_eq_true, decide_eq_true_eq,
      beq_iff_eq] at h
    simp only [python, beq_eq_false_iff_ne]
    omega

theorem ending_node : Ending node where
  nil := rfl
  rest t h := .inl (by simpa [node] using h)
  inLine n h := by
    simp only [nameOrDot, nameUnit, Bool.or_eq_true, Bool.and_eq_true, decide_eq_true_eq,
      beq_iff_eq] at h
    simp only [node, Bool.or_eq_false_iff, beq_eq_false_iff_ne]
    omega

variable {d : Dialect} {size : ℕ} {s t : List ℕ}

theorem mem_ends_dotUnit : t ∈ dotUnit.ends d size s ↔ s = 0x2E :: t := by
  rw [dotUnit, Regex.mem_ends_run]
  constructor
  · rintro ⟨pre, rfl, hall, hl, hm⟩
    have hlen : pre.length = 1 := Nat.le_antisymm (hm 1 rfl) hl
    obtain ⟨n, rfl⟩ := List.length_eq_one_iff.mp hlen
    have := hall n List.mem_cons_self
    simp only [UnitClass.has, beq_iff_eq] at this
    rw [this, List.singleton_append]
  · rintro rfl
    exact ⟨[0x2E], rfl, by simp [UnitClass.has], Nat.le_refl _, by simp⟩

theorem mem_ends_anyRun : t ∈ (Regex.run .dot 0 none).ends d size s ↔
    ∃ pre, s = pre ++ t ∧ ∀ n ∈ pre, d.lineEnd n = false := by
  rw [Regex.mem_ends_run]
  simp [UnitClass.has]

theorem nameRest_iff : (∃ t, t ∈ nameRest.ends d size s) ↔
    s.head? ≠ some 0x2E ∧
    (¬ ∃ pre t, s = pre ++ 0x2E :: 0x2E :: t ∧ ∀ n ∈ pre, d.lineEnd n = false) ∧
    (¬ ∃ pre t, s = pre ++ 0x2E :: t ∧ (∀ n ∈ pre, d.lineEnd n = false) ∧ d.atEnd t = true) ∧
    ∃ pre t, s = pre ++ t ∧ (∀ n ∈ pre, nameOrDot n = true) ∧ 1 ≤ pre.length ∧
      pre.length ≤ 128 ∧ d.atEnd t = true := by
  rw [nameRest, Regex.exists_ends_notAhead, Regex.exists_ends_notAhead,
    Regex.exists_ends_notAhead]
  simp only [Regex.mem_ends_seq, mem_ends_dotUnit, mem_ends_anyRun, Regex.mem_ends_finish]
  refine and_congr ?_ (and_congr ?_ (and_congr ?_ ?_))
  · cases s with
    | nil => simp
    | cons n s => simp
  · constructor
    · rintro h ⟨pre, t, rfl, hpre⟩
      exact h t ⟨_, ⟨pre, rfl, hpre⟩, _, rfl, rfl⟩
    · rintro h t ⟨_, ⟨pre, rfl, hpre⟩, _, rfl, rfl⟩
      exact h ⟨pre, t, rfl, hpre⟩
  · constructor
    · rintro h ⟨pre, t, rfl, hpre, hend⟩
      exact h t ⟨_, ⟨pre, rfl, hpre⟩, _, rfl, rfl, hend⟩
    · rintro h t ⟨_, ⟨pre, rfl, hpre⟩, _, rfl, rfl, hend⟩
      exact h ⟨pre, _, rfl, hpre, hend⟩
  · simp only [Regex.mem_ends_run, UnitClass.has]
    constructor
    · rintro ⟨t, u, ⟨pre, rfl, hall, hl, hm⟩, rfl, hend⟩
      exact ⟨pre, _, rfl, hall, hl, hm 128 rfl, hend⟩
    · rintro ⟨pre, t, rfl, hall, hl, hm, hend⟩
      exact ⟨t, t, ⟨pre, rfl, hall, hl, fun m he => Option.some.inj he ▸ hm⟩, rfl, hend⟩

theorem nameOrDot_iff {n : ℕ} : nameOrDot n = true ↔ nameUnit n = true ∨ n = 0x2E := by
  simp [nameOrDot]

theorem name_matchStart_iff (hd : Ending d) :
    NAME.matchStart d s = true ↔ ∃ pre t, s = pre ++ t ∧ IsName pre ∧ d.atEnd t = true := by
  rw [NAME, Regex.matchStart_start, nameRest_iff]
  constructor
  · rintro ⟨hhead, htwo, hlast, pre, t, rfl, hall, hl, hm, hend⟩
    have hline : ∀ n ∈ pre, d.lineEnd n = false := fun n hn => hd.inLine n (hall n hn)
    have hne : pre ≠ [] := List.length_pos_iff.mp hl
    refine ⟨pre, t, rfl, ⟨hne, hm, fun n hn => nameOrDot_iff.mp (hall n hn), ?_, ?_, ?_⟩, hend⟩
    · rwa [List.head?_append_of_ne_nil _ hne] at hhead
    · intro h
      obtain ⟨pre', rfl⟩ := List.getLast?_eq_some_iff.mp h
      refine hlast ⟨pre', t, by simp, fun n hn => hline n ?_, hend⟩
      exact List.mem_append_left _ hn
    · rintro ⟨x, y, rfl⟩
      refine htwo ⟨x, y ++ t, by simp, fun n hn => hline n ?_⟩
      simp [hn]
  · rintro ⟨pre, t, rfl, hname, hend⟩
    have hnotin : 0x0A ∉ pre := fun hm => by
      rcases hname.units _ hm with h | h
      · exact absurd h (by decide)
      · contradiction
    refine ⟨?_, ?_, ?_, pre, t, rfl, fun n hn => nameOrDot_iff.mpr (hname.units n hn),
      List.length_pos_iff.mpr hname.nonempty, hname.short, hend⟩
    · rw [List.head?_append_of_ne_nil _ hname.nonempty]
      exact hname.head
    · rintro ⟨x, y, heq, -⟩
      apply hname.apart
      rcases hd.rest t hend with rfl | rfl
      · rw [List.append_nil] at heq
        exact ⟨x, y, by simp [heq]⟩
      · rcases List.eq_nil_or_concat y with rfl | ⟨y, n, rfl⟩
        · have hsplit : pre ++ [0x0A] = (x ++ [0x2E]) ++ [0x2E] := by simpa using heq
          have := (List.append_inj' hsplit rfl).2
          contradiction
        · have hsplit : pre ++ [0x0A] = (x ++ 0x2E :: 0x2E :: y) ++ [n] := by simpa using heq
          rw [(List.append_inj' hsplit rfl).1]
          exact ⟨x, y, by simp⟩
    · rintro ⟨x, y, heq, -, hend'⟩
      apply hname.last
      rcases hd.rest t hend with rfl | rfl <;> rcases hd.rest y hend' with rfl | rfl
      · rw [List.append_nil] at heq
        rw [heq]
        exact List.getLast?_concat ..
      · rw [List.append_nil] at heq
        exact absurd (by simp [heq]) hnotin
      · have := (List.append_inj' heq rfl).2
        contradiction
      · have hsplit : pre ++ [0x0A] = (x ++ [0x2E]) ++ [0x0A] := by simpa using heq
        rw [(List.append_inj' hsplit rfl).1]
        exact List.getLast?_concat ..

def NameLine (s : List ℕ) : Prop := ∃ u, s = u ++ [0x0A] ∧ IsName u

theorem IsName.not_nameLine (h : IsName s) : ¬ NameLine s := by
  rintro ⟨u, rfl, -⟩
  rcases h.units 0x0A (by simp) with h | h
  · exact absurd h (by decide)
  · contradiction

theorem PyProtocol.isValidSubject_iff (s : List ℕ) :
    PyProtocol.isValidSubject s = true ↔ IsName s ∨ NameLine s := by
  rw [PyProtocol.isValidSubject, name_matchStart_iff ending_python]
  constructor
  · rintro ⟨u, t, rfl, hu, ht⟩
    rcases ending_python.rest t ht with rfl | rfl
    · exact .inl (by rwa [List.append_nil])
    · exact .inr ⟨u, rfl, hu⟩
  · rintro (h | ⟨u, rfl, hu⟩)
    · exact ⟨s, [], (List.append_nil s).symm, h, rfl⟩
    · exact ⟨u, [0x0A], rfl, hu, rfl⟩

theorem NodeProtocol.isValidSubject_iff (s : List ℕ) :
    NodeProtocol.isValidSubject s = true ↔ IsName s := by
  rw [NodeProtocol.isValidSubject, NAME, Regex.test_start, ← NAME,
    name_matchStart_iff ending_node]
  constructor
  · rintro ⟨u, t, rfl, hu, ht⟩
    have hnil : t = [] := by simpa [node] using ht
    rwa [hnil, List.append_nil]
  · intro h
    exact ⟨s, [], (List.append_nil s).symm, h, rfl⟩

/-- The broker, Python and Node say the same of a text, and say whether it is a name. -/
structure NamesAgree (s : String) : Prop where
  subject : bjmSubjectValid (utf8 s) = true ↔ IsName (units (utf8 s))
  consumer : bjmConsumerValid (utf8 s) = true ↔ IsName (units (utf8 s))
  group : bjmGroupValid (utf8 s) = true ↔ IsName (units (utf8 s))
  pySubject : PyProtocol.isValidSubject (codePoints s) = true ↔ IsName (units (utf8 s))
  pyName : PyProtocol.isValidName (codePoints s) = true ↔ IsName (units (utf8 s))
  nodeSubject : NodeProtocol.isValidSubject (utf16 s) = true ↔ IsName (units (utf8 s))
  nodeName : NodeProtocol.isValidName (utf16 s) = true ↔ IsName (units (utf8 s))

theorem nameByte_plain (c : UInt8) : (nameChar c || c == dot) = true → 0x20 ≤ c ∧ c ≠ 0x7F := by
  revert c
  apply forall_byte
  decide +kernel

/-- They agree, unless the text is a name with a line feed behind it. What the broker
accepts is one path component, neither `.` nor `..`, without control bytes. -/
theorem name_validators_agree_iff (s : String) :
    (NamesAgree s ↔ ¬ NameLine (codePoints s)) ∧
    ∀ b, bjmSubjectValid b = true → slash ∉ b ∧ (∀ c ∈ b, 0x20 ≤ c ∧ c ≠ 0x7F) ∧
      ∀ t ∈ b.splitOn slash, t ≠ ascii "." ∧ t ≠ ascii ".." := by
  obtain ⟨hbytes, hutf16⟩ := same_units (fun _ => IsName.ascii) s
  constructor
  · constructor
    · intro h hline
      have hname := h.pySubject.mp ((PyProtocol.isValidSubject_iff _).mpr (.inr hline))
      exact (hbytes.mp hname).not_nameLine hline
    · intro hno
      have hpy : PyProtocol.isValidSubject (codePoints s) = true ↔ IsName (units (utf8 s)) := by
        rw [PyProtocol.isValidSubject_iff, hbytes, or_iff_left hno]
      have hnode : NodeProtocol.isValidSubject (utf16 s) = true ↔ IsName (units (utf8 s)) := by
        rw [NodeProtocol.isValidSubject_iff, hutf16, hbytes]
      exact ⟨nameValid_iff _, nameValid_iff _, nameValid_iff _, hpy, hpy, hnode, hnode⟩
  · intro b hb
    have hslash := slash_notMem_of_nameValid hb
    refine ⟨hslash, fun c hc => ?_, fun t ht => ?_⟩
    · exact nameByte_plain c (mem_of_nameBody (nameValid_body hb) c hc)
    · rw [List.splitOn_eq_singleton hslash, List.mem_singleton] at ht
      subst ht
      constructor <;> rintro rfl <;> exact absurd hb (by decide +kernel)

/-- A name with a line feed behind it passes in Python, and not with the broker. -/
theorem jobs_line_passes :
    PyProtocol.isValidSubject (codePoints "jobs\n") = true ∧
      bjmSubjectValid (utf8 "jobs\n") = false ∧ ¬ NamesAgree "jobs\n" := by
  have hpy : PyProtocol.isValidSubject (codePoints "jobs\n") = true := by decide +kernel
  have hbroker : bjmSubjectValid (utf8 "jobs\n") = false := by decide +kernel
  refine ⟨hpy, hbroker, fun h => ?_⟩
  have := h.subject.mpr (h.pySubject.mp hpy)
  rw [hbroker] at this
  contradiction

theorem token_matchStart_iff : TOKEN.matchStart d t = true ↔
    ∃ u rest, t = u ++ rest ∧ IsWord u ∧ d.atEnd rest = true := by
  rw [TOKEN, Regex.matchStart_start]
  simp only [Regex.mem_ends_seq, Regex.mem_ends_run, Regex.mem_ends_finish, UnitClass.has]
  constructor
  · rintro ⟨_, rest, ⟨u, rfl, hall, hl, -⟩, rfl, hend⟩
    exact ⟨u, _, rfl, ⟨List.length_pos_iff.mp hl, hall⟩, hend⟩
  · rintro ⟨u, rest, rfl, ⟨hne, hall⟩, hend⟩
    exact ⟨rest, rest, ⟨u, rfl, hall, List.length_pos_iff.mpr hne, by simp⟩, rfl, hend⟩

def LineToken (final : Prop) (t : List ℕ) : Prop :=
  IsToken final t ∨ ∃ u, t = u ++ [0x0A] ∧ IsWord u

/-- Tokens of a pattern, but with a line feed behind a word. -/
structure PatternLine (s : List ℕ) : Prop where
  short : s.length ≤ 128
  broken : 0x0A ∈ s
  tokens : AllTokens LineToken (s.splitOn 0x2E)

theorem not_isWord_chevron : ¬ IsWord chevron := fun h => absurd (h.2 0x3E (by decide)) (by decide)

theorem lineToken_chevron {final : Prop} : LineToken final chevron ↔ final := by
  constructor
  · rintro ((h | ⟨-, h⟩ | h) | ⟨u, hu, hw⟩)
    · exact absurd h (by decide)
    · exact h
    · exact absurd h not_isWord_chevron
    · have hlast : ([] ++ [0x3E] : List ℕ) = u ++ [0x0A] := hu
      have := (List.append_inj' hlast rfl).2
      contradiction
  · exact fun h => .inl (.inr (.inl ⟨rfl, h⟩))

theorem lineToken_other {final : Prop} (h : t ≠ chevron) :
    LineToken final t ↔ t = asterisk ∨ TOKEN.matchStart python t = true := by
  rw [token_matchStart_iff]
  constructor
  · rintro ((hs | ⟨hc, -⟩ | hw) | ⟨u, rfl, hw⟩)
    · exact .inl hs
    · exact absurd hc h
    · exact .inr ⟨t, [], (List.append_nil t).symm, hw, rfl⟩
    · exact .inr ⟨u, [0x0A], rfl, hw, rfl⟩
  · rintro (hs | ⟨u, rest, rfl, hw, hend⟩)
    · exact .inl (.inl hs)
    · rcases ending_python.rest rest hend with rfl | rfl
      · exact .inl (.inr (.inr (by rwa [List.append_nil])))
      · exact .inr ⟨u, rfl, hw⟩

theorem PyProtocol.tokensOk_iff (ts : List (List ℕ)) :
    PyProtocol.tokensOk ts = true ↔ AllTokens LineToken ts := by
  induction ts with
  | nil => simp [PyProtocol.tokensOk, allTokens_nil]
  | cons t ts ih =>
    rw [allTokens_cons]
    by_cases hc : t = chevron
    · subst hc
      rw [lineToken_chevron]
      by_cases hts : ts = []
      · simp [PyProtocol.tokensOk, hts, allTokens_nil]
      · simp [PyProtocol.tokensOk, hts]
    · rw [lineToken_other hc, ← ih]
      by_cases hs : t = asterisk
      · simp [PyProtocol.tokensOk, hs, asterisk, chevron]
      · simp only [PyProtocol.tokensOk, if_neg hc, ne_eq, hs, not_false_eq_true, true_and, false_or]
        split <;> simp_all

theorem NodeProtocol.tokensOk_iff (ts : List (List ℕ)) :
    NodeProtocol.tokensOk ts = true ↔ AllTokens IsToken ts := by
  induction ts with
  | nil => simp [NodeProtocol.tokensOk, allTokens_nil]
  | cons t ts ih =>
    have hword : TOKEN.test node t = true ↔ IsWord t := by
      rw [TOKEN, Regex.test_start, ← TOKEN, token_matchStart_iff]
      constructor
      · rintro ⟨u, rest, rfl, hw, hend⟩
        have hnil : rest = [] := by simpa [node] using hend
        rwa [hnil, List.append_nil]
      · exact fun h => ⟨t, [], (List.append_nil t).symm, h, rfl⟩
    rw [allTokens_cons, ← ih, NodeProtocol.tokensOk, Bool.and_eq_true]
    refine and_congr_left fun _ => ?_
    by_cases hc : t = chevron
    · subst hc
      have hstar : chevron ≠ asterisk := by decide
      simp [IsToken, hstar, not_isWord_chevron]
    · by_cases hs : t = asterisk
      · simp [IsToken, hs, asterisk, chevron]
      · simp [IsToken, hc, hs, hword]

theorem IsPattern.no_line (h : IsPattern s) : 0x0A ∉ s := by
  intro hm
  obtain ⟨t, ht, hnt⟩ := mem_part_of_mem hm (by decide : 0x0A ≠ 0x2E)
  obtain ⟨final, hs | ⟨hc, -⟩ | hw⟩ := h.tokens.mem ht
  · exact absurd (hs ▸ hnt) (by decide)
  · exact absurd (hc ▸ hnt) (by decide)
  · exact absurd (hw.2 _ hnt) (by decide)

theorem IsPattern.pos (h : IsPattern s) : 0 < s.length := by
  apply List.length_pos_of_ne_nil
  rintro rfl
  obtain ⟨final, ht⟩ := h.tokens.mem (t := []) (by simp)
  exact ht.ne_nil rfl

theorem PyProtocol.isValidPattern_iff (s : List ℕ) :
    PyProtocol.isValidPattern s = true ↔ IsPattern s ∨ PatternLine s := by
  rw [PyProtocol.isValidPattern]
  constructor
  · intro h
    split at h
    · contradiction
    · rename_i hlen
      rw [not_not] at hlen
      have htok := (PyProtocol.tokensOk_iff _).mp h
      by_cases hm : 0x0A ∈ s
      · exact .inr ⟨hlen.2, hm, htok⟩
      · refine .inl ⟨hlen.2, fun pre t suf hts => ?_⟩
        rcases htok pre t suf hts with ht | ⟨u, rfl, -⟩
        · exact ht
        · have hmem : u ++ [0x0A] ∈ s.splitOn 0x2E := by rw [hts]; simp
          exact absurd (mem_of_mem_part hmem (by simp)).1 hm
  · rintro (h | h)
    · rw [if_neg (not_not.mpr ⟨h.pos, h.short⟩), PyProtocol.tokensOk_iff]
      exact fun pre t suf hts => .inl (h.tokens pre t suf hts)
    · rw [if_neg (not_not.mpr ⟨List.length_pos_of_mem h.broken, h.short⟩),
        PyProtocol.tokensOk_iff]
      exact h.tokens

theorem NodeProtocol.isValidPattern_iff (s : List ℕ) :
    NodeProtocol.isValidPattern s = true ↔ IsPattern s := by
  rw [NodeProtocol.isValidPattern]
  constructor
  · intro h
    split at h
    · contradiction
    · rename_i hlen
      rw [not_or] at hlen
      exact ⟨Nat.le_of_not_lt hlen.2, (NodeProtocol.tokensOk_iff _).mp h⟩
  · intro h
    have hpos := h.pos
    have hshort := h.short
    rw [if_neg (by omega), NodeProtocol.tokensOk_iff]
    exact h.tokens

/-- The broker, Python and Node accept the same patterns, those of the grammar; and a
pattern without wildcards is accepted when it is a subject. -/
structure PatternsAgree (s : String) : Prop where
  broker : bjmPatternValid (utf8 s) = true ↔ IsPattern (units (utf8 s))
  python : PyProtocol.isValidPattern (codePoints s) = true ↔ IsPattern (units (utf8 s))
  node : NodeProtocol.isValidPattern (utf16 s) = true ↔ IsPattern (units (utf8 s))
  plain : bjmPatternIs (utf8 s) = false →
    (bjmPatternValid (utf8 s) = true ↔ bjmSubjectValid (utf8 s) = true) ∧
    (PyProtocol.isValidPattern (codePoints s) = true ↔ bjmSubjectValid (utf8 s) = true) ∧
    (NodeProtocol.isValidPattern (utf16 s) = true ↔ bjmSubjectValid (utf8 s) = true)

/-- They do, unless the text has a dot behind a pattern, where the broker's tokeniser does
not see it, or a line feed behind a word, where Python's `$` lets it pass. -/
theorem pattern_validators_agree_iff (s : String) :
    PatternsAgree s ↔ ¬ EndsOpen (units (utf8 s)) ∧ ¬ PatternLine (codePoints s) := by
  obtain ⟨hbytes, hutf16⟩ := same_units (fun _ => IsPattern.ascii) s
  constructor
  · intro h
    refine ⟨fun hopen => ?_, fun hline => ?_⟩
    · exact hopen.not_isPattern (h.broker.mp ((patternValid_iff _).mpr (.inr hopen)))
    · have hp := h.python.mp ((PyProtocol.isValidPattern_iff _).mpr (.inr hline))
      exact (hbytes.mp hp).no_line hline.broken
  · rintro ⟨hopen, hline⟩
    have hbroker : bjmPatternValid (utf8 s) = true ↔ IsPattern (units (utf8 s)) := by
      rw [patternValid_iff, or_iff_left hopen]
    have hpy : PyProtocol.isValidPattern (codePoints s) = true ↔ IsPattern (units (utf8 s)) := by
      rw [PyProtocol.isValidPattern_iff, or_iff_left hline, hbytes]
    have hnode : NodeProtocol.isValidPattern (utf16 s) = true ↔ IsPattern (units (utf8 s)) := by
      rw [NodeProtocol.isValidPattern_iff, hutf16, hbytes]
    refine ⟨hbroker, hpy, hnode, fun hno => ?_⟩
    have hwild : 0x2A ∉ units (utf8 s) ∧ 0x3E ∉ units (utf8 s) := by
      simp only [bjmPatternIs, List.any_eq_false, Bool.or_eq_true, beq_iff_eq, not_or] at hno
      constructor <;> intro hm <;> obtain ⟨c, hc, hn⟩ := List.mem_map.mp hm
      · exact (hno c hc).1 (UInt8.toNat_inj.mp hn)
      · exact (hno c hc).2 (UInt8.toNat_inj.mp hn)
    have hsubject : IsPattern (units (utf8 s)) ↔ bjmSubjectValid (utf8 s) = true := by
      rw [isPattern_plain hwild, nameValid_iff]
    exact ⟨hbroker.trans hsubject, hpy.trans hsubject, hnode.trans hsubject⟩

/-- The broker takes `orders.` for a pattern, which no subject matches. -/
theorem open_pattern_passes :
    bjmPatternValid (utf8 "orders.") = true ∧ bjmSubjectValid (utf8 "orders.") = false ∧
      NodeProtocol.isValidPattern (utf16 "orders.") = false ∧
      PyProtocol.isValidPattern (codePoints "orders\n") = true ∧
      ¬ PatternsAgree "orders." ∧ ¬ PatternsAgree "orders\n" := by
  have hbroker : bjmPatternValid (utf8 "orders.") = true := by decide +kernel
  have hnode : NodeProtocol.isValidPattern (utf16 "orders.") = false := by decide +kernel
  have hpy : PyProtocol.isValidPattern (codePoints "orders\n") = true := by decide +kernel
  have hline : NodeProtocol.isValidPattern (utf16 "orders\n") = false := by decide +kernel
  refine ⟨hbroker, by decide +kernel, hnode, hpy, fun h => ?_, fun h => ?_⟩
  · have := h.node.mpr (h.broker.mp hbroker)
    rw [hnode] at this
    contradiction
  · have := h.node.mpr (h.python.mp hpy)
    rw [hline] at this
    contradiction

end SukkalMsg
