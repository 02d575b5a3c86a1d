import SukkalMsg.Pusher

/-!
# What a pattern matches

`bjm_pattern_match` walks two strings with one cursor each, a token at a time. Split on
the dots, the pattern's tokens correspond one to one with the subject's: a literal with
itself, `*` with any token, and a final `>` with all that are left, of which there is at
least one.
-/

namespace SukkalMsg

open Names

/-- The token in front of a cursor, and where the cursor goes. -/
structure Token (p : Bytes) where
  text : Bytes
  rest : Bytes
  shorter : rest.length < p.length

theorem drop_shorter (c : UInt8) (cs : Bytes) (n : ℕ) :
    ((c :: cs).drop (n + 1)).length < (c :: cs).length := by
  rw [List.length_drop, List.length_cons]
  omega

/-- `next_token`. -/
def nextToken : (p : Bytes) → Option (Token p)
  | [] => none
  | c :: cs =>
    let text := (c :: cs).takeWhile (· != dot)
    some ⟨text, (c :: cs).drop (text.length + 1), drop_shorter c cs text.length⟩

/-- The loop of `bjm_pattern_match`, both cursors moving. -/
def patternMatchFrom (p s : Bytes) : Bool :=
  match nextToken p with
  | none => s.isEmpty
  | some pt =>
    if pt.text = anyTail then !s.isEmpty
    else match nextToken s with
      | none => false
      | some st =>
        if pt.text = anyToken then patternMatchFrom pt.rest st.rest
        else if pt.text ≠ st.text then false
        else patternMatchFrom pt.rest st.rest
termination_by p.length
decreasing_by all_goals exact pt.shorter

/-- The loop of `bjm_pattern_valid`. -/
def patternValidFrom (p : Bytes) : Bool :=
  match nextToken p with
  | none => true
  | some t =>
    if t.text.length = 0 then false
    else if t.text = anyTail then t.rest.isEmpty
    else if t.text = anyToken then patternValidFrom t.rest
    else if t.text.all nameChar then patternValidFrom t.rest
    else false
termination_by p.length
decreasing_by all_goals exact t.shorter

theorem tokens_eq_nil {s : Bytes} : tokens s = [] ↔ s = [] := by
  cases s with
  | nil => simp [tokens]
  | cons c cs =>
    simp only [tokens, reduceCtorEq, iff_false]
    split
    · simp
    · split <;> simp

theorem isEmpty_tokens (s : Bytes) : (tokens s).isEmpty = s.isEmpty := by
  rw [Bool.eq_iff_iff, List.isEmpty_iff, List.isEmpty_iff, tokens_eq_nil]

theorem nextToken_eq_none {s : Bytes} (h : nextToken s = none) : s = [] := by
  cases s with
  | nil => rfl
  | cons c cs => contradiction

theorem tokens_of_nextToken {s : Bytes} {t : Token s} (h : nextToken s = some t) :
    tokens s = t.text :: tokens t.rest := by
  induction s with
  | nil => contradiction
  | cons c cs ih =>
    obtain rfl := Option.some.inj h
    by_cases hc : c = dot
    · subst hc
      simp [tokens]
    · have htake : (c :: cs).takeWhile (· != dot) = c :: cs.takeWhile (· != dot) := by simp [hc]
      simp only [htake, List.length_cons, List.drop_succ_cons, tokens, if_neg hc]
      cases cs with
      | nil => rfl
      | cons d ds => rw [ih rfl]

theorem tokensMatch_tail (ps ss : List Bytes) : tokensMatch (anyTail :: ps) ss = !ss.isEmpty := by
  cases ss <;> simp [tokensMatch]

theorem tokensMatch_short {p : Bytes} (h : p ≠ anyTail) (ps : List Bytes) :
    tokensMatch (p :: ps) [] = false := by
  simp [tokensMatch, h]

theorem tokensMatch_cons {p : Bytes} (h : p ≠ anyTail) (ps : List Bytes) (s : Bytes)
    (ss : List Bytes) :
    tokensMatch (p :: ps) (s :: ss) = ((p = anyToken || p = s) && tokensMatch ps ss) := by
  simp [tokensMatch, h]

theorem patternMatchFrom_eq (p s : Bytes) : patternMatchFrom p s = bjmPatternMatch p s := by
  simp only [bjmPatternMatch]
  fun_induction patternMatchFrom p s with
  | case1 p s hp =>
    rw [nextToken_eq_none hp]
    exact (isEmpty_tokens s).symm
  | case2 p s pt hp htail =>
    rw [tokens_of_nextToken hp, htail, tokensMatch_tail, isEmpty_tokens]
  | case3 p s pt hp htail hs =>
    rw [tokens_of_nextToken hp, nextToken_eq_none hs]
    exact (tokensMatch_short htail _).symm
  | case4 p s pt hp htail st hs hany ih =>
    rw [tokens_of_nextToken hp, tokens_of_nextToken hs, tokensMatch_cons htail, ih]
    simp [hany]
  | case5 p s pt hp htail st hs hany hne =>
    rw [tokens_of_nextToken hp, tokens_of_nextToken hs, tokensMatch_cons htail]
    simp [hany, hne]
  | case6 p s pt hp htail st hs hany heq ih =>
    rw [tokens_of_nextToken hp, tokens_of_nextToken hs, tokensMatch_cons htail, ih]
    simp [not_not.mp heq]

theorem patternValidFrom_eq (p : Bytes) : patternValidFrom p = tokensValid (tokens p) := by
  fun_induction patternValidFrom p with
  | case1 p hp =>
    rw [nextToken_eq_none hp]
    rfl
  | case2 p t hp hempty =>
    rw [tokens_of_nextToken hp, tokensValid, List.length_eq_zero_iff.mp hempty]
    rfl
  | case3 p t hp hempty htail =>
    rw [tokens_of_nextToken hp, tokensValid, if_neg (by simpa using hempty), if_pos htail,
      isEmpty_tokens]
  | case4 p t hp hempty htail hany ih =>
    rw [tokens_of_nextToken hp, tokensValid, if_neg (by simpa using hempty), if_neg htail, ih]
    simp [hany]
  | case5 p t hp hempty htail hany hall ih =>
    rw [tokens_of_nextToken hp, tokensValid, if_neg (by simpa using hempty), if_neg htail, ih, hall]
    simp
  | case6 p t hp hempty htail hany hall =>
    rw [tokens_of_nextToken hp, tokensValid, if_neg (by simpa using hempty), if_neg htail]
    simp [hany, hall]

/-- Splitting at the dots yields the tokens, and one empty token more where the string
ends with a dot or is empty. -/
theorem splitOn_dot (s : Bytes) : s.splitOn dot =
    tokens s ++ if s = [] ∨ s.getLast? = some dot then [[]] else [] := by
  induction s with
  | nil => rfl
  | cons c cs ih =>
    rw [List.splitOn_cons_eq_if_modifyHead, ih]
    have hlast : cs ≠ [] → (c :: cs).getLast? = cs.getLast? := fun h =>
      List.getLast?_cons_of_ne_nil h
    by_cases hc : c = dot
    · subst hc
      cases cs with
      | nil => rfl
      | cons d ds =>
        rw [hlast (List.cons_ne_nil _ _)]
        simp [tokens]
    · cases cs with
      | nil => simp [tokens, hc]
      | cons d ds =>
        rw [hlast (List.cons_ne_nil _ _)]
        obtain ⟨t, ts, ht⟩ := List.exists_cons_of_ne_nil
          (fun h => List.cons_ne_nil d ds (tokens_eq_nil.mp h))
        have htokens : tokens (c :: d :: ds) = (c :: t) :: ts := by
          rw [tokens, if_neg hc, ht]
        rw [htokens, ht]
        simp [hc]

theorem splitOn_dot_of_full {s : Bytes} (h : ∀ t ∈ s.splitOn dot, t ≠ []) :
    s.splitOn dot = tokens s := by
  have hsplit := splitOn_dot s
  split at hsplit
  · exact absurd rfl (h [] (by rw [hsplit]; simp))
  · rw [hsplit, List.append_nil]

theorem splitOn_dot_of_valid {s : Bytes} {max : ℕ} (h : nameValid s max = true) :
    s.splitOn dot = tokens s := by
  simp only [nameValid, Bool.and_eq_true, Bool.not_eq_true', bne_iff_ne, ne_eq] at h
  have hno : ¬ (s = [] ∨ s.getLast? = some dot) := by
    rintro (rfl | hlast)
    · exact absurd h.1.1.1.1 (by decide)
    · exact h.1.2 hlast
  rw [splitOn_dot, if_neg hno, List.append_nil]

/-- The tokens of a pattern correspond one to one with those of a subject; `>` is last,
and stands for one token or more. -/
inductive Corresponds : List Bytes → List Bytes → Prop where
  | nil : Corresponds [] []
  | any {ps ss : List Bytes} (s : Bytes) : Corresponds ps ss →
      Corresponds (anyToken :: ps) (s :: ss)
  | literal {p : Bytes} {ps ss : List Bytes} : p ≠ anyToken → p ≠ anyTail → Corresponds ps ss →
      Corresponds (p :: ps) (p :: ss)
  | tail {ss : List Bytes} : ss ≠ [] → Corresponds [anyTail] ss

theorem tokensValid_cons {t : Bytes} {ts : List Bytes} (h : tokensValid (t :: ts) = true) :
    (t = anyTail ∧ ts = []) ∨ t ≠ anyTail ∧ (t = anyToken ∨ t.all nameChar = true) ∧
      tokensValid ts = true := by
  simp only [tokensValid] at h
  split at h
  · contradiction
  split at h
  · rename_i htail
    exact .inl ⟨htail, List.isEmpty_iff.mp h⟩
  · rename_i htail
    simp only [Bool.and_eq_true, Bool.or_eq_true, decide_eq_true_eq] at h
    exact .inr ⟨htail, h.1, h.2⟩

theorem tokensMatch_iff {ps ss : List Bytes} (h : tokensValid ps = true) :
    tokensMatch ps ss = true ↔ Corresponds ps ss := by
  induction ps generalizing ss with
  | nil =>
    rw [tokensMatch, List.isEmpty_iff]
    constructor
    · rintro rfl
      exact .nil
    · intro h
      cases h
      rfl
  | cons p ps ih =>
    rcases tokensValid_cons h with ⟨rfl, rfl⟩ | ⟨htail, -, hrest⟩
    · rw [tokensMatch_tail, Bool.not_eq_true', ← Bool.not_eq_true, List.isEmpty_iff]
      constructor
      · exact .tail
      · intro h
        cases h with
        | literal _ hne _ => exact absurd rfl hne
        | tail hne => exact hne
    · cases ss with
      | nil =>
        simp only [tokensMatch_short htail, Bool.false_eq_true, false_iff]
        intro h
        cases h with
        | tail hne => exact hne rfl
      | cons s ss =>
        simp only [tokensMatch_cons htail, Bool.and_eq_true, Bool.or_eq_true, decide_eq_true_eq,
          ih hrest]
        constructor
        · rintro ⟨hp, hc⟩
          by_cases hany : p = anyToken
          · subst hany
            exact .any s hc
          · obtain rfl := hp.resolve_left hany
            exact .literal hany htail hc
        · intro h
          cases h with
          | any _ hc => exact ⟨.inl rfl, hc⟩
          | literal _ _ hc => exact ⟨.inr rfl, hc⟩
          | tail _ => exact absurd rfl htail

theorem corresponds_plain {ps ss : List Bytes} (h : ∀ t ∈ ps, t ≠ anyToken ∧ t ≠ anyTail) :
    Corresponds ps ss ↔ ps = ss := by
  constructor
  · intro hc
    induction hc with
    | nil => rfl
    | any _ _ _ => exact absurd rfl (h _ List.mem_cons_self).1
    | literal _ _ _ ih => rw [ih fun t ht => h t (List.mem_cons_of_mem _ ht)]
    | tail _ => exact absurd rfl (h _ List.mem_cons_self).2
  · rintro rfl
    induction ps with
    | nil => exact .nil
    | cons p ps ih =>
      obtain ⟨hany, htail⟩ := h p List.mem_cons_self
      exact .literal hany htail (ih fun t ht => h t (List.mem_cons_of_mem _ ht))

theorem mem_of_mem_tokens {s t : Bytes} {c : UInt8} (ht : t ∈ tokens s) (hc : c ∈ t) : c ∈ s := by
  induction s generalizing t with
  | nil => contradiction
  | cons d ds ih =>
    simp only [tokens] at ht
    split at ht
    · rcases List.mem_cons.mp ht with rfl | ht
      · contradiction
      · exact List.mem_cons_of_mem _ (ih ht hc)
    · split at ht
      · obtain rfl := List.mem_singleton.mp ht
        rw [List.mem_singleton.mp hc]
        exact List.mem_cons_self
      · rename_i u us hus
        rcases List.mem_cons.mp ht with rfl | ht
        · rcases List.mem_cons.mp hc with rfl | hc
          · exact List.mem_cons_self
          · exact List.mem_cons_of_mem _ (ih (hus ▸ List.mem_cons_self) hc)
        · exact List.mem_cons_of_mem _ (ih (hus ▸ List.mem_cons_of_mem _ ht) hc)

theorem tokens_plain {p : Bytes} (h : bjmPatternIs p = false) :
    ∀ t ∈ tokens p, t ≠ anyToken ∧ t ≠ anyTail := by
  intro t ht
  simp only [bjmPatternIs, List.any_eq_false, Bool.or_eq_true, beq_iff_eq, not_or] at h
  refine ⟨?_, ?_⟩ <;> rintro rfl
  · exact (h 0x2A (mem_of_mem_tokens ht (by decide +kernel))).1 rfl
  · exact (h 0x3E (mem_of_mem_tokens ht (by decide +kernel))).2 rfl

/-- A pattern matches a subject when their tokens correspond. A pattern without wildcards
matches itself alone, so the delivery engine may compare it as it is, and `>` matches every
subject. -/
theorem pattern_match_iff {p s : Bytes} (hp : bjmPatternValid p = true)
    (hfull : ∀ t ∈ p.splitOn dot, t ≠ []) (hs : bjmSubjectValid s = true) :
    (bjmPatternMatch p s = true ↔ Corresponds (p.splitOn dot) (s.splitOn dot)) ∧
    (bjmPatternIs p = false → (bjmPatternMatch p s = true ↔ p = s)) ∧
    (∀ sub : Psub, sub.cfg.pattern = p → sub.isMatch s = bjmPatternMatch p s) ∧
    bjmPatternMatch anyTail s = true := by
  simp only [bjmPatternValid, Bool.and_eq_true] at hp
  have hps := splitOn_dot_of_full hfull
  have hss := splitOn_dot_of_valid hs
  have hmatch : bjmPatternMatch p s = true ↔ Corresponds (p.splitOn dot) (s.splitOn dot) := by
    rw [hps, hss]
    exact tokensMatch_iff hp.2
  have hplain : bjmPatternIs p = false → (bjmPatternMatch p s = true ↔ p = s) := by
    intro hno
    rw [hmatch, corresponds_plain (hps ▸ tokens_plain hno)]
    constructor
    · intro heq
      have hback : [dot].intercalate (p.splitOn dot) = p := List.intercalate_splitOn dot
      rw [← hback, heq, List.intercalate_splitOn]
    · rintro rfl
      rfl
  refine ⟨hmatch, hplain, fun sub hsub => ?_, ?_⟩
  · simp only [Psub.isMatch, hsub]
    split
    · rfl
    · rename_i hno
      rw [Bool.eq_iff_iff, decide_eq_true_iff, hplain (by simpa using hno)]
  · have htokens : tokens anyTail = [anyTail] := by decide +kernel
    have hne : (tokens s).isEmpty = false := by
      rw [isEmpty_tokens]
      simp only [bjmSubjectValid, nameValid, Bool.and_eq_true, Bool.not_eq_true'] at hs
      exact hs.1.1.1.1
    simp [bjmPatternMatch, htokens, tokensMatch, hne]

/-- `orders.*.>` matches `orders.eu.new`, and `orders.eu` only itself. -/
theorem orders_pattern_match :
    bjmPatternMatch (ascii "orders.*.>") (ascii "orders.eu.new") = true ∧
      ¬ bjmPatternMatch (ascii "orders.eu") (ascii "orders.eu.new") = true := by
  obtain ⟨hmatch, -⟩ := pattern_match_iff (p := ascii "orders.*.>") (s := ascii "orders.eu.new")
    (by decide +kernel) (by decide +kernel) (by decide +kernel)
  obtain ⟨-, hplain, -⟩ := pattern_match_iff (p := ascii "orders.eu") (s := ascii "orders.eu.new")
    (by decide +kernel) (by decide +kernel) (by decide +kernel)
  refine ⟨hmatch.mpr ?_, fun h => ?_⟩
  · have hp : (ascii "orders.*.>").splitOn dot = [ascii "orders", anyToken, anyTail] := by
      decide +kernel
    have hs : (ascii "orders.eu.new").splitOn dot = [ascii "orders", ascii "eu", ascii "new"] := by
      decide +kernel
    rw [hp, hs]
    exact .literal (by decide +kernel) (by decide +kernel) (.any _ (.tail (by simp)))
  · exact absurd ((hplain (by decide +kernel)).mp h) (by decide +kernel)

end SukkalMsg
