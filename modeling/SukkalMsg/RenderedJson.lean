import SukkalMsg.RenderSteps

/-!
# JSON text out of the renderer

A value is printed as its JSON text exactly when the count of open containers does not run
out before an element begins, and nothing is inside a container that was not counted. By
induction on the value, its elements and its pairs.
-/

namespace SukkalMsg.Renderer

open Names Binjson JsonText PyBinjson

variable {G : UInt64 → Bytes} {c c' c'' : Rctx}

/-! ### Values -/

theorem starts_byte {ch : Char} (h : Starts ch) :
    ∃ x u, String.utf8EncodeChar ch = x :: u ∧ x ≠ 0x2C := by
  by_cases hlow : ch.toNat < 128
  · refine ⟨ch.toUInt8, [], utf8Char_of_ascii hlow, ?_⟩
    have hall : ∀ n < 128, (Char.ofNat n).toUInt8 = 0x2C → Char.ofNat n = ',' := by decide +kernel
    intro hx
    have hcomma := hall ch.toNat hlow
    rw [Char.ofNat_toNat] at hcomma
    exact h.2.1 (hcomma hx)
  · obtain ⟨x, u, hxu⟩ := List.exists_cons_of_ne_nil
      (List.ne_nil_of_length_pos (String.length_utf8EncodeChar ch ▸ Char.utf8Size_pos ch))
    refine ⟨x, u, hxu, ?_⟩
    rintro rfl
    have hhigh := utf8Char_high hlow (hxu ▸ List.mem_cons_self)
    exact absurd hhigh (by decide)

theorem compact_byte (v : Json) : ∃ x u, textBytes (compact v) = x :: u ∧ x ≠ 0x2C := by
  obtain ⟨ch, u, h, hs⟩ := compact_starts v
  obtain ⟨x, w, hx, hne⟩ := starts_byte hs
  exact ⟨x, w ++ textBytes u, by rw [h, textBytes_cons, hx, List.cons_append], hne⟩

/-- Nor does what is written for it, once a comma that is owed has been. -/
theorem begins (v : Json) (c : Rctx) :
    ∃ x, x ≠ 0x2C ∧ c.sep.f ++ [x] <+: (c.run G (visitsOf v)).f := by
  cases v with
  | null => exact ⟨'n'.toUInt8, by decide, ascii "ull", by simp [visitsOf, Rctx.visit, ascii]⟩
  | bool b =>
    cases b with
    | false => exact ⟨'f'.toUInt8, by decide, ascii "alse", by simp [visitsOf, Rctx.visit, ascii]⟩
    | true => exact ⟨'t'.toUInt8, by decide, ascii "rue", by simp [visitsOf, Rctx.visit, ascii]⟩
  | num n =>
    obtain ⟨x, u, hx, hne⟩ := compact_byte (.num n)
    refine ⟨x, hne, u, ?_⟩
    rw [compact] at hx
    simp [visitsOf, Rctx.visit, putNum_eq, hx]
  | str s =>
    exact ⟨0x22, by decide, _, by simp [visitsOf, Rctx.visit, putQuoted]; rfl⟩
  | arr items =>
    refine ⟨0x5B, by decide, ?_⟩
    have hext := ((c.sep.write [0x5B]).push).run_extends (G := G)
      (visitsOfItems items ++ [.arrayEnd])
    simpa [visitsOf, Rctx.visit] using hext
  | obj pairs =>
    refine ⟨0x7B, by decide, ?_⟩
    have hext := ((c.sep.write [0x7B]).push).run_extends (G := G)
      (visitsOfPairs pairs ++ [.objectEnd])
    simpa [visitsOf, Rctx.visit] using hext

/-- What stands between the brackets of a container, and when it is printed as it should be. -/
structure Inner (level deepest : ℕ) (visits : List Visit) (text : Bytes) (ok : Prop)
    (after : ℕ) (G : UInt64 → Bytes) : Prop where
  writes : ∀ {c}, Within level deepest true c → Writes ok c (c.run G visits) text
  within : ∀ {c}, Within level deepest true c → ok →
    ∃ first, Within level after first (c.run G visits)
  late : visits ≠ [] → ∀ {c}, Within level deepest false c → 0 < c.depth →
    c.f ++ [0x2C] <+: (c.run G visits).f
  head : visits ≠ [] → ∃ x u, text = x :: u ∧ x ≠ 0x2C
  empty : visits = [] → ok ∧ text = [] ∧ after = deepest

/-- A container is printed as it should be where it is counted, or has nothing in it. -/
theorem run_container {level deepest after : ℕ} {visits : List Visit} {text : Bytes} {ok : Prop}
    (hin : Inner (level + 1) (max deepest (level + 1)) visits text ok after G)
    (h : Within level deepest false c) (hl : level ≤ deepest)
    (hd : deepest ≤ level + RENDER_MAX_DEPTH) (o e : UInt8) :
    Writes ((RENDER_MAX_DEPTH ≤ level → deepest ≤ level → visits = []) ∧ ok) c
        ((((c.write [o]).push).run G visits).write [e]).pop (o :: (text ++ [e])) ∧
      ((RENDER_MAX_DEPTH ≤ level → deepest ≤ level → visits = []) ∧ ok →
        Within level after false ((((c.write [o]).push).run G visits).write [e]).pop) := by
  have ho := h.write [o]
  by_cases hfull : RENDER_MAX_DEPTH ≤ level ∧ deepest ≤ level
  · obtain ⟨hpush, hw, hpos⟩ := ho.push_full hl hfull
    rw [hpush]
    by_cases hempty : visits = []
    · obtain ⟨hok, rfl, rfl⟩ := hin.empty hempty
      subst hempty
      refine ⟨(Writes.of_eq ?_).congr (by simp [hok]), fun _ => (hw.write [e]).pop⟩
      simp
    · have hnot : ¬ ((RENDER_MAX_DEPTH ≤ level → deepest ≤ level → visits = []) ∧ ok) :=
        fun hk => hempty (hk.1 hfull.1 hfull.2)
      obtain ⟨x, u, rfl, hx⟩ := hin.head hempty
      obtain ⟨d, hlate⟩ := hin.late hempty hw hpos
      refine ⟨⟨fun hk => absurd hk hnot, fun _ => ⟨o :: 0x2C :: (d ++ [e]), ?_, ?_⟩⟩,
        fun hk => absurd hk hnot⟩
      · simp only [Rctx.pop_f, Rctx.write_f, ← hlate]
        simp
      · exact (Parts.cons hx.symm (d ++ [e]) (u ++ [e])).append_left [o]
  · have hw := ho.push hl hd hfull
    have hiff : (True ∧ ok) ∧ True ↔
        (RENDER_MAX_DEPTH ≤ level → deepest ≤ level → visits = []) ∧ ok := by
      constructor
      · exact fun hk => ⟨fun h1 h2 => absurd ⟨h1, h2⟩ hfull, hk.1.2⟩
      · exact fun hk => ⟨⟨trivial, hk.2⟩, trivial⟩
    constructor
    · have hopen : Writes True c (c.write [o]).push [o] := .of_eq (by simp)
      have hbody := hopen.trans (fun _ => hin.writes hw) (Rctx.run_extends _ _)
      have hend : Writes True ((c.write [o]).push.run G visits)
          ((((c.write [o]).push).run G visits).write [e]).pop [e] := .of_eq (by simp)
      have hclose := hbody.trans (fun _ => hend) (by simp)
      have htext : [o] ++ text ++ [e] = o :: (text ++ [e]) := by simp
      rw [htext] at hclose
      exact hclose.congr hiff
    · intro hk
      obtain ⟨first, hafter⟩ := hin.within hw hk.2
      exact (hafter.write [e]).pop

theorem run_element {level deepest : ℕ} {first : Bool} {v : Json}
    (h : Within level deepest first c) (hl : 0 < level)
    (hfirst : first = true → deepest < level + RENDER_MAX_DEPTH)
    (hv : deepest < level + RENDER_MAX_DEPTH →
      Writes (Kept level deepest v) c.sep (c.run G (visitsOf v)) (textBytes (compact v))) :
    Writes (deepest < level + RENDER_MAX_DEPTH ∧ Kept level deepest v) c (c.run G (visitsOf v))
      ((if first then [] else [0x2C]) ++ textBytes (compact v)) := by
  by_cases hd : deepest < level + RENDER_MAX_DEPTH
  · have hpos := h.depth_pos hl hd
    have hcomma : Writes True c c.sep (if first then [] else [0x2C]) := by
      rw [h.sep hpos]
      exact .of_eq (h.comma hpos).2
    obtain ⟨x, -, hx⟩ := begins (G := G) v c
    have hext := (List.prefix_append c.sep.f [x]).trans hx
    exact (hcomma.trans (fun _ => hv hd) hext).congr (by simp [hd])
  · have hlater : first = false := by
      cases first with
      | false => rfl
      | true => exact absurd (hfirst rfl) hd
    obtain ⟨x, hne, hx⟩ := begins (G := G) v c
    rw [Within.sep_outside (h.depth_zero hd)] at hx
    rw [hlater]
    exact .of_parted hne (fun hk => hd hk.1) hx

theorem run_leaf {level deepest : ℕ} {ok : Prop} {b : Bytes} (h : Within level deepest false c)
    (hl : level ≤ deepest) (hok : ok) :
    Writes ok c (c.write b) b ∧ (ok → Within level (max deepest (level + 0)) false (c.write b)) := by
  have hmax : max deepest (level + 0) = deepest := by omega
  rw [hmax]
  exact ⟨(Writes.of_eq rfl).congr (by simp [hok]), fun _ => h.write b⟩

theorem late_element {level deepest : ℕ} (v : Json) (h : Within level deepest false c)
    (hpos : 0 < c.depth) : c.f ++ [0x2C] <+: (c.run G (visitsOf v)).f := by
  obtain ⟨x, -, hx⟩ := begins (G := G) v c
  have hcomma : c.sep.f = c.f ++ [0x2C] := by
    rw [h.sep hpos, (h.comma hpos).2]
    rfl
  exact hcomma ▸ (List.prefix_append c.sep.f [x]).trans hx

theorem visitsOfItems_eq_nil {vs : List Json} : visitsOfItems vs = [] ↔ vs = [] := by
  cases vs with
  | nil => simp [visitsOfItems]
  | cons v vs => cases v <;> simp [visitsOfItems, visitsOf]

theorem visitsOfPairs_eq_nil {ps : List (Text × Json)} : visitsOfPairs ps = [] ↔ ps = [] := by
  cases ps <;> simp [visitsOfPairs]

theorem Within.key {level deepest : ℕ} {first : Bool} (h : Within level deepest first c)
    (hpos : 0 < c.depth) (k : Bytes) :
    Within level deepest false (c.visit G (.key k)).sep ∧
      (c.visit G (.key k)).sep.f =
        c.f ++ ((if first then [] else [0x2C]) ++ (putQuoted k ++ [0x3A])) := by
  obtain ⟨hc, hf⟩ := h.comma hpos
  have hdepth : c.comma.depth ≠ 0 := by
    have : c.comma.depth = c.depth := by rw [hc.depth, h.depth]
    omega
  have hsep : (c.visit G (.key k)).sep = c.comma.write (putQuoted k ++ [0x3A]) := by
    have hquiet : c.comma.afterKey = false := hc.quiet
    simp only [Rctx.visit, Rctx.sep, Rctx.write, if_neg hdepth, if_true, hquiet]
  rw [hsep]
  exact ⟨hc.write _, by rw [Rctx.write_f, hf, List.append_assoc]⟩

/-- A pair, its separator in front. -/
theorem run_pair {level deepest : ℕ} {first : Bool} {k : Text} {v : Json}
    (h : Within level deepest first c) (hl : 0 < level)
    (hfirst : first = true → deepest < level + RENDER_MAX_DEPTH)
    (hv : deepest < level + RENDER_MAX_DEPTH →
      Writes (Kept level deepest v) (c.visit G (.key (textBytes k))).sep
        ((c.visit G (.key (textBytes k))).run G (visitsOf v)) (textBytes (compact v))) :
    Writes (deepest < level + RENDER_MAX_DEPTH ∧ Kept level deepest v) c
      ((c.visit G (.key (textBytes k))).run G (visitsOf v))
      ((if first then [] else [0x2C]) ++ (textBytes (quoted k) ++ [0x3A]) ++
        textBytes (compact v)) := by
  by_cases hd : deepest < level + RENDER_MAX_DEPTH
  · have hkey := h.key (G := G) (h.depth_pos hl hd) (textBytes k)
    rw [putQuoted_textBytes] at hkey
    obtain ⟨x, -, hx⟩ := begins (G := G) v (c.visit G (.key (textBytes k)))
    have hext := (List.prefix_append (c.visit G (.key (textBytes k))).sep.f [x]).trans hx
    exact ((Writes.of_eq hkey.2).trans (fun _ => hv hd) hext).congr (by simp [hd])
  · have hlater : first = false := by
      cases first with
      | false => rfl
      | true => exact absurd (hfirst rfl) hd
    have hquote : c.f ++ [0x22] <+: (c.visit G (.key (textBytes k))).f := by
      have hnone : c.comma.f = c.f := by
        rw [c.comma_f, h.depth_zero hd, h.top]
        simp
      simp [Rctx.visit, hnone, putQuoted]
    rw [hlater]
    exact .of_parted (by decide) (fun hk => hd hk.1) (hquote.trans (Rctx.run_extends _ _))

theorem late_pair {level deepest : ℕ} (k : Bytes) (h : Within level deepest false c)
    (hpos : 0 < c.depth) : c.f ++ [0x2C] <+: (c.visit G (.key k)).f := by
  have hcomma : c.comma.f = c.f ++ [0x2C] := by
    rw [(h.comma hpos).2]
    rfl
  simp [Rctx.visit, hcomma]

theorem textBytes_separator (first : Bool) :
    textBytes (if first then [] else [',']) = if first then [] else [0x2C] := by
  have hcomma : String.utf8EncodeChar ',' = [0x2C] := by decide +kernel
  cases first <;> simp [textBytes_eq, hcomma]

theorem Within.comma_sep {level deepest : ℕ} {first : Bool} (h : Within level deepest first c)
    (hpos : 0 < c.depth) : Within level deepest false c.sep := by
  rw [h.sep hpos]
  exact (h.comma hpos).1

theorem inner_of_items {level deepest : ℕ} (hl : level ≤ deepest) (vs : List Json)
    (hrun : ∀ {c}, Within level deepest true c →
      Writes (KeptItems level deepest vs) c (c.run G (visitsOfItems vs))
          (textBytes (compactItems true vs)) ∧
        (KeptItems level deepest vs → ∃ later,
          Within level (max deepest (level + nestingItems vs)) later
            (c.run G (visitsOfItems vs)))) :
    Inner level deepest (visitsOfItems vs) (textBytes (compactItems true vs))
      (KeptItems level deepest vs) (max deepest (level + nestingItems vs)) G where
  writes h := (hrun h).1
  within h := (hrun h).2
  late hne c h hpos := by
    cases vs with
    | nil => exact absurd rfl hne
    | cons v vs =>
      rw [visitsOfItems, Rctx.run_append]
      exact (late_element v h hpos).trans (Rctx.run_extends _ _)
  head hne := by
    cases vs with
    | nil => exact absurd rfl hne
    | cons v vs =>
      obtain ⟨x, u, hx, hc⟩ := compact_byte v
      exact ⟨x, u ++ textBytes (compactItems false vs), by simp [compactItems, hx], hc⟩
  empty hnil := by
    obtain rfl := visitsOfItems_eq_nil.mp hnil
    refine ⟨trivial, textBytes_nil, ?_⟩
    simp only [nestingItems]
    omega

theorem inner_of_pairs {level deepest : ℕ} (hl : level ≤ deepest) (ps : List (Text × Json))
    (hrun : ∀ {c}, Within level deepest true c →
      Writes (KeptPairs level deepest ps) c (c.run G (visitsOfPairs ps))
          (textBytes (compactPairs true ps)) ∧
        (KeptPairs level deepest ps → ∃ later,
          Within level (max deepest (level + nestingPairs ps)) later
            (c.run G (visitsOfPairs ps)))) :
    Inner level deepest (visitsOfPairs ps) (textBytes (compactPairs true ps))
      (KeptPairs level deepest ps) (max deepest (level + nestingPairs ps)) G where
  writes h := (hrun h).1
  within h := (hrun h).2
  late hne c h hpos := by
    cases ps with
    | nil => exact absurd rfl hne
    | cons p ps =>
      rw [visitsOfPairs, Rctx.run_cons]
      exact (late_pair _ h hpos).trans (Rctx.run_extends _ _)
  head hne := by
    cases ps with
    | nil => exact absurd rfl hne
    | cons p ps =>
      have hquote : String.utf8EncodeChar '"' = [0x22] := by decide +kernel
      exact ⟨0x22, _, by simp [compactPairs, quoted, textBytes_cons, hquote]; rfl, by decide⟩
  empty hnil := by
    obtain rfl := visitsOfPairs_eq_nil.mp hnil
    refine ⟨trivial, textBytes_nil, ?_⟩
    simp only [nestingPairs]
    omega

mutual

theorem run_value (v : Json) {level deepest : ℕ} {c : Rctx} (h : Within level deepest false c.sep)
    (hl : level ≤ deepest) (hd : deepest ≤ level + RENDER_MAX_DEPTH) :
    Writes (Kept level deepest v) c.sep (c.run G (visitsOf v)) (textBytes (compact v)) ∧
      (Kept level deepest v →
        Within level (max deepest (level + nesting v)) false (c.run G (visitsOf v))) := by
  match v with
  | .null =>
    have htext : textBytes (compact .null) = ascii "null" := by decide +kernel
    rw [htext]
    exact run_leaf h hl trivial
  | .bool b =>
    have htext : textBytes (compact (.bool b)) = if b then ascii "true" else ascii "false" := by
      cases b <;> decide +kernel
    rw [htext]
    exact run_leaf h hl trivial
  | .num n =>
    rw [compact, ← putNum_eq]
    exact run_leaf h hl trivial
  | .str s =>
    rw [compact, ← putQuoted_textBytes]
    exact run_leaf h hl trivial
  | .arr items =>
    have hopen : max deepest (level + 1) < level + 1 + RENDER_MAX_DEPTH := by
      simp only [RENDER_MAX_DEPTH] at hd ⊢
      omega
    have hin := inner_of_items (Nat.le_max_right _ _) items
      fun {c} (hc : Within (level + 1) _ true c) => run_items items hc (Nat.succ_pos level) (by omega) fun _ => hopen
    have hrun := run_container hin h hl hd 0x5B 0x5D
    have hbrackets : String.utf8EncodeChar '[' = [0x5B] ∧ String.utf8EncodeChar ']' = [0x5D] := by
      decide +kernel
    have hmax : max (max deepest (level + 1)) (level + 1 + nestingItems items) =
        max deepest (level + (nestingItems items + 1)) := by omega
    simp only [visitsOfItems_eq_nil, hmax] at hrun
    simpa [Kept, nesting, visitsOf, compact, textBytes_cons, hbrackets, Rctx.visit] using hrun
  | .obj pairs =>
    have hopen : max deepest (level + 1) < level + 1 + RENDER_MAX_DEPTH := by
      simp only [RENDER_MAX_DEPTH] at hd ⊢
      omega
    have hin := inner_of_pairs (Nat.le_max_right _ _) pairs
      fun {c} (hc : Within (level + 1) _ true c) => run_pairs pairs hc (Nat.succ_pos level) (by omega) fun _ => hopen
    have hrun := run_container hin h hl hd 0x7B 0x7D
    have hbraces : String.utf8EncodeChar '{' = [0x7B] ∧ String.utf8EncodeChar '}' = [0x7D] := by
      decide +kernel
    have hmax : max (max deepest (level + 1)) (level + 1 + nestingPairs pairs) =
        max deepest (level + (nestingPairs pairs + 1)) := by omega
    simp only [visitsOfPairs_eq_nil, hmax] at hrun
    simpa [Kept, nesting, visitsOf, compact, textBytes_cons, hbraces, Rctx.visit] using hrun

theorem run_items (vs : List Json) {level deepest : ℕ} {first : Bool} {c : Rctx}
    (h : Within level deepest first c) (hpos : 0 < level) (hl : level ≤ deepest)
    (hfirst : first = true → deepest < level + RENDER_MAX_DEPTH) :
    Writes (KeptItems level deepest vs) c (c.run G (visitsOfItems vs))
        (textBytes (compactItems first vs)) ∧
      (KeptItems level deepest vs → ∃ later,
        Within level (max deepest (level + nestingItems vs)) later (c.run G (visitsOfItems vs))) := by
  match vs with
  | [] =>
    have hmax : max deepest (level + 0) = deepest := by omega
    refine ⟨(Writes.of_eq ?_).congr (by simp [KeptItems]), fun _ => ⟨first, ?_⟩⟩
    · simp [visitsOfItems, compactItems]
    · rw [nestingItems, hmax]
      exact h
  | v :: vs =>
    have hv := fun hd : deepest < level + RENDER_MAX_DEPTH =>
      run_value v (h.comma_sep (h.depth_pos hpos hd)) hl (Nat.le_of_lt hd)
    have helement := run_element h hpos hfirst fun hd => (hv hd).1
    have hrest := fun hk : deepest < level + RENDER_MAX_DEPTH ∧ Kept level deepest v =>
      run_items vs ((hv hk.1).2 hk.2) hpos (Nat.le_trans hl (Nat.le_max_left _ _)) (by simp)
    have htext : textBytes (compactItems first (v :: vs)) =
        (if first then [] else [0x2C]) ++ textBytes (compact v) ++
          textBytes (compactItems false vs) := by
      rw [compactItems, textBytes_append, textBytes_append, textBytes_separator, List.append_assoc]
    have hmax : max deepest (level + nestingItems (v :: vs)) =
        max (max deepest (level + nesting v)) (level + nestingItems vs) := by
      rw [nestingItems]
      omega
    rw [visitsOfItems, Rctx.run_append, htext, hmax]
    constructor
    · exact (helement.trans (fun hk => (hrest hk).1) (Rctx.run_extends _ _)).congr (by
        rw [KeptItems, and_assoc])
    · exact fun hk => (hrest ⟨hk.1, hk.2.1⟩).2 hk.2.2

theorem run_pairs (ps : List (Text × Json)) {level deepest : ℕ} {first : Bool} {c : Rctx}
    (h : Within level deepest first c) (hpos : 0 < level) (hl : level ≤ deepest)
    (hfirst : first = true → deepest < level + RENDER_MAX_DEPTH) :
    Writes (KeptPairs level deepest ps) c (c.run G (visitsOfPairs ps))
        (textBytes (compactPairs first ps)) ∧
      (KeptPairs level deepest ps → ∃ later,
        Within level (max deepest (level + nestingPairs ps)) later (c.run G (visitsOfPairs ps))) := by
  match ps with
  | [] =>
    have hmax : max deepest (level + 0) = deepest := by omega
    refine ⟨(Writes.of_eq ?_).congr (by simp [KeptPairs]), fun _ => ⟨first, ?_⟩⟩
    · simp [visitsOfPairs, compactPairs]
    · rw [nestingPairs, hmax]
      exact h
  | (k, v) :: ps =>
    have hv := fun hd : deepest < level + RENDER_MAX_DEPTH =>
      run_value v (h.key (G := G) (h.depth_pos hpos hd) (textBytes k)).1 hl (Nat.le_of_lt hd)
    have hpair := run_pair h hpos hfirst fun hd => (hv hd).1
    have hrest := fun hk : deepest < level + RENDER_MAX_DEPTH ∧ Kept level deepest v =>
      run_pairs ps ((hv hk.1).2 hk.2) hpos (Nat.le_trans hl (Nat.le_max_left _ _)) (by simp)
    have htext : textBytes (compactPairs first ((k, v) :: ps)) =
        (if first then [] else [0x2C]) ++ (textBytes (quoted k) ++ [0x3A]) ++
          textBytes (compact v) ++ textBytes (compactPairs false ps) := by
      have hcolon : String.utf8EncodeChar ':' = [0x3A] := by decide +kernel
      simp only [compactPairs, textBytes_append, textBytes_cons, textBytes_separator, hcolon,
        List.append_assoc]
    have hmax : max deepest (level + nestingPairs ((k, v) :: ps)) =
        max (max deepest (level + nesting v)) (level + nestingPairs ps) := by
      rw [nestingPairs]
      omega
    rw [visitsOfPairs, Rctx.run_cons, Rctx.run_append, htext, hmax]
    constructor
    · exact (hpair.trans (fun hk => (hrest hk).1) (Rctx.run_extends _ _)).congr (by
        rw [KeptPairs, and_assoc])
    · exact fun hk => (hrest ⟨hk.1, hk.2.1⟩).2 hk.2.2

end

mutual

theorem kept_of_nesting (v : Json) {level deepest : ℕ} (hl : level ≤ deepest)
    (hd : deepest ≤ RENDER_MAX_DEPTH) (hv : level + nesting v ≤ RENDER_MAX_DEPTH) :
    Kept level deepest v := by
  match v with
  | .null | .bool _ | .num _ | .str _ => trivial
  | .arr items =>
    rw [nesting] at hv
    refine ⟨fun hfull => absurd hfull (by omega), ?_⟩
    exact keptItems_of_nesting items (Nat.succ_pos level) (by omega) (by omega) (by omega)
  | .obj pairs =>
    rw [nesting] at hv
    refine ⟨fun hfull => absurd hfull (by omega), ?_⟩
    exact keptPairs_of_nesting pairs (Nat.succ_pos level) (by omega) (by omega) (by omega)

theorem keptItems_of_nesting (vs : List Json) {level deepest : ℕ} (hpos : 0 < level)
    (hl : level ≤ deepest) (hd : deepest ≤ RENDER_MAX_DEPTH)
    (hv : level + nestingItems vs ≤ RENDER_MAX_DEPTH) : KeptItems level deepest vs := by
  match vs with
  | [] => trivial
  | v :: vs =>
    rw [nestingItems] at hv
    refine ⟨by omega, kept_of_nesting v hl hd (by omega), ?_⟩
    exact keptItems_of_nesting vs hpos (by omega) (by omega) (by omega)

theorem keptPairs_of_nesting (ps : List (Text × Json)) {level deepest : ℕ} (hpos : 0 < level)
    (hl : level ≤ deepest) (hd : deepest ≤ RENDER_MAX_DEPTH)
    (hv : level + nestingPairs ps ≤ RENDER_MAX_DEPTH) : KeptPairs level deepest ps := by
  match ps with
  | [] => trivial
  | (k, v) :: ps =>
    rw [nestingPairs] at hv
    refine ⟨by omega, kept_of_nesting v hl hd (by omega), ?_⟩
    exact keptPairs_of_nesting ps hpos (by omega) (by omega) (by omega)

end

/-- `bj_decode` makes of the payload the callbacks of the value, and the payload begins with
the type byte of a string where it is one. -/
structure Carries (decode : Decoder) (payload : Bytes) (v : Json) : Prop where
  visits : decode payload = (visitsOf v, true)
  tag : payload.head? = some TYPE.STRING ↔ ∃ s, v = .str s

/-- What is printed is the compact JSON text of the value, parses back to it, and is what a
handler is fed unless the value is a string. -/
structure PrintsJson (G : UInt64 → Bytes) (decode : Decoder) (payload : Bytes) (v : Json) :
    Prop where
  text : bjmRender G (visitsOf v) = textBytes (compact v)
  back : jsonOf (bjmRender G (visitsOf v)) = some v
  fed : (¬ ∃ s, v = .str s) → feedFor G decode payload false = textBytes (compact v)

variable {decode : Decoder} {payload : Bytes} {v : Json}

/-- The renderer prints a JSON value as its JSON text exactly when no container that goes
deeper than 64 and than all before it has anything in it, and no element begins with
something before it nested 64 deeper than its container. -/
theorem prints_json_iff (h : Carries decode payload v) :
    PrintsJson G decode payload v ↔ Kept 0 0 v := by
  have hwrites := (run_value (G := G) v (c := Rctx.start) Within.start (Nat.le_refl 0)
    (Nat.zero_le _)).1
  have htext : bjmRender G (visitsOf v) = textBytes (compact v) ↔ Kept 0 0 v := hwrites.eq_iff
  constructor
  · exact fun hp => htext.mp hp.text
  · intro hk
    have hprint := htext.mpr hk
    refine ⟨hprint, ?_, fun hs => ?_⟩
    · rw [hprint, jsonOf_textBytes, parse_compact]
    · have htag : ¬ payload.head? = some TYPE.STRING := fun ht => hs (h.tag.mp ht)
      simp only [feedFor, Bool.false_eq_true, if_false, htag, false_and, h.visits, hprint]

/-- A decoder that knows one payload. -/
def knows (payload : Bytes) (v : Json) : Decoder := fun data =>
  if data = payload then (visitsOf v, true) else ([], false)

/-- `[1]`, as the broker stores it. -/
def oneInArray : Bytes := Binjson.encode [.beginArray, .int 1, .endArray]

theorem oneInArray_prints :
    PrintsJson (fun _ => []) (knows oneInArray (.arr [.num 1])) oneInArray (.arr [.num 1]) := by
  apply (prints_json_iff ⟨by simp [knows], ?_⟩).mpr
  · exact kept_of_nesting _ (Nat.le_refl 0) (Nat.zero_le _) (by decide)
  · have htag : ¬ oneInArray.head? = some TYPE.STRING := by decide +kernel
    simp [htag]

/-- A number inside 65 arrays. -/
def deepNumber : Json := (fun v => Json.arr [v])^[65] (.num 1)

def deepPayload : Bytes :=
  Binjson.encode (List.replicate 65 .beginArray ++ [.int 1] ++ List.replicate 65 .endArray)

/-- It is printed with a comma in front of it. -/
theorem deepNumber_misprinted :
    Carries (knows deepPayload deepNumber) deepPayload deepNumber ∧
      ¬ PrintsJson (fun _ => []) (knows deepPayload deepNumber) deepPayload deepNumber := by
  constructor
  · have htag : ¬ deepPayload.head? = some TYPE.STRING := by decide +kernel
    refine ⟨by simp [knows], fun h => absurd h htag, ?_⟩
    rintro ⟨s, hs⟩
    simp [deepNumber, Function.iterate_succ_apply'] at hs
  · intro h
    have hdiffer : bjmRender (fun _ => []) (visitsOf deepNumber) ≠
        textBytes (compact deepNumber) := by decide +kernel
    exact hdiffer h.text

end SukkalMsg.Renderer
