import SukkalMsg.Renderer

/-!
# The renderer's stack against the nesting of the values

What has been written stays. Two texts that have parted stay apart, whatever is written
later. The count of open containers falls behind the real one by as much as the deepest
nesting so far exceeds 64; while it has not run out, a comma is written where one belongs.
-/

namespace SukkalMsg.Renderer

open Names Binjson JsonText PyBinjson

variable {G : UInt64 → Bytes} {c c' c'' : Rctx}

def Rctx.run (G : UInt64 → Bytes) (c : Rctx) (visits : List Visit) : Rctx :=
  visits.foldl (Rctx.visit G) c

namespace Rctx

@[simp] theorem run_nil (c : Rctx) : c.run G [] = c := rfl

@[simp] theorem run_cons (c : Rctx) (e : Visit) (es : List Visit) :
    c.run G (e :: es) = (c.visit G e).run G es := rfl

@[simp] theorem run_append (c : Rctx) (es es' : List Visit) :
    c.run G (es ++ es') = (c.run G es).run G es' := by
  rw [run, List.foldl_append]
  rfl

@[simp] theorem write_f (c : Rctx) (b : Bytes) : (c.write b).f = c.f ++ b := rfl

@[simp] theorem push_f (c : Rctx) : c.push.f = c.f := by
  simp only [push]
  split <;> rfl

@[simp] theorem pop_f (c : Rctx) : c.pop.f = c.f := by
  simp only [pop]
  split <;> rfl

theorem comma_f (c : Rctx) : c.comma.f = c.f ++ if c.first c.depth then [] else [0x2C] := by
  simp only [comma]
  split <;> simp [write]

theorem sep_f (c : Rctx) : ∃ b, c.sep.f = c.f ++ b := by
  simp only [sep]
  split
  · exact ⟨[], by simp⟩
  · split
    · exact ⟨[], by simp⟩
    · exact ⟨_, c.comma_f⟩

/-- What is written stays. -/
theorem visit_extends (c : Rctx) (e : Visit) : c.f <+: (c.visit G e).f := by
  obtain ⟨b, hb⟩ := c.sep_f
  cases e <;> simp [visit, hb, comma_f]

theorem run_extends (c : Rctx) (es : List Visit) : c.f <+: (c.run G es).f := by
  induction es generalizing c with
  | nil => exact List.prefix_rfl
  | cons e es ih => exact (c.visit_extends e).trans (ih _)

end Rctx

/-! ### Texts that part -/

/-- Two texts that go different ways after a common beginning. -/
def Parts (d t : Bytes) : Prop :=
  ∃ p x y d' t', x ≠ y ∧ d = p ++ x :: d' ∧ t = p ++ y :: t'

namespace Parts

variable {d t : Bytes}

theorem cons {x y : UInt8} (h : x ≠ y) (d t : Bytes) : Parts (x :: d) (y :: t) :=
  ⟨[], x, y, d, t, h, rfl, rfl⟩

theorem append_left (h : Parts d t) (p : Bytes) : Parts (p ++ d) (p ++ t) := by
  obtain ⟨q, x, y, d', t', hxy, rfl, rfl⟩ := h
  exact ⟨p ++ q, x, y, d', t', hxy, by simp, by simp⟩

theorem append_right (h : Parts d t) (u w : Bytes) : Parts (d ++ u) (t ++ w) := by
  obtain ⟨q, x, y, d', t', hxy, rfl, rfl⟩ := h
  exact ⟨q, x, y, d' ++ u, t' ++ w, hxy, by simp, by simp⟩

theorem ne (h : Parts d t) : d ≠ t := by
  obtain ⟨q, x, y, d', t', hxy, rfl, rfl⟩ := h
  intro heq
  exact hxy (List.cons.inj (List.append_cancel_left heq)).1

end Parts

/-- From `c` to `c'` a text is written, or one that parts from it. -/
structure Writes (ok : Prop) (c c' : Rctx) (text : Bytes) : Prop where
  exact : ok → c'.f = c.f ++ text
  parts : ¬ ok → ∃ d, c'.f = c.f ++ d ∧ Parts d text

namespace Writes

variable {ok ok' : Prop} {t t' : Bytes}

theorem of_eq (h : c'.f = c.f ++ t) : Writes True c c' t :=
  ⟨fun _ => h, fun hn => absurd trivial hn⟩

theorem congr (h : Writes ok c c' t) (hiff : ok ↔ ok') : Writes ok' c c' t :=
  ⟨fun hk => h.exact (hiff.mpr hk), fun hk => h.parts fun ho => hk (hiff.mp ho)⟩

/-- Whatever is written later, a text that has parted stays so. -/
theorem trans (h : Writes ok c c' t) (h' : ok → Writes ok' c' c'' t') (hx : c'.f <+: c''.f) :
    Writes (ok ∧ ok') c c'' (t ++ t') := by
  constructor
  · rintro ⟨hok, hok'⟩
    rw [(h' hok).exact hok', h.exact hok, List.append_assoc]
  · intro hnot
    by_cases hok : ok
    · obtain ⟨d, hd, hparts⟩ := (h' hok).parts fun hok' => hnot ⟨hok, hok'⟩
      refine ⟨t ++ d, ?_, hparts.append_left t⟩
      rw [hd, h.exact hok, List.append_assoc]
    · obtain ⟨d, hd, hparts⟩ := h.parts hok
      obtain ⟨u, hu⟩ := hx
      refine ⟨d ++ u, ?_, hparts.append_right u t'⟩
      rw [← hu, hd, List.append_assoc]

/-- A wrong byte next. -/
theorem of_parted {x y : UInt8} {u : Bytes} (hxy : x ≠ y) (hok : ¬ ok)
    (hx : c.f ++ [x] <+: c'.f) : Writes ok c c' (y :: u) := by
  refine ⟨fun h => absurd h hok, fun _ => ?_⟩
  obtain ⟨d, hd⟩ := hx
  exact ⟨x :: d, by rw [← hd, List.append_assoc]; rfl, .cons hxy d u⟩

theorem eq_iff (h : Writes ok c c' t) : c'.f = c.f ++ t ↔ ok := by
  constructor
  · intro heq
    by_contra hok
    obtain ⟨d, hd, hparts⟩ := h.parts hok
    exact hparts.ne (List.append_cancel_left (hd.symm.trans heq))
  · exact h.exact

end Writes

/-! ### The stack against the nesting -/

/-- The renderer stands inside `level` containers, the deepest nesting so far being `deepest`;
`first` tells whether the innermost one has nothing in it yet. -/
structure Within (level deepest : ℕ) (first : Bool) (c : Rctx) : Prop where
  depth : c.depth = level - (deepest - RENDER_MAX_DEPTH)
  here : 0 < c.depth → c.first c.depth = first
  spent : ∀ j, 0 < j → j < c.depth → c.first j = false
  quiet : c.afterKey = false
  top : c.first 0 = true

namespace Within

variable {level deepest : ℕ} {first : Bool}

theorem start : Within 0 0 false Rctx.start where
  depth := rfl
  here h := absurd h (Nat.lt_irrefl 0)
  spent j hj hlt := absurd hlt (Nat.not_lt_zero j)
  quiet := rfl
  top := by simp [Rctx.start]

theorem write (h : Within level deepest first c) (b : Bytes) :
    Within level deepest first (c.write b) :=
  ⟨h.depth, h.here, h.spent, h.quiet, h.top⟩

theorem depth_pos (h : Within level deepest first c) (hl : 0 < level)
    (hd : deepest < level + RENDER_MAX_DEPTH) : 0 < c.depth := by
  have := h.depth
  omega

theorem depth_zero (h : Within level deepest first c)
    (hd : ¬ deepest < level + RENDER_MAX_DEPTH) : c.depth = 0 := by
  have := h.depth
  omega

theorem comma (h : Within level deepest first c) (hpos : 0 < c.depth) :
    Within level deepest false c.comma ∧ c.comma.f = c.f ++ if first then [] else [0x2C] := by
  have hfields : c.comma.depth = c.depth ∧ c.comma.afterKey = c.afterKey ∧
      c.comma.first = Function.update c.first c.depth false := by
    simp only [Rctx.comma, Rctx.write]
    split <;> exact ⟨rfl, rfl, rfl⟩
  obtain ⟨hdepth, hkey, hfirst⟩ := hfields
  constructor
  · constructor
    · rw [hdepth, h.depth]
    · intro _
      rw [hfirst, hdepth, Function.update_self]
    · intro j hj hlt
      rw [hdepth] at hlt
      rw [hfirst, Function.update_of_ne (Nat.ne_of_lt hlt)]
      exact h.spent j hj hlt
    · rw [hkey, h.quiet]
    · rw [hfirst, Function.update_of_ne (Nat.ne_of_lt hpos)]
      exact h.top
  · rw [c.comma_f, h.here hpos]

theorem sep (h : Within level deepest first c) (hpos : 0 < c.depth) : c.sep = c.comma := by
  rw [Rctx.sep, if_neg (Nat.ne_of_gt hpos), h.quiet]
  rfl

theorem sep_outside (h : c.depth = 0) : c.sep = c := by rw [Rctx.sep, if_pos h]

/-- A container that is counted. -/
theorem push (h : Within level deepest false c) (hl : level ≤ deepest)
    (hd : deepest ≤ level + RENDER_MAX_DEPTH)
    (hroom : ¬ (RENDER_MAX_DEPTH ≤ level ∧ deepest ≤ level)) :
    Within (level + 1) (max deepest (level + 1)) true c.push := by
  have hdepth := h.depth
  have hlt : c.depth < RENDER_MAX_DEPTH := by omega
  simp only [Rctx.push, if_pos hlt]
  refine ⟨?_, ?_, ?_, h.quiet, ?_⟩
  · show c.depth + 1 = _
    omega
  · intro _
    exact Function.update_self ..
  · intro j hj hlt
    show Function.update c.first (c.depth + 1) true j = false
    rw [Function.update_of_ne (Nat.ne_of_lt hlt)]
    rcases Nat.lt_or_eq_of_le (Nat.lt_succ_iff.mp hlt) with hj' | rfl
    · exact h.spent j hj hj'
    · exact h.here hj
  · show Function.update c.first (c.depth + 1) true 0 = true
    rw [Function.update_of_ne (Nat.succ_ne_zero _).symm]
    exact h.top

/-- A container that is not. -/
theorem push_full (h : Within level deepest false c) (hl : level ≤ deepest)
    (hfull : RENDER_MAX_DEPTH ≤ level ∧ deepest ≤ level) :
    c.push = c ∧ Within (level + 1) (max deepest (level + 1)) false c ∧ 0 < c.depth := by
  have hdepth := h.depth
  have hcap : c.depth = RENDER_MAX_DEPTH := by omega
  have hpos : 0 < c.depth := by
    rw [hcap]
    decide
  refine ⟨?_, ⟨?_, h.here, h.spent, h.quiet, h.top⟩, hpos⟩
  · rw [Rctx.push, if_neg (by omega)]
  · omega

theorem pop (h : Within (level + 1) deepest first c) : Within level deepest false c.pop := by
  have hdepth := h.depth
  by_cases hpos : 0 < c.depth
  · rw [Rctx.pop, if_pos hpos]
    refine ⟨?_, ?_, ?_, h.quiet, h.top⟩
    · show c.depth - 1 = _
      omega
    · exact fun hp => h.spent _ hp (Nat.sub_lt hpos Nat.one_pos)
    · exact fun j hj hlt => h.spent j hj (Nat.lt_of_lt_pred hlt)
  · rw [Rctx.pop, if_neg hpos]
    have hzero : c.depth = 0 := by omega
    refine ⟨?_, fun hp => absurd hp hpos, fun j hj hlt => absurd hlt (by omega), h.quiet, h.top⟩
    omega

end Within

end SukkalMsg.Renderer
