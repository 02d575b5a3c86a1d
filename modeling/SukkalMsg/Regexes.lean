import Mathlib.Data.List.Infix
import Mathlib.Tactic.Common

/-!
# Anchored regular expressions with negative look-ahead

A string is a list of code units. Matching an expression at a place yields every rest it
can stop in front of. What `.` does not match, and where `$` holds, is the dialect's: some
stop a line at other units than others, and some let `$` hold in front of a final line end.
-/

namespace SukkalMsg.Regexes

/-- What a repeated unit may be. -/
inductive UnitClass where
  | dot
  | among (p : ℕ → Bool)

inductive Regex where
  | start
  | finish
  | run (c : UnitClass) (least : ℕ) (most : Option ℕ)
  | notAhead (r : Regex)
  | seq (a b : Regex)

structure Dialect where
  lineEnd : ℕ → Bool
  atEnd : List ℕ → Bool

def UnitClass.has (d : Dialect) : UnitClass → ℕ → Bool
  | .dot, c => !d.lineEnd c
  | .among p, c => p c

/-- Where a run of units can stop, the longest first. -/
def runEnds (p : ℕ → Bool) : ℕ → Option ℕ → List ℕ → List (List ℕ)
  | least, _, [] => if least = 0 then [[]] else []
  | least, most, c :: s =>
    (if p c && most != some 0 then runEnds p (least - 1) (most.map (· - 1)) s else []) ++
      if least = 0 then [c :: s] else []

namespace Regex

/-- Where the expression can stop, in a string of `size` units of which this is the rest. -/
def ends (d : Dialect) (size : ℕ) : Regex → List ℕ → List (List ℕ)
  | .start, s => if s.length = size then [s] else []
  | .finish, s => if d.atEnd s then [s] else []
  | .run c least most, s => runEnds (c.has d) least most s
  | .notAhead r, s => if (r.ends d size s).isEmpty then [s] else []
  | .seq a b, s => (a.ends d size s).flatMap (b.ends d size)

/-- It matches at the start of the string. -/
def matchStart (d : Dialect) (r : Regex) (s : List ℕ) : Bool := !(r.ends d s.length s).isEmpty

/-- It matches somewhere in the string. -/
def test (d : Dialect) (r : Regex) (s : List ℕ) : Bool :=
  s.tails.any fun t => !(r.ends d s.length t).isEmpty

end Regex

variable {d : Dialect} {size : ℕ} {s t : List ℕ}

/-- A run is a prefix of such units, of a length within its bounds. -/
theorem mem_runEnds {p : ℕ → Bool} {least : ℕ} {most : Option ℕ} :
    t ∈ runEnds p least most s ↔
      ∃ pre, s = pre ++ t ∧ (∀ c ∈ pre, p c = true) ∧ least ≤ pre.length ∧
        ∀ m, most = some m → pre.length ≤ m := by
  induction s generalizing least most with
  | nil =>
    simp only [runEnds]
    constructor
    · intro h
      split at h
      · exact ⟨[], by simpa using h, by simp, by omega, by simp⟩
      · contradiction
    · rintro ⟨pre, heq, -, hl, -⟩
      obtain ⟨rfl, rfl⟩ := List.append_eq_nil_iff.mp heq.symm
      rw [if_pos (by simpa using hl)]
      exact List.mem_singleton_self _
  | cons c s ih =>
    simp only [runEnds, List.mem_append]
    constructor
    · rintro (h | h)
      · split at h
        · rename_i hc
          simp only [Bool.and_eq_true, bne_iff_ne, ne_eq] at hc
          obtain ⟨pre, rfl, hp, hl, hm⟩ := ih.mp h
          refine ⟨c :: pre, rfl, ?_, by rw [List.length_cons]; omega, fun m hmost => ?_⟩
          · intro x hx
            rcases List.mem_cons.mp hx with rfl | hx
            · exact hc.1
            · exact hp x hx
          · have := hm (m - 1) (by simp [hmost])
            have hpos : m ≠ 0 := by
              rintro rfl
              exact hc.2 hmost
            rw [List.length_cons]
            omega
        · contradiction
      · split at h
        · exact ⟨[], by simpa using (List.mem_singleton.mp h).symm, by simp, by omega, by simp⟩
        · contradiction
    · rintro ⟨pre, heq, hp, hl, hm⟩
      cases pre with
      | nil =>
        right
        rw [if_pos (by simpa using hl)]
        exact List.mem_singleton.mpr heq.symm
      | cons x pre =>
        left
        obtain ⟨rfl, rfl⟩ := List.cons.inj heq
        rw [List.length_cons] at hl
        have hne : most ≠ some 0 := fun h => by
          have := hm 0 h
          rw [List.length_cons] at this
          omega
        rw [if_pos (by simp [hp c List.mem_cons_self, hne])]
        refine ih.mpr ⟨pre, rfl, fun x hx => hp x (List.mem_cons_of_mem _ hx), by omega, ?_⟩
        intro m hmost
        obtain ⟨n, hn, rfl⟩ := Option.map_eq_some_iff.mp hmost
        have := hm n hn
        rw [List.length_cons] at this
        omega

namespace Regex

theorem mem_ends_start : t ∈ Regex.start.ends d size s ↔ t = s ∧ s.length = size := by
  simp only [ends]
  split <;> simp_all

theorem mem_ends_finish : t ∈ Regex.finish.ends d size s ↔ t = s ∧ d.atEnd s = true := by
  simp only [ends]
  split <;> simp_all

theorem mem_ends_run {c : UnitClass} {least : ℕ} {most : Option ℕ} :
    t ∈ (Regex.run c least most).ends d size s ↔
      ∃ pre, s = pre ++ t ∧ (∀ x ∈ pre, c.has d x = true) ∧ least ≤ pre.length ∧
        ∀ m, most = some m → pre.length ≤ m := mem_runEnds

theorem mem_ends_notAhead {r : Regex} :
    t ∈ (Regex.notAhead r).ends d size s ↔ t = s ∧ ∀ u, u ∉ r.ends d size s := by
  simp only [ends]
  cases h : r.ends d size s with
  | nil => simp
  | cons u us =>
    simp only [List.isEmpty_cons, Bool.false_eq_true, if_false, List.not_mem_nil, false_iff,
      not_and, not_forall, not_not]
    exact fun _ => ⟨u, List.mem_cons_self⟩

theorem mem_ends_seq {a b : Regex} :
    t ∈ (Regex.seq a b).ends d size s ↔ ∃ u, u ∈ a.ends d size s ∧ t ∈ b.ends d size u := by
  simp only [ends, List.mem_flatMap]

theorem ends_nonempty {r : Regex} :
    (!(r.ends d size s).isEmpty) = true ↔ ∃ t, t ∈ r.ends d size s := by
  rw [Bool.not_eq_true', ← Bool.not_eq_true, List.isEmpty_iff]
  constructor
  · exact List.exists_mem_of_ne_nil _
  · rintro ⟨t, ht⟩
    exact List.ne_nil_of_mem ht

theorem matchStart_iff {r : Regex} :
    r.matchStart d s = true ↔ ∃ t, t ∈ r.ends d s.length s := ends_nonempty

/-- An expression that begins with `^` matches at the start or nowhere. -/
theorem test_start {r : Regex} : (seq start r).test d s = (seq start r).matchStart d s := by
  rw [Bool.eq_iff_iff, matchStart_iff]
  simp only [test, List.any_eq_true, List.mem_tails, ends_nonempty]
  constructor
  · rintro ⟨u, hu, t, ht⟩
    obtain ⟨v, hv, -⟩ := mem_ends_seq.mp ht
    obtain ⟨-, hlen⟩ := mem_ends_start.mp hv
    obtain rfl := hu.eq_of_length hlen
    exact ⟨t, ht⟩
  · rintro ⟨t, ht⟩
    exact ⟨s, List.suffix_rfl, t, ht⟩

theorem matchStart_start {r : Regex} :
    (seq start r).matchStart d s = true ↔ ∃ t, t ∈ r.ends d s.length s := by
  rw [matchStart_iff]
  constructor
  · rintro ⟨t, ht⟩
    obtain ⟨u, hu, ht⟩ := mem_ends_seq.mp ht
    obtain ⟨rfl, -⟩ := mem_ends_start.mp hu
    exact ⟨t, ht⟩
  · rintro ⟨t, ht⟩
    exact ⟨t, mem_ends_seq.mpr ⟨s, mem_ends_start.mpr ⟨rfl, rfl⟩, ht⟩⟩

theorem exists_ends_notAhead {r b : Regex} :
    (∃ t, t ∈ (seq (notAhead r) b).ends d size s) ↔
      (∀ u, u ∉ r.ends d size s) ∧ ∃ t, t ∈ b.ends d size s := by
  simp only [mem_ends_seq, mem_ends_notAhead]
  constructor
  · rintro ⟨t, _, ⟨rfl, hno⟩, ht⟩
    exact ⟨hno, t, ht⟩
  · rintro ⟨hno, t, ht⟩
    exact ⟨t, s, ⟨rfl, hno⟩, ht⟩

end Regex

end SukkalMsg.Regexes
