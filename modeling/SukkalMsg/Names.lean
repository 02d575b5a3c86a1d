import Mathlib.Algebra.Group.Int.Defs
import Mathlib.Algebra.Group.Nat.Defs
import Mathlib.Algebra.GroupWithZero.Nat
import Mathlib.Data.List.Basic

/-!
# Names, identifiers and the keys built from them

C strings are byte strings. A subject, a consumer and a group share one grammar,
`name_valid`; an idempotency id has a looser one. Every tree of the store keys its
records by two names with `/` between them, a byte neither side may contain.
-/

namespace SukkalMsg

abbrev Bytes := List UInt8

/-- The bytes of an ASCII literal. -/
def ascii (s : String) : Bytes := s.toList.map Char.toUInt8

namespace Names

def BJM_SUBJECT_MAX : ℕ := 128
def BJM_CONSUMER_MAX : ℕ := 128
def BJM_GROUP_MAX : ℕ := 128
def BJM_CALLBACK_MAX : ℕ := 512
def BJM_TOKEN_MAX : ℕ := 128
def BJM_DEDUP_ID_MAX : ℕ := 128

def dot : UInt8 := 0x2E
def slash : UInt8 := 0x2F
def BJM_DEAD_SUFFIX : Bytes := ascii ".dead"

/-- The alphabet of a name, its separator `.` apart. -/
def nameChar (c : UInt8) : Bool :=
  (0x61 ≤ c && c ≤ 0x7A) || (0x41 ≤ c && c ≤ 0x5A) || (0x30 ≤ c && c ≤ 0x39) ||
    c == 0x5F || c == 0x2D

/-- The loop of `name_valid`: every byte is legal and no two dots touch. -/
def nameBody : Bytes → Bool
  | [] => true
  | c :: cs => (nameChar c || c == dot) && !(c == dot && cs.head? == some dot) && nameBody cs

def nameValid (s : Bytes) (max : ℕ) : Bool :=
  !s.isEmpty && s.length ≤ max && s.head? != some dot && s.getLast? != some dot && nameBody s

def bjmSubjectValid (s : Bytes) : Bool := nameValid s BJM_SUBJECT_MAX
def bjmConsumerValid (s : Bytes) : Bool := nameValid s BJM_CONSUMER_MAX
def bjmGroupValid (s : Bytes) : Bool := nameValid s BJM_GROUP_MAX

/-- An id is opaque apart from the separator, control bytes and its length. -/
def bjmDedupIdValid (s : Bytes) : Bool :=
  !s.isEmpty && s.length ≤ BJM_DEDUP_ID_MAX && s.all fun c => !(c == slash || c < 0x20 || c == 0x7F)

/-- The dead-letter channel of a subject; a channel has none of its own, and a
name that would not fit has none either. -/
def deadSubjectOf (subject : Bytes) : Option Bytes :=
  if BJM_DEAD_SUFFIX <:+ subject then none
  else
    let out := subject ++ BJM_DEAD_SUFFIX
    if out.length ≥ BJM_SUBJECT_MAX + 1 || !bjmSubjectValid out then none else some out

/-- `"<subject>/<name>"`, the key of receipts, groups and remembered ids. -/
def pairKey (subject name : Bytes) : Bytes := subject ++ slash :: name

/-- The key as it is printed into a buffer of `cap` bytes, terminator included. -/
def boundedKey (cap : ℕ) (subject name : Bytes) : Option Bytes :=
  if (pairKey subject name).length ≥ cap then none else some (pairKey subject name)

def cursorKey : Bytes → Bytes → Option Bytes :=
  boundedKey (BJM_SUBJECT_MAX + BJM_CONSUMER_MAX + 2)

def queueKey : Bytes → Bytes → Option Bytes :=
  boundedKey (BJM_SUBJECT_MAX + BJM_GROUP_MAX + 2)

def dedupKey : Bytes → Bytes → Option Bytes :=
  boundedKey (BJM_SUBJECT_MAX + BJM_DEDUP_ID_MAX + 2)

theorem mem_of_nameBody {s : Bytes} (h : nameBody s = true) :
    ∀ c ∈ s, (nameChar c || c == dot) = true := by
  induction s with
  | nil => simp
  | cons c cs ih =>
    simp only [nameBody, Bool.and_eq_true] at h
    intro d hd
    rcases List.mem_cons.mp hd with rfl | hd
    · exact h.1.1
    · exact ih h.2 d hd

theorem nameValid_length {s : Bytes} {max : ℕ} (h : nameValid s max = true) : s.length ≤ max := by
  simp only [nameValid, Bool.and_eq_true, decide_eq_true_eq] at h
  exact h.1.1.1.2

theorem nameValid_body {s : Bytes} {max : ℕ} (h : nameValid s max = true) :
    nameBody s = true := by
  simp only [nameValid, Bool.and_eq_true] at h
  exact h.2

/-- A dot joins two legal bodies exactly when no other dot touches it. -/
theorem nameBody_join {x y : Bytes} : nameBody (x ++ dot :: y) = true ↔
    nameBody x = true ∧ nameBody y = true ∧ x.getLast? ≠ some dot ∧ y.head? ≠ some dot := by
  induction x with
  | nil =>
    simp only [List.nil_append, nameBody, BEq.rfl, Bool.or_true, Bool.true_and, Bool.and_eq_true,
      Bool.not_eq_true', beq_eq_false_iff_ne, List.getLast?_nil]
    constructor
    · rintro ⟨hh, hb⟩
      exact ⟨trivial, hb, by simp, hh⟩
    · rintro ⟨-, hb, -, hh⟩
      exact ⟨hh, hb⟩
  | cons c cs ih =>
    rw [List.cons_append]
    simp only [nameBody, Bool.and_eq_true, ih]
    cases cs with
    | nil =>
      simp only [List.nil_append, List.head?_cons, List.head?_nil, List.getLast?_singleton,
        List.getLast?_nil, BEq.rfl, Bool.and_true, nameBody]
      by_cases hc : c = dot
      · subst hc
        simp
      · simp [hc]
    | cons d ds =>
      simp only [List.cons_append, List.head?_cons, List.getLast?_cons_cons]
      tauto

/-- Two names joined by a dot are a name, as long as it fits, and conversely. -/
theorem nameValid_join {x y : Bytes} {max : ℕ} : nameValid (x ++ dot :: y) max = true ↔
    nameValid x max = true ∧ nameValid y max = true ∧ (x ++ dot :: y).length ≤ max := by
  simp only [nameValid, Bool.and_eq_true, decide_eq_true_eq, nameBody_join, bne_iff_ne]
  cases x with
  | nil => simp
  | cons c cs =>
    cases y with
    | nil =>
      have hlast : (c :: cs ++ [dot]).getLast? = some dot := List.getLast?_concat ..
      rw [hlast]
      simp
    | cons d ds =>
      have hlast : (c :: cs ++ dot :: d :: ds).getLast? = (d :: ds).getLast? := by
        simp only [List.getLast?_append, List.getLast?_cons_cons]
        cases h : (d :: ds).getLast? with
        | none => simp at h
        | some e => rfl
      rw [hlast]
      simp only [List.length_append, List.length_cons, List.cons_append, List.head?_cons,
        List.isEmpty_cons, Bool.not_false, true_and]
      constructor
      · rintro ⟨⟨⟨hl, hh⟩, hd⟩, hx, hy, hxl, hyh⟩
        exact ⟨⟨⟨⟨by omega, hh⟩, hxl⟩, hx⟩, ⟨⟨⟨by omega, hyh⟩, hd⟩, hy⟩, hl⟩
      · rintro ⟨⟨⟨⟨-, hh⟩, hxl⟩, hx⟩, ⟨⟨⟨-, hyh⟩, hd⟩, hy⟩, hl⟩
        exact ⟨⟨⟨hl, hh⟩, hd⟩, hx, hy, hxl, hyh⟩

theorem slash_notMem_of_nameValid {s : Bytes} {max : ℕ} (h : nameValid s max = true) :
    slash ∉ s := by
  intro hm
  have := mem_of_nameBody (nameValid_body h) slash hm
  revert this
  decide

/-- The first of a byte splits a string in one way. -/
theorem split_at_mark {c : UInt8} {s t n m : Bytes} (hs : c ∉ s) (ht : c ∉ t)
    (h : s ++ c :: n = t ++ c :: m) : s = t ∧ n = m := by
  induction s generalizing t with
  | nil =>
    cases t with
    | nil => exact ⟨rfl, (List.cons.inj h).2⟩
    | cons b t =>
      have := (List.cons.inj h).1
      exact absurd (this ▸ List.mem_cons_self) ht
  | cons a s ih =>
    cases t with
    | nil =>
      have := (List.cons.inj h).1
      exact absurd (this ▸ List.mem_cons_self) hs
    | cons b t =>
      obtain ⟨hab, htail⟩ := List.cons.inj h
      obtain ⟨hst, hnm⟩ := ih (fun hm => hs (List.mem_cons_of_mem _ hm))
        (fun hm => ht (List.mem_cons_of_mem _ hm)) htail
      exact ⟨by rw [hab, hst], hnm⟩

/-- A key reads back as the two names it was built from. -/
theorem pairKey_injective {s t n m : Bytes} (hs : slash ∉ s) (ht : slash ∉ t)
    (h : pairKey s n = pairKey t m) : s = t ∧ n = m :=
  split_at_mark hs ht h

/-- A key of two names without the mark reads back whatever names it was built from. -/
theorem pairKey_plain {s t n m : Bytes} (hs : slash ∉ s) (hn : slash ∉ n)
    (h : pairKey t m = pairKey s n) : t = s ∧ m = n := by
  refine pairKey_injective (fun ht => ?_) hs h
  have hcount := congrArg (List.count slash) h
  have hpos := List.count_pos_iff.mpr ht
  simp only [pairKey, List.count_append, List.count_cons_self, List.count_eq_zero.mpr hs,
    List.count_eq_zero.mpr hn] at hcount
  omega

theorem boundedKey_eq {cap : ℕ} {s n k : Bytes} (h : boundedKey cap s n = some k) :
    k = pairKey s n := by
  simp only [boundedKey] at h
  split at h
  · contradiction
  · exact (Option.some.inj h).symm

theorem boundedKey_of_le {a b : ℕ} {s n : Bytes} (hs : s.length ≤ a) (hn : n.length ≤ b) :
    boundedKey (a + b + 2) s n = some (pairKey s n) := by
  have : ¬ (pairKey s n).length ≥ a + b + 2 := by
    simp only [pairKey, List.length_append, List.length_cons]
    omega
  simp [boundedKey, this]

theorem cursorKey_of_valid {s c : Bytes} (hs : bjmSubjectValid s = true)
    (hc : bjmConsumerValid c = true) : cursorKey s c = some (pairKey s c) :=
  boundedKey_of_le (nameValid_length hs) (nameValid_length hc)

theorem queueKey_of_valid {s g : Bytes} (hs : bjmSubjectValid s = true)
    (hg : bjmGroupValid g = true) : queueKey s g = some (pairKey s g) :=
  boundedKey_of_le (nameValid_length hs) (nameValid_length hg)

theorem idValid_length {s : Bytes} (h : bjmDedupIdValid s = true) :
    s.length ≤ BJM_DEDUP_ID_MAX := by
  simp only [bjmDedupIdValid, Bool.and_eq_true, decide_eq_true_eq] at h
  exact h.1.2

theorem dedupKey_of_valid {s i : Bytes} (hs : bjmSubjectValid s = true)
    (hi : bjmDedupIdValid i = true) : dedupKey s i = some (pairKey s i) :=
  boundedKey_of_le (nameValid_length hs) (idValid_length hi)

theorem deadSubjectOf_ne {subject dead : Bytes} (h : deadSubjectOf subject = some dead) :
    dead ≠ subject := by
  simp only [deadSubjectOf] at h
  split at h
  · contradiction
  · split at h
    · contradiction
    · obtain rfl := Option.some.inj h
      intro he
      have := congrArg List.length he
      simp [BJM_DEAD_SUFFIX, ascii] at this

end Names

end SukkalMsg
