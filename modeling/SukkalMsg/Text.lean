import SukkalMsg.Binjson

/-!
# Text as the C library reads and prints it

A C string ends at its first zero byte and is cut where its buffer ends. Numbers
are printed in decimal and read back by `strtoull`.
-/

namespace SukkalMsg

open Names Binjson

/-- A C string ends at its first zero byte. -/
def cString (b : Bytes) : Bytes := b.takeWhile (· != 0)

/-- A string printed into a buffer of `cap` bytes, terminator included. -/
def cut (cap : ℕ) (s : Bytes) : Bytes := s.take (cap - 1)

def isSpace (c : UInt8) : Bool := c == 0x20 || (0x09 ≤ c && c ≤ 0x0D)
def isDigit (c : UInt8) : Bool := 0x30 ≤ c && c ≤ 0x39

def decimal (ds : Bytes) : ℕ := ds.foldl (fun n d => n * 10 + (d.toNat - 0x30)) 0

/-- An optional sign: whether it is a minus, and what follows it. -/
def takeSign : Bytes → Bool × Bytes
  | 0x2D :: t => (true, t)
  | 0x2B :: t => (false, t)
  | t => (false, t)

/-- `strtoull` in base ten: the value, and where it stopped. -/
def strtoull (s : Bytes) : ℕ × Bytes :=
  let (negative, t) := takeSign (s.dropWhile isSpace)
  let ds := t.takeWhile isDigit
  if ds.isEmpty then (0, s)
  else
    let n := decimal ds
    let n := if n > UINT64_MAX then UINT64_MAX else if negative then u64 (2 ^ 64 - n) else n
    (n, t.dropWhile isDigit)

/-- A number as `%lld` and `%llu` print it. -/
def decimalText (n : ℕ) : Bytes := (Nat.toDigits 10 n).map Char.toUInt8

theorem forall_byte {p : UInt8 → Prop} (h : ∀ c : Fin 256, p (.ofFin c)) (c : UInt8) : p c :=
  h c.toFin

theorem isDigit_char {c : Char} (h : c.isDigit = true) :
    isDigit c.toUInt8 = true ∧ c.toUInt8.toNat = c.toNat := by
  simp only [Char.isDigit, Bool.and_eq_true, decide_eq_true_eq, UInt32.le_iff_toNat_le] at h
  obtain ⟨hlo, hhi⟩ := h
  have hn : c.toUInt8.toNat = c.toNat := by
    have hlt : c.toNat < 256 := Nat.lt_of_le_of_lt hhi (by decide)
    simp only [Char.toUInt8, UInt32.toNat_toUInt8, Char.toNat] at hlt ⊢
    omega
  refine ⟨?_, hn⟩
  simp only [isDigit, Bool.and_eq_true, decide_eq_true_eq, UInt8.le_iff_toNat_le, hn]
  exact ⟨hlo, hhi⟩

theorem isDigit_of_mem_decimalText {n : ℕ} {b : UInt8} (h : b ∈ decimalText n) :
    isDigit b = true := by
  obtain ⟨c, hc, rfl⟩ := List.mem_map.mp h
  exact (isDigit_char (Nat.isDigit_of_mem_toDigits (by decide) (by decide) hc)).1

theorem decimalText_ne_nil (n : ℕ) : decimalText n ≠ [] := by
  simp [decimalText, Nat.toDigits_ne_nil]

theorem decimal_decimalText (n : ℕ) : decimal (decimalText n) = n := by
  have hfold : ∀ (cs : List Char) (m : ℕ), (∀ c ∈ cs, c.isDigit = true) →
      (cs.map Char.toUInt8).foldl (fun n d => n * 10 + (d.toNat - 0x30)) m =
        Nat.ofDigitChars 10 cs m := by
    intro cs
    induction cs with
    | nil => exact fun _ _ => rfl
    | cons c cs ih =>
      intro m hc
      have hn := (isDigit_char (hc c List.mem_cons_self)).2
      simp only [List.map_cons, List.foldl_cons, Nat.ofDigitChars_cons, hn]
      rw [ih _ fun d hd => hc d (List.mem_cons_of_mem _ hd), Nat.mul_comm m 10]
      rfl
  rw [decimal, decimalText, hfold _ _ fun c hc =>
    Nat.isDigit_of_mem_toDigits (by decide) (by decide) hc]
  exact Nat.ofDigitChars_ten_toDigits

theorem decimalText_injective {n m : ℕ} (h : decimalText n = decimalText m) : n = m := by
  rw [← decimal_decimalText n, h, decimal_decimalText]

theorem decimalText_mul_ten {n : ℕ} (h : 0 < n) :
    decimalText (10 * n) = decimalText n ++ decimalText 0 := by
  have hd := Nat.toDigits_append_toDigits (b := 10) (n := n) (d := 0) (by decide) h (by decide)
  simp only [decimalText, ← List.map_append, hd]
  rfl

end SukkalMsg
