import SukkalMsg.Binjson

/-!
# The bytes of a record

The builder writes binjson: every number little-endian, every length in front of what
it measures, an array or an object behind its size and its count.
-/

namespace SukkalMsg.Binjson

/-- The low bytes of a number, least significant first. -/
def le : ℕ → ℕ → Bytes
  | 0, _ => []
  | k + 1, n => UInt8.ofNat n :: le k (n / 256)

/-- The number that such bytes spell. -/
def leValue : Bytes → ℕ
  | [] => 0
  | b :: bs => b.toNat + 256 * leValue bs

/-- An array or object being built. -/
structure Frame where
  tag : UInt8
  count : ℕ
  content : Bytes

structure Builder where
  frames : List Frame
  out : Bytes

namespace Builder

def value (b : Builder) (v : Bytes) : Builder :=
  match b.frames with
  | [] => { b with out := b.out ++ v }
  | f :: fs => { b with frames := { f with
      count := if f.tag = 0x10 then f.count + 1 else f.count
      content := f.content ++ v } :: fs }

def key (b : Builder) (k : Bytes) : Builder :=
  match b.frames with
  | [] => b
  | f :: fs => { b with frames :=
      { f with count := f.count + 1, content := f.content ++ le 4 k.length ++ k } :: fs }

def close (b : Builder) : Builder :=
  match b.frames with
  | [] => b
  | f :: fs => value { b with frames := fs }
      (f.tag :: le 4 (f.content.length + 4) ++ le 4 f.count ++ f.content)

def put (b : Builder) : Item → Builder
  | .beginObject => { b with frames := ⟨0x11, 0, []⟩ :: b.frames }
  | .beginArray => { b with frames := ⟨0x10, 0, []⟩ :: b.frames }
  | .endObject | .endArray => b.close
  | .key k => b.key k
  | .int v => b.value (0x03 :: le 8 (ofDouble v))
  | .string s => b.value (0x05 :: le 4 s.length ++ s)
  | .binary s => b.value (0x09 :: le 4 s.length ++ s)
  | .bool t => b.value [if t then 0x02 else 0x01]
  | .null => b.value [0x00]

end Builder

/-- The bytes of a record. -/
def encode (r : Record) : Bytes := (r.foldl Builder.put ⟨[], []⟩).out

theorem length_le (k n : ℕ) : (le k n).length = k := by
  induction k generalizing n with
  | zero => rfl
  | succ k ih => simp [le, ih]

theorem le_injective {k n m : ℕ} (hn : n < 256 ^ k) (hm : m < 256 ^ k) (h : le k n = le k m) :
    n = m := by
  induction k generalizing n m with
  | zero => omega
  | succ k ih =>
    obtain ⟨hhead, htail⟩ := List.cons.inj h
    have hmod : n % 256 = m % 256 := by
      have := congrArg UInt8.toNat hhead
      simpa [UInt8.toNat_ofNat'] using this
    rw [Nat.pow_succ] at hn hm
    have := ih (Nat.div_lt_of_lt_mul (by omega)) (Nat.div_lt_of_lt_mul (by omega)) htail
    omega

theorem leValue_le {k n : ℕ} (h : n < 256 ^ k) : leValue (le k n) = n := by
  induction k generalizing n with
  | zero => simp only [leValue, le]; omega
  | succ k ih =>
    have hlt : n / 256 < 256 ^ k := by
      rw [Nat.pow_succ] at h
      exact Nat.div_lt_of_lt_mul (by omega)
    simp only [leValue, le, ih hlt, UInt8.toNat_ofNat']
    omega

theorem le_leValue (bs : Bytes) : le bs.length (leValue bs) = bs := by
  induction bs with
  | nil => rfl
  | cons b bs ih =>
    have hdiv : (b.toNat + 256 * leValue bs) / 256 = leValue bs := by
      have := b.toNat_lt
      omega
    have hmod : UInt8.ofNat (b.toNat + 256 * leValue bs) = b := by
      apply UInt8.toNat_inj.mp
      have := b.toNat_lt
      rw [UInt8.toNat_ofNat']
      omega
    simp only [List.length_cons, le, leValue, hdiv, hmod, ih]

theorem leValue_lt (bs : Bytes) : leValue bs < 256 ^ bs.length := by
  induction bs with
  | nil => simp [leValue]
  | cons b bs ih =>
    have := b.toNat_lt
    simp only [leValue, List.length_cons, Nat.pow_succ]
    omega

end SukkalMsg.Binjson
