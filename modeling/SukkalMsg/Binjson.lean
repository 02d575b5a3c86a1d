import Mathlib.Data.Int.Notation
import SukkalMsg.Names

/-!
# Records as the builder writes them and the decoder reports them

A stored record is the sequence of callbacks it was built with, which is the
order in which the decoder reports it back. Integers are 64-bit signed in a
record; the decoder refuses one outside the range a double holds exactly, and
hands the others to its visitor as a double, which the store casts to `uint64_t`.
-/

namespace SukkalMsg

/-- The codes a store call answers with. -/
inductive BjErr where
  | oom | state | intRange | verify | range
  deriving DecidableEq, Repr

namespace Binjson

/-- One call of the builder, one callback of the visitor. -/
inductive Item where
  | beginObject | endObject | beginArray | endArray
  | key (k : Bytes)
  | int (v : ℤ)
  | string (s : Bytes)
  | binary (b : Bytes)
  | bool (b : Bool)
  | null
  deriving DecidableEq

abbrev Record := List Item

/-- A decoder's callback, as a visitor that ignores every value sees it. -/
inductive Callback where
  | null | bool | int | float | string | binary | oid | date | pointer
  | arrayBegin (count : ℕ) | arrayEnd
  | objectBegin (count : ℕ) | key | objectEnd
  deriving DecidableEq

/-- The largest integer a double holds exactly. -/
def MAX_SAFE_INT : ℕ := 2 ^ 53 - 1

def UINT64_MAX : ℕ := 2 ^ 64 - 1

def u64 (n : ℕ) : ℕ := n % 2 ^ 64

def u64Sub (a b : ℕ) : ℕ := u64 (a + (2 ^ 64 - u64 b))

/-- `(int64_t)n`, the cast in front of every `bj_put_int`. -/
def toInt64 (n : ℕ) : ℤ := if u64 n < 2 ^ 63 then u64 n else u64 n - 2 ^ 64

/-- `(uint64_t)v` of a decoded double; a negative one, undefined in C, wraps. -/
def ofDouble (v : ℤ) : ℕ := (v % 2 ^ 64).toNat

def putInt (n : ℕ) : Item := .int (toInt64 n)

/-- Whether the decoder accepts the item. -/
def Item.Safe : Item → Prop
  | .int v => v.natAbs ≤ MAX_SAFE_INT
  | _ => True

instance : DecidablePred Item.Safe := fun it => by
  cases it <;> unfold Item.Safe <;> infer_instance

/-- Walk a record, calling the visitor, until an integer is out of range. -/
def bjDecode {σ : Type*} (visit : σ → Item → σ) : Record → σ → Except BjErr σ
  | [], s => .ok s
  | it :: rest, s => if it.Safe then bjDecode visit rest (visit s it) else .error .intRange

/-- A record the decoder accepts to its end. -/
def Readable (r : Record) : Prop := ∀ it ∈ r, it.Safe

instance : DecidablePred Readable := fun r => by unfold Readable; infer_instance

theorem bjDecode_of_readable {σ : Type*} {visit : σ → Item → σ} {r : Record} (s : σ)
    (h : Readable r) : bjDecode visit r s = .ok (r.foldl visit s) := by
  induction r generalizing s with
  | nil => rfl
  | cons it r ih =>
    have hit : it.Safe := h it List.mem_cons_self
    simp only [bjDecode, hit, if_true, List.foldl_cons]
    exact ih _ (fun j hj => h j (List.mem_cons_of_mem _ hj))

theorem bjDecode_of_unreadable {σ : Type*} {visit : σ → Item → σ} {r : Record} (s : σ)
    (h : ¬ Readable r) : bjDecode visit r s = .error .intRange := by
  induction r generalizing s with
  | nil => exact absurd (fun it hit => absurd hit (by simp)) h
  | cons it r ih =>
    by_cases hit : it.Safe
    · simp only [bjDecode, hit, if_true]
      apply ih
      intro hr
      apply h
      intro j hj
      rcases List.mem_cons.mp hj with rfl | hj
      · exact hit
      · exact hr j hj
    · simp [bjDecode, hit]

@[simp] theorem u64_of_lt {n : ℕ} (h : n < 2 ^ 64) : u64 n = n := Nat.mod_eq_of_lt h

theorem u64_lt (n : ℕ) : u64 n < 2 ^ 64 := Nat.mod_lt _ (by decide)

theorem u64Sub_of_le {a b : ℕ} (h : b ≤ a) (ha : a < 2 ^ 64) : u64Sub a b = a - b := by
  simp only [u64Sub, u64_of_lt (Nat.lt_of_le_of_lt h ha)]
  simp only [u64]
  omega

@[simp] theorem ofDouble_toInt64 {n : ℕ} (h : n < 2 ^ 64) : ofDouble (toInt64 n) = n := by
  simp only [ofDouble, toInt64, u64_of_lt h]
  split
  · omega
  · omega

theorem u64_u64 (n : ℕ) : u64 (u64 n) = u64 n := u64_of_lt (u64_lt n)

theorem ofDouble_toInt64_eq (n : ℕ) : ofDouble (toInt64 n) = u64 n := by
  have h : toInt64 n = toInt64 (u64 n) := by simp only [toInt64, u64_u64]
  rw [h, ofDouble_toInt64 (u64_lt n)]

/-- The decoder accepts exactly the integers below `2^53`, and the topmost ones
that wrap to small negatives. -/
theorem putInt_safe_iff {n : ℕ} (h : n < 2 ^ 64) :
    (putInt n).Safe ↔ n ≤ MAX_SAFE_INT ∨ 2 ^ 64 ≤ n + MAX_SAFE_INT := by
  simp only [putInt, Item.Safe, toInt64, u64_of_lt h, MAX_SAFE_INT]
  split <;> omega

theorem putInt_safe {n : ℕ} (h : n < 2 ^ 53) : (putInt n).Safe :=
  (putInt_safe_iff (by omega)).mpr (.inl (by simp only [MAX_SAFE_INT]; omega))

/-- A number the codec carries: it is written, accepted and cast back to itself. -/
def Carried (n : ℕ) : Prop := n ≤ MAX_SAFE_INT ∨ 2 ^ 64 ≤ n + MAX_SAFE_INT ∧ n < 2 ^ 64

instance : DecidablePred Carried := fun n => by unfold Carried; infer_instance

namespace Carried

variable {n : ℕ}

theorem of_le (h : n ≤ MAX_SAFE_INT) : Carried n := .inl h

theorem of_lt (h : n < 2 ^ 53) : Carried n := .inl (by simp only [MAX_SAFE_INT]; omega)

theorem word (h : Carried n) : n < 2 ^ 64 := by
  simp only [Carried, MAX_SAFE_INT] at h
  omega

theorem safe (h : Carried n) : (putInt n).Safe := by
  rw [putInt_safe_iff h.word]
  rcases h with h | h
  · exact .inl h
  · exact .inr h.1

theorem back (h : Carried n) : ofDouble (toInt64 n) = n := ofDouble_toInt64 h.word

end Carried

end Binjson

end SukkalMsg
