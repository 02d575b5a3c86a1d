import SukkalMsg.PushHandlers

/-!
# The query-string reader

`sukkal_query_from_string` finds a parameter in a raw query and decodes its value into
the caller's buffer. A value that does not fit is answered -1, with the buffer filled as
far as it goes.
-/

namespace SukkalMsg

def unhex (c : UInt8) : Option ℕ :=
  if 0x30 ≤ c ∧ c ≤ 0x39 then some (c.toNat - 0x30)
  else if 0x61 ≤ c ∧ c ≤ 0x66 then some (c.toNat - 0x61 + 10)
  else if 0x41 ≤ c ∧ c ≤ 0x46 then some (c.toNat - 0x41 + 10)
  else none

def unescape (c : UInt8) (behind : Bytes) : UInt8 × ℕ :=
  if c = 0x2B then (0x20, 0)
  else if c = 0x25 then
    match behind with
    | hi :: lo :: _ => match unhex hi, unhex lo with
      | some hi, some lo => (.ofNat (hi * 16 + lo), 2)
      | _, _ => (c, 0)
    | _ => (c, 0)
  else (c, 0)

/-- The loop over a value: `1` and the text, or `-1` and what had fitted. -/
def fill (size : ℕ) : ℕ → Bytes → Bytes → ℤ × Bytes
  | _, [], buf => (1, buf)
  | skip + 1, _ :: v, buf => fill size skip v buf
  | 0, c :: v, buf =>
    let (c, skip) := unescape c v
    if buf.length + 1 ≥ size then (-1, buf) else fill size skip v (buf ++ [c])

/-- The value of a parameter between two `&`, if it is this key's. -/
def valueOf (key region : Bytes) : Option Bytes :=
  if 0x3D ∈ region ∧ region.takeWhile (· != 0x3D) = key then some (region.drop (key.length + 1))
  else none

def regions : Bytes → List Bytes
  | [] => [[]]
  | c :: q =>
    if c = 0x26 then [] :: regions q
    else match regions q with
      | [] => [[c]]
      | r :: rs => (c :: r) :: rs

/-- The answer of `sukkal_query_from_string`, and what it has written into the buffer. -/
def sukkalQueryFromString (q key : Bytes) (size : ℕ) : ℤ × Bytes :=
  match (regions q).findSome? (valueOf key) with
  | none => (0, [])
  | some v => fill size 0 v []

/-- A value with its escapes undone; `skip` bytes of it are used up already. -/
def unescaped : ℕ → Bytes → Bytes
  | _, [] => []
  | skip + 1, _ :: v => unescaped skip v
  | 0, c :: v => (unescape c v).1 :: unescaped (unescape c v).2 v

def queryParameter (q key : Bytes) : Option Bytes :=
  ((regions q).findSome? (valueOf key)).map (unescaped 0)

theorem fill_eq {size skip : ℕ} {v : Bytes} (buf : Bytes) (hbuf : buf.length + 1 ≤ size) :
    fill size skip v buf = if (buf ++ unescaped skip v).length + 1 > size
      then (-1, (buf ++ unescaped skip v).take (size - 1)) else (1, buf ++ unescaped skip v) := by
  induction v generalizing skip buf with
  | nil =>
    have hfits : ¬ buf.length + 1 > size := by omega
    cases skip <;> simp [fill, unescaped, hfits]
  | cons c v ih =>
    cases skip with
    | succ skip => exact ih buf hbuf
    | zero =>
      by_cases hfull : buf.length + 1 ≥ size
      · have hlong : (buf ++ unescaped 0 (c :: v)).length + 1 > size := by
          simp only [unescaped, List.length_append, List.length_cons]
          omega
        have htake : (buf ++ unescaped 0 (c :: v)).take (size - 1) = buf := by
          rw [show size - 1 = buf.length by omega, List.take_left']
          rfl
        rw [if_pos hlong, htake]
        simp only [fill, hfull, if_true]
      · have hroom : (buf ++ [(unescape c v).1]).length + 1 ≤ size := by
          rw [List.length_append, List.length_singleton]
          omega
        have hsplit : buf ++ unescaped 0 (c :: v) =
            buf ++ [(unescape c v).1] ++ unescaped (unescape c v).2 v := by simp [unescaped]
        rw [hsplit, ← ih _ hroom]
        simp only [fill, hfull, if_false]

def Request.ReadsFrom (req : Request) (q : Bytes) : Prop :=
  ∀ key, req.query key = queryParameter q key

theorem queryGet_of_readsFrom {req : Request} {q : Bytes} (h : req.ReadsFrom q) (key : Bytes)
    {size : ℕ} (hsize : 0 < size) :
    (req.queryGet key size = match sukkalQueryFromString q key size with
      | (0, _) => .absent
      | (1, buf) => .value (cString buf)
      | _ => .refused) ∧
    req.queryBuf key size = cString (sukkalQueryFromString q key size).2 := by
  have hq := h key
  simp only [queryParameter] at hq
  simp only [Request.queryGet, Request.queryBuf, sukkalQueryFromString]
  cases hf : (regions q).findSome? (valueOf key) with
  | none =>
    rw [hf] at hq
    simp only [hq, Option.map_none, true_and]
    rfl
  | some v =>
    rw [hf] at hq
    simp only [hq, Option.map_some, fill_eq [] hsize, List.nil_append]
    by_cases hlong : (unescaped 0 v).length + 1 > size
    · simp [hlong]
    · have htake : (unescaped 0 v).take (size - 1) = unescaped 0 v :=
        List.take_of_length_le (by omega)
      simp [hlong, htake]

end SukkalMsg
