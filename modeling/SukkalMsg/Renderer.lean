import Mathlib.Logic.Function.Basic
import SukkalMsg.JsonText
import SukkalMsg.WorkerReplies
import SukkalMsg.NameGrammar

/-!
# What `bjm_render` prints

The renderer is a visitor: it writes each value as its callback arrives, and decides on a
comma from a stack of 64 flags, one for each container that is open. A container that is
opened beyond the 64th is not counted, but its end takes one off the count.
-/

namespace SukkalMsg.Renderer

open Names Binjson JsonText PyBinjson

def RENDER_MAX_DEPTH : ℕ := 64

/-- A callback of `bj_decode`, with what it hands over: an integer, a date and an offset are
doubles in the range of the safe integers, a float is its 64 bits. -/
inductive Visit where
  | null
  | bool (t : Bool)
  | int (v : ℤ)
  | float (bits : UInt64)
  | string (s : Bytes)
  | binary (b : Bytes)
  | oid (b : Bytes)
  | date (ms : ℤ)
  | pointer (off : ℤ)
  | arrayBegin (n : ℕ)
  | arrayEnd
  | objectBegin (n : ℕ)
  | objectEnd
  | key (k : Bytes)
  deriving DecidableEq

/-- `rctx`, what has been written to its file included; `kind` is never read. -/
structure Rctx where
  f : Bytes
  depth : ℕ
  first : ℕ → Bool
  afterKey : Bool

namespace Rctx

/-- `memset`, and `first[0] = 1`. -/
def start : Rctx := ⟨[], 0, Function.update (fun _ => false) 0 true, false⟩

def write (c : Rctx) (text : Bytes) : Rctx := { c with f := c.f ++ text }

/-- The comma owed at the current depth, which is owed no more. -/
def comma (c : Rctx) : Rctx :=
  let c := if c.first c.depth then c else c.write [0x2C]
  { c with first := Function.update c.first c.depth false }

def sep (c : Rctx) : Rctx :=
  if c.depth = 0 then c
  else if c.afterKey then { c with afterKey := false }
  else c.comma

def push (c : Rctx) : Rctx :=
  if c.depth < RENDER_MAX_DEPTH then
    { c with depth := c.depth + 1, first := Function.update c.first (c.depth + 1) true }
  else c

def pop (c : Rctx) : Rctx := if 0 < c.depth then { c with depth := c.depth - 1 } else c

end Rctx

/-- A byte of a quoted string. -/
def quotedByte (ch : UInt8) : Bytes :=
  if ch = 0x22 then [0x5C, 0x22]
  else if ch = 0x5C then [0x5C, 0x5C]
  else if ch = 0x0A then [0x5C, 0x6E]
  else if ch = 0x0D then [0x5C, 0x72]
  else if ch = 0x09 then [0x5C, 0x74]
  else if ch < 0x20 then
    [0x5C, 0x75, 0x30, 0x30] ++
      [hexDigit (ch.toNat / 16), hexDigit (ch.toNat % 16)].map Char.toUInt8
  else [ch]

def putQuoted (s : Bytes) : Bytes := 0x22 :: (s.flatMap quotedByte ++ [0x22])

def putHex (b : Bytes) : Bytes :=
  b.flatMap fun c => [hexDigit (c.toNat / 16), hexDigit (c.toNat % 16)].map Char.toUInt8

/-- A double that is integral. -/
def putNum (v : ℤ) : Bytes := lldText v

namespace Rctx

/-- The visitor; `G` is what `put_num` makes of a double. -/
def visit (G : UInt64 → Bytes) (c : Rctx) : Visit → Rctx
  | .null => c.sep.write (ascii "null")
  | .bool t => c.sep.write (if t then ascii "true" else ascii "false")
  | .int v => c.sep.write (putNum v)
  | .float bits => c.sep.write (G bits)
  | .string s => c.sep.write (putQuoted s)
  | .binary b =>
    c.sep.write (ascii "bin(" ++ decimalText b.length ++ ascii ")0x" ++ putHex (b.take 32) ++
      if b.length > 32 then ascii "..." else [])
  | .oid b => c.sep.write (ascii "oid(" ++ putHex b ++ ascii ")")
  | .date ms => c.sep.write (ascii "date(" ++ putNum ms ++ ascii ")")
  | .pointer off => c.sep.write (ascii "ptr(" ++ putNum off ++ ascii ")")
  | .arrayBegin _ => (c.sep.write [0x5B]).push
  | .arrayEnd => (c.write [0x5D]).pop
  | .objectBegin _ => (c.sep.write [0x7B]).push
  | .objectEnd => (c.write [0x7D]).pop
  | .key k => { (c.comma.write (putQuoted k ++ [0x3A])) with afterKey := true }

end Rctx

/-- What is written for the callbacks of a value. -/
def bjmRender (G : UInt64 → Bytes) (visits : List Visit) : Bytes :=
  (visits.foldl (Rctx.visit G) Rctx.start).f

/-- `bj_decode`: the callbacks it makes, and whether it reaches the end. -/
abbrev Decoder := Bytes → List Visit × Bool

structure StrPeek where
  out : Bytes
  got : Bool

def peekString (p : StrPeek) : Visit → StrPeek
  | .string sv => if p.got then p else ⟨p.out ++ sv, true⟩
  | _ => p

/-- The bytes a handler is fed for a message. -/
def feedFor (G : UInt64 → Bytes) (decode : Decoder) (payload : Bytes) (raw : Bool) : Bytes :=
  if raw then payload
  else
    let visits := (decode payload).1
    let pk := visits.foldl peekString ⟨[], false⟩
    if payload.head? = some TYPE.STRING ∧ (decode payload).2 = true ∧ pk.got = true then pk.out
    else bjmRender G visits

/-! ### The callbacks of a JSON value -/

/-- A text as UTF-8. -/
def textBytes (t : Text) : Bytes := utf8 (String.ofList t)

/-- The value that some bytes are the JSON text of. -/
def jsonOf (b : Bytes) : Option Json :=
  match decodeUtf8 b with
  | .ok s => parse s.toList
  | .error _ => none

mutual

def visitsOf : Json → List Visit
  | .null => [.null]
  | .bool b => [.bool b]
  | .num n => [.int n]
  | .str s => [.string (textBytes s)]
  | .arr items => .arrayBegin items.length :: (visitsOfItems items ++ [.arrayEnd])
  | .obj pairs => .objectBegin pairs.length :: (visitsOfPairs pairs ++ [.objectEnd])

def visitsOfItems : List Json → List Visit
  | [] => []
  | v :: vs => visitsOf v ++ visitsOfItems vs

def visitsOfPairs : List (Text × Json) → List Visit
  | [] => []
  | (k, v) :: ps => .key (textBytes k) :: (visitsOf v ++ visitsOfPairs ps)

end

mutual

/-- How deep the containers of a value are nested. -/
def nesting : Json → ℕ
  | .arr items => nestingItems items + 1
  | .obj pairs => nestingPairs pairs + 1
  | _ => 0

def nestingItems : List Json → ℕ
  | [] => 0
  | v :: vs => max (nesting v) (nestingItems vs)

def nestingPairs : List (Text × Json) → ℕ
  | [] => 0
  | (_, v) :: ps => max (nesting v) (nestingPairs ps)

end

mutual

/-- A value inside `level` containers, the nesting before it having been `deepest` at most: a
container that goes deeper than 64 and than everything before it is empty, and an element
begins only while nothing before it is 64 deeper than its container. -/
def Kept (level deepest : ℕ) : Json → Prop
  | .arr items =>
    (RENDER_MAX_DEPTH ≤ level → deepest ≤ level → items = []) ∧
      KeptItems (level + 1) (max deepest (level + 1)) items
  | .obj pairs =>
    (RENDER_MAX_DEPTH ≤ level → deepest ≤ level → pairs = []) ∧
      KeptPairs (level + 1) (max deepest (level + 1)) pairs
  | _ => True

def KeptItems (level deepest : ℕ) : List Json → Prop
  | [] => True
  | v :: vs => deepest < level + RENDER_MAX_DEPTH ∧ Kept level deepest v ∧
      KeptItems level (max deepest (level + nesting v)) vs

def KeptPairs (level deepest : ℕ) : List (Text × Json) → Prop
  | [] => True
  | (_, v) :: ps => deepest < level + RENDER_MAX_DEPTH ∧ Kept level deepest v ∧
      KeptPairs level (max deepest (level + nesting v)) ps

end

/-! ### Bytes of a text -/

theorem textBytes_eq (t : Text) : textBytes t = t.flatMap String.utf8EncodeChar := by
  rw [textBytes, utf8_eq, String.toList_ofList]

@[simp] theorem textBytes_nil : textBytes [] = [] := by simp [textBytes_eq]

@[simp] theorem textBytes_append (t u : Text) :
    textBytes (t ++ u) = textBytes t ++ textBytes u := by
  simp [textBytes_eq]

theorem textBytes_cons (c : Char) (t : Text) :
    textBytes (c :: t) = String.utf8EncodeChar c ++ textBytes t := by
  simp [textBytes_eq]

theorem utf8Char_of_ascii {c : Char} (h : c.toNat < 128) :
    String.utf8EncodeChar c = [c.toUInt8] := by
  have hle : c.val.toNat ≤ 0x7F := Nat.lt_succ_iff.mp h
  simp only [String.utf8EncodeChar, if_pos hle, Char.toUInt8, List.cons.injEq, and_true]
  apply UInt8.toNat_inj.mp
  rw [UInt8.toNat_ofNat', UInt32.toNat_toUInt8]

theorem textBytes_ascii {t : Text} (h : ∀ c ∈ t, c.toNat < 128) :
    textBytes t = t.map Char.toUInt8 := by
  induction t with
  | nil => simp
  | cons c t ih =>
    have hc := utf8Char_of_ascii (h c List.mem_cons_self)
    rw [textBytes_cons, hc, ih fun d hd => h d (List.mem_cons_of_mem _ hd)]
    rfl

theorem jsonOf_textBytes (t : Text) : jsonOf (textBytes t) = parse t := by
  simp only [jsonOf, textBytes, decodeUtf8_utf8, String.toList_ofList]

/-- A character beyond ASCII has bytes beyond ASCII only. -/
theorem utf8Char_high {c : Char} (h : ¬ c.toNat < 128) {b : UInt8}
    (hb : b ∈ String.utf8EncodeChar c) : 128 ≤ b.toNat := by
  have hle : ¬ c.val.toNat ≤ 0x7F := fun hle => h (Nat.lt_succ_iff.mpr hle)
  simp only [String.utf8EncodeChar, if_neg hle] at hb
  split at hb
  · simp only [List.mem_cons, List.not_mem_nil, or_false] at hb
    rcases hb with rfl | rfl <;> rw [UInt8.toNat_ofNat'] <;> omega
  · split at hb
    · simp only [List.mem_cons, List.not_mem_nil, or_false] at hb
      rcases hb with rfl | rfl | rfl <;> rw [UInt8.toNat_ofNat'] <;> omega
    · simp only [List.mem_cons, List.not_mem_nil, or_false] at hb
      rcases hb with rfl | rfl | rfl | rfl <;> rw [UInt8.toNat_ofNat'] <;> omega

theorem quotedByte_high {b : UInt8} (h : 128 ≤ b.toNat) : quotedByte b = [b] := by
  have hne : ∀ d : UInt8, d.toNat < 128 → b ≠ d := by
    rintro d hd rfl
    omega
  have hctl : ¬ b < 0x20 := by
    rw [UInt8.lt_iff_toNat_lt]
    exact fun hlt => absurd (Nat.lt_trans hlt (by decide : (0x20 : UInt8).toNat < 128)) (by omega)
  simp only [quotedByte, hne _ (by decide : (0x22 : UInt8).toNat < 128),
    hne _ (by decide : (0x5C : UInt8).toNat < 128), hne _ (by decide : (0x0A : UInt8).toNat < 128),
    hne _ (by decide : (0x0D : UInt8).toNat < 128), hne _ (by decide : (0x09 : UInt8).toNat < 128),
    hctl, if_false]

theorem quotedChar_ascii : ∀ n < 128,
    (String.utf8EncodeChar (Char.ofNat n)).flatMap quotedByte =
      (escape (Char.ofNat n)).flatMap String.utf8EncodeChar := by decide +kernel

theorem quotedChar (c : Char) :
    (String.utf8EncodeChar c).flatMap quotedByte = textBytes (escape c) := by
  rw [textBytes_eq]
  by_cases h : c.toNat < 128
  · have hc := quotedChar_ascii c.toNat h
    rwa [Char.ofNat_toNat] at hc
  · have hsame : (String.utf8EncodeChar c).flatMap quotedByte =
        (String.utf8EncodeChar c).flatMap fun b => [b] :=
      List.flatMap_congr fun b hb => quotedByte_high (utf8Char_high h hb)
    have hne : ∀ d : Char, d.toNat < 128 → c ≠ d := by
      rintro d hd rfl
      exact h hd
    have hctl : ¬ c.toNat < 0x20 := by omega
    have hesc : escape c = [c] := by
      simp only [escape, hne '"' (by decide), hne '\\' (by decide), hne '\n' (by decide),
        hne '\r' (by decide), hne '\t' (by decide), hctl, if_false]
    rw [hsame, hesc]
    simp

theorem putQuoted_textBytes (s : Text) : putQuoted (textBytes s) = textBytes (quoted s) := by
  have hbody : (textBytes s).flatMap quotedByte = textBytes (s.flatMap escape) := by
    induction s with
    | nil => simp
    | cons c s ih =>
      rw [textBytes_cons, List.flatMap_append, quotedChar, ih, List.flatMap_cons, textBytes_append]
  have hquote : String.utf8EncodeChar '"' = [0x22] := by decide +kernel
  simp only [putQuoted, hbody, quoted, textBytes_cons, textBytes_append, textBytes_nil, hquote,
    List.append_nil, List.singleton_append]

theorem decimalText_eq (n : ℕ) : decimalText n = textBytes (natText n) := by
  rw [textBytes_ascii]
  · rfl
  · intro c hc
    have hd := isDigit_of_mem_natText hc
    simp only [Char.isDigit, Bool.and_eq_true, decide_eq_true_eq, UInt32.le_iff_toNat_le] at hd
    exact Nat.lt_of_le_of_lt hd.2 (by decide)

theorem putNum_eq (n : ℤ) : putNum n = textBytes (intText n) := by
  by_cases h : n < 0
  · have hminus : String.utf8EncodeChar '-' = [0x2D] := by decide +kernel
    simp only [putNum, lldText, intText, h, if_true, textBytes_cons, hminus, decimalText_eq]
    rfl
  · have hnat : n.toNat = n.natAbs := by omega
    simp only [putNum, lldText, intText, h, if_false, decimalText_eq, hnat]

end SukkalMsg.Renderer
