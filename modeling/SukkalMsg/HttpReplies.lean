import SukkalMsg.ReplySettlement

/-!
# What the engine hears of an HTTP answer

A receiver answers with a status, headers and a text; the transport hands the engine
every line of its head. Of those only two count, and the numbers in them are read back
as they were printed.
-/

namespace SukkalMsg

open Names Binjson

structure HttpReply where
  status : ℕ
  headers : List (Bytes × Bytes)
  body : Bytes

def crlf : Bytes := [0x0D, 0x0A]

/-- One header line, as it is sent. -/
def headerLine (h : Bytes × Bytes) : Bytes := h.1 ++ (ascii ": " ++ (h.2 ++ crlf))

/-- The line is none of the two that settle a delivery. -/
def Unmarked (line : Bytes) : Prop :=
  Psub.hdrIs line (ascii "x-sukkal-ack:") = none ∧ Psub.hdrIs line (ascii "x-sukkal-done:") = none

/-- The engine is told of this answer: its status, and its headers between others. -/
structure Conveys (h : HttpReply) (r : Reply) : Prop where
  reached : r.reached = true
  status : r.status = h.status
  headers : ∃ pre post, r.headers = pre ++ h.headers.map headerLine ++ post ∧
    ∀ line ∈ pre ++ post, Unmarked line

/-- Numbers with commas between them. -/
def commaList (ns : List ℕ) : Bytes := [0x2C].intercalate (ns.map decimalText)

/-! ### Reading numbers back -/

theorem u64_step (n d : ℕ) : u64 (u64 n * 10 + d) = u64 (n * 10 + d) := by
  simp only [u64]
  omega

theorem numbers_digits {ds : Bytes} (k : ℕ) (rest : Bytes) (h : ∀ d ∈ ds, isDigit d = true) :
    Psub.numbers (some (u64 k)) (ds ++ rest) =
      Psub.numbers (some (u64 (ds.foldl (fun n d => n * 10 + (d.toNat - 0x30)) k))) rest := by
  induction ds generalizing k with
  | nil => rfl
  | cons d ds ih =>
    have hd := h d List.mem_cons_self
    simp only [List.cons_append, Psub.numbers, hd, if_true, Option.getD_some, u64_step,
      List.foldl_cons]
    exact ih _ fun c hc => h c (List.mem_cons_of_mem _ hc)

/-- A printed number is read, as far as the text behind it is none. -/
theorem numbers_decimalText {n : ℕ} (hn : n < 2 ^ 64) (rest : Bytes)
    (hr : ∀ c ∈ rest.head?, isDigit c = false) :
    Psub.numbers none (decimalText n ++ rest) = n :: Psub.numbers none rest := by
  have hdigits : ∀ d ∈ decimalText n, isDigit d = true := fun d => isDigit_of_mem_decimalText
  have hread : Psub.numbers (some (u64 0)) (decimalText n ++ rest) =
      Psub.numbers (some n) rest := by
    rw [numbers_digits 0 rest hdigits]
    have hval := decimal_decimalText n
    rw [decimal] at hval
    rw [hval, u64_of_lt hn]
  have hstart : Psub.numbers none (decimalText n ++ rest) =
      Psub.numbers (some (u64 0)) (decimalText n ++ rest) := by
    obtain ⟨d, ds, hd⟩ := List.exists_cons_of_ne_nil (decimalText_ne_nil n)
    have hfirst := hdigits d (by rw [hd]; exact List.mem_cons_self)
    rw [hd]
    simp only [List.cons_append, Psub.numbers, hfirst, if_true, Option.getD_none,
      Option.getD_some]
    rfl
  rw [hstart, hread]
  cases rest with
  | nil => rfl
  | cons c cs =>
    have hc := hr c rfl
    simp only [Psub.numbers, hc, Bool.false_eq_true, if_false, Option.toList_some,
      Option.toList_none, List.nil_append, List.singleton_append]

/-- A list of numbers is read back, whatever blanks and line ends stand around it. -/
theorem numbers_commaList {ns : List ℕ} (h : ∀ n ∈ ns, n < 2 ^ 64) (rest : Bytes)
    (hr : ∀ c ∈ rest.head?, isDigit c = false) :
    Psub.numbers none (commaList ns ++ rest) = ns ++ Psub.numbers none rest := by
  induction ns with
  | nil => rfl
  | cons n ns ih =>
    have hn := h n List.mem_cons_self
    cases ns with
    | nil =>
      have hone : commaList [n] = decimalText n := by simp [commaList]
      rw [hone, numbers_decimalText hn rest hr]
      rfl
    | cons m ns =>
      have hmore : commaList (n :: m :: ns) ++ rest =
          decimalText n ++ (0x2C :: (commaList (m :: ns) ++ rest)) := by
        simp [commaList, List.intercalate]
      rw [hmore, numbers_decimalText hn _ (by simp; decide), List.cons_append,
        ← ih fun k hk => h k (List.mem_cons_of_mem _ hk)]
      rfl

/-- A printed number is read back up to where the digits end. -/
theorem strtoull_decimalText {n : ℕ} (hn : n < 2 ^ 64) {rest : Bytes}
    (hrest : ∀ c ∈ rest.head?, isDigit c = false) : strtoull (decimalText n ++ rest) = (n, rest) := by
  have hdigits : ∀ d ∈ decimalText n, isDigit d = true := fun d => isDigit_of_mem_decimalText
  obtain ⟨d, ds, hd⟩ := List.exists_cons_of_ne_nil (decimalText_ne_nil n)
  have hfirst : isDigit d = true := hdigits d (by rw [hd]; exact List.mem_cons_self)
  have hplain : isSpace d = false ∧ d ≠ 0x2D ∧ d ≠ 0x2B := by
    refine forall_byte (p := fun d => isDigit d = true → isSpace d = false ∧ d ≠ 0x2D ∧ d ≠ 0x2B)
      ?_ d hfirst
    decide +kernel
  have hdrop : (decimalText n ++ rest).dropWhile isSpace = decimalText n ++ rest := by
    rw [hd, List.cons_append, List.dropWhile_cons_of_neg (by simp [hplain.1])]
  have hsign : takeSign (decimalText n ++ rest) = (false, decimalText n ++ rest) := by
    rw [hd]
    simp only [List.cons_append, takeSign]
    split
    · rename_i heq
      exact absurd (List.cons.inj heq).1 hplain.2.1
    · rename_i heq
      exact absurd (List.cons.inj heq).1 hplain.2.2
    · rfl
  have hstop : rest.takeWhile isDigit = [] ∧ rest.dropWhile isDigit = rest := by
    cases rest with
    | nil => exact ⟨rfl, rfl⟩
    | cons c rest =>
      have hc := hrest c rfl
      exact ⟨List.takeWhile_cons_of_neg (by simp [hc]), List.dropWhile_cons_of_neg (by simp [hc])⟩
  have htake : (decimalText n ++ rest).takeWhile isDigit = decimalText n := by
    rw [List.takeWhile_append_of_pos hdigits, hstop.1, List.append_nil]
  have hleft : (decimalText n ++ rest).dropWhile isDigit = rest := by
    rw [List.dropWhile_append_of_pos hdigits, hstop.2]
  have hmax : ¬ n > UINT64_MAX := by
    simp only [UINT64_MAX]
    omega
  simp only [strtoull, hdrop, hsign, htake, hleft, decimal_decimalText, hmax, if_false,
    Bool.false_eq_true]
  rw [if_neg (by simp [decimalText_ne_nil])]

theorem strtoull_blank {n : ℕ} (hn : n < 2 ^ 64) :
    (strtoull (0x20 :: (decimalText n ++ crlf))).1 = n := by
  have hbreak : ∀ c ∈ crlf.head?, isDigit c = false := by
    intro c hc
    obtain rfl : (0x0D : UInt8) = c := Option.some.inj hc
    rfl
  have hread := congrArg Prod.fst (strtoull_decimalText hn hbreak)
  refine Eq.trans ?_ hread
  have hskip : (0x20 :: (decimalText n ++ crlf)).dropWhile isSpace =
      (decimalText n ++ crlf).dropWhile isSpace := rfl
  simp only [strtoull, hskip]
  split <;> rfl

/-! ### Hearing the answer -/

namespace Psub

theorem onHdr_unmarked {s : Psub} {line : Bytes} (h : Unmarked line) : onHdr s line = s := by
  simp only [onHdr, h.1, h.2]

theorem foldl_onHdr_unmarked {lines : List Bytes} (s : Psub) (h : ∀ line ∈ lines, Unmarked line) :
    lines.foldl onHdr s = s := by
  induction lines with
  | nil => rfl
  | cons line lines ih =>
    rw [List.foldl_cons, onHdr_unmarked (h line List.mem_cons_self)]
    exact ih fun l hl => h l (List.mem_cons_of_mem _ hl)

theorem foldl_onBody (data : List Bytes) (s : Psub) :
    data.foldl onBody s = { s with resp := (data.foldl onBody s).resp } := by
  induction data generalizing s with
  | nil => rfl
  | cons d data ih =>
    rw [List.foldl_cons, ih]
    rfl

theorem hear_conveyed {h : HttpReply} {r : Reply} (hr : Conveys h r) (s : Psub) :
    (s.hear r).ackHint = ((h.headers.map headerLine).foldl onHdr s).ackHint ∧
      (s.hear r).doneList = ((h.headers.map headerLine).foldl onHdr s).doneList := by
  obtain ⟨pre, post, hlines, hplain⟩ := hr.headers
  have hfold : r.headers.foldl onHdr s = (h.headers.map headerLine).foldl onHdr s := by
    rw [hlines, List.foldl_append, List.foldl_append,
      foldl_onHdr_unmarked s fun l hl => hplain l (List.mem_append_left _ hl),
      foldl_onHdr_unmarked _ fun l hl => hplain l (List.mem_append_right _ hl)]
  rw [hear, foldl_onBody, hfold]
  exact ⟨rfl, rfl⟩

theorem hdrIs_other {line name first rest : Bytes} (hline : line = first ++ rest)
    (hlen : first.length = name.length) (h : first.map lower ≠ name) : hdrIs line name = none := by
  subst hline
  simp only [hdrIs]
  split
  · rfl
  · rw [← hlen, List.take_left, if_neg h]

theorem hdrIs_same {line name first rest : Bytes} (hline : line = first ++ rest)
    (hrest : rest ≠ []) (h : first.map lower = name) : hdrIs line name = some rest := by
  subst hline
  have hlen : first.length = name.length := by rw [← h, List.length_map]
  have hpos : 0 < rest.length := List.length_pos_iff.mpr hrest
  simp only [hdrIs]
  rw [if_neg (by rw [List.length_append]; omega), ← hlen, List.take_left, if_pos h,
    List.drop_left]

end Psub

def contentText : Bytes × Bytes := (ascii "Content-Type", ascii "text/plain")

theorem unmarked_contentText : Unmarked (headerLine contentText) := by
  refine ⟨?_, ?_⟩ <;> decide

theorem headerLine_eq (name value : Bytes) :
    headerLine (name, value) = (name ++ [0x3A]) ++ (0x20 :: (value ++ crlf)) := by
  have hcolon : ascii ": " = [0x3A, 0x20] := by decide
  simp only [headerLine, hcolon, List.append_assoc, List.cons_append, List.nil_append]

theorem onHdr_ack (s : Psub) {n : ℕ} (hn : n < 2 ^ 64) :
    Psub.onHdr s (headerLine (ascii "X-Sukkal-Ack", decimalText n)) =
      { s with ackHint := some n } := by
  have hname : (ascii "X-Sukkal-Ack" ++ [0x3A]).map Psub.lower = ascii "x-sukkal-ack:" := by
    decide
  have hhdr := Psub.hdrIs_same (headerLine_eq _ (decimalText n)) (by simp) hname
  simp only [Psub.onHdr, hhdr, strtoull_blank hn]

/-- A list of finished jobs is heard as those jobs. -/
theorem onHdr_done (s : Psub) {ns : List ℕ} (hn : ∀ n ∈ ns, n < 2 ^ 64)
    (hlen : ns.length ≤ BJM_PUSH_JOBS_MAX) :
    Psub.onHdr s (headerLine (ascii "X-Sukkal-Done", commaList ns)) =
      { s with doneList := some ns } := by
  have hname : (ascii "X-Sukkal-Done" ++ [0x3A]).map Psub.lower = ascii "x-sukkal-done:" := by
    decide
  have hhdr := Psub.hdrIs_same (headerLine_eq _ (commaList ns)) (by simp) hname
  have hack : Psub.hdrIs (headerLine (ascii "X-Sukkal-Done", commaList ns))
      (ascii "x-sukkal-ack:") = none := by
    have hlength : (ascii "X-Sukkal-Done").length = (ascii "x-sukkal-ack:").length := by decide
    have hother : (ascii "X-Sukkal-Done").map Psub.lower ≠ ascii "x-sukkal-ack:" := by decide
    have hline := headerLine_eq (ascii "X-Sukkal-Done") (commaList ns)
    rw [List.append_assoc] at hline
    exact Psub.hdrIs_other hline hlength hother
  have hnumbers : Psub.numbers none (0x20 :: (commaList ns ++ crlf)) = ns := by
    have hlist := numbers_commaList hn crlf (by decide +kernel)
    have hend : Psub.numbers none crlf = [] := rfl
    rw [hend, List.append_nil] at hlist
    rw [← hlist]
    simp only [Psub.numbers, show isDigit 0x20 = false from rfl, Bool.false_eq_true, if_false,
      Option.toList_none, List.nil_append, hlist]
  rw [Psub.onHdr, hack]
  simp only [hhdr, hnumbers]
  rw [List.take_of_length_le hlen]

end SukkalMsg
