import SukkalMsg.WireGrammar

/-!
# What the decoder raises

Beside its own error the decoder lets two of the interpreter's through: of a text that is
not UTF-8, and of a date that is no `datetime`. It meets one where such a text or date
stands at the outset, or as an element or key of a container that fits the buffer and whose
elements before it are values.
-/

namespace SukkalMsg.PyBinjson

open Binjson

variable {D : Type} {P : PyRuntime D} {view b : Bytes} {offset next n fuel : ℕ} {v : PyValue D}

/-- An exception that is neither the codec's own nor one of nesting. -/
def PyError.Alien : PyError → Prop
  | .binjson _ => False
  | .recursion => False
  | _ => True

def Contained {α : Type} (r : Except PyError α) : Prop :=
  ∀ e, r = .error e → ∃ msg, e = .binjson msg

/-- What a container begins with, ahead of its elements. -/
def opening (kind : UInt8) (size count : ℕ) : Bytes := kind :: (le 4 size ++ le 4 count)

/-- A container that fits the buffer, as far as some of its elements. -/
structure Opens (view : Bytes) (offset : ℕ) (kind : UInt8) (size count : ℕ) (done : Bytes) :
    Prop where
  sizeLt : size < 2 ^ 32
  countLt : count < 2 ^ 32
  fits : offset + 5 + size ≤ view.length
  reads : Reads view offset (opening kind size count ++ done)

/-- The decoder, reading at the offset, meets a text that is not UTF-8 or a date that is none. -/
inductive Stumbles (P : PyRuntime D) (view : Bytes) : ℕ → Prop
  | text {offset : ℕ} {raw : Bytes} (hlen : raw.length < 2 ^ 32) (ht : ¬ IsText raw)
    (hr : Reads view offset (TYPE.STRING :: (le 4 raw.length ++ raw))) : Stumbles P view offset
  | date {offset : ℕ} {w : Bytes} (hlen : w.length = 8)
    (hd : P.fromtimestamp (toInt64 (leValue w)) = none)
    (hr : Reads view offset (TYPE.DATE :: w)) : Stumbles P view offset
  | item {offset size count : ℕ} {items : List Bytes}
    (ho : Opens view offset TYPE.ARRAY size count items.flatten) (hlt : items.length < count)
    (hwf : ∀ item ∈ items, WellFormed P item)
    (h : Stumbles P view (offset + 9 + items.flatten.length)) : Stumbles P view offset
  | key {offset size count : ℕ} {pairs : List (Bytes × Bytes)} {raw : Bytes}
    (ho : Opens view offset TYPE.OBJECT size count
      (pairs.flatMap member ++ (le 4 raw.length ++ raw)))
    (hlt : pairs.length < count)
    (hkeys : ∀ p ∈ pairs, p.1.length < 2 ^ 32 ∧ IsText p.1)
    (hwf : ∀ p ∈ pairs, WellFormed P p.2) (hlen : raw.length < 2 ^ 32) (ht : ¬ IsText raw) :
    Stumbles P view offset
  | value {offset size count : ℕ} {pairs : List (Bytes × Bytes)} {raw : Bytes}
    (ho : Opens view offset TYPE.OBJECT size count
      (pairs.flatMap member ++ (le 4 raw.length ++ raw)))
    (hlt : pairs.length < count)
    (hkeys : ∀ p ∈ pairs, p.1.length < 2 ^ 32 ∧ IsText p.1)
    (hwf : ∀ p ∈ pairs, WellFormed P p.2) (hlen : raw.length < 2 ^ 32) (ht : IsText raw)
    (h : Stumbles P view (offset + 9 + (pairs.flatMap member).length + 4 + raw.length)) :
    Stumbles P view offset

theorem decodeUtf8_error {raw : Bytes} {e : PyError} :
    decodeUtf8 raw = .error e ↔ ¬ IsText raw ∧ e = .unicode := by
  have hiff : IsText raw ↔ ∃ s, decodeUtf8 raw = .ok s :=
    exists_congr fun s => decodeUtf8_eq_ok.symm
  rw [hiff]
  cases hd : decodeUtf8 raw with
  | ok s => simp
  | error e' =>
    have hunicode : e' = .unicode := by
      simp only [decodeUtf8] at hd
      split at hd
      · exact (Except.error.inj hd).symm
      · contradiction
    subst hunicode
    simp [eq_comm]

theorem need_contained {what : String} {e : PyError} (h : need view offset n what = .error e) :
    ¬ e.Alien := by
  simp only [need, unexpectedEnd] at h
  split at h
  · obtain rfl := Except.error.inj h
    exact id
  · contradiction

theorem u32_contained {e : PyError} (h : u32 view offset = .error e) : ¬ e.Alien := by
  rcases bind_eq_error.mp h with h | ⟨_, -, h⟩
  · exact need_contained h
  · contradiction

/-! ### What is raised is met -/

theorem decodeItems_error {dec : ℕ → Except PyError (PyValue D × ℕ)} {e : PyError}
    (hdec : ∀ o w o', dec o = .ok (w, o') → Consumes P view o o') {acc : List (PyValue D)}
    (hin : offset ≤ view.length) (h : decodeItems dec n offset acc = .error e) :
    ∃ items : List Bytes, items.length < n ∧ (∀ item ∈ items, WellFormed P item) ∧
      Reads view offset items.flatten ∧ dec (offset + items.flatten.length) = .error e := by
  induction n generalizing offset acc with
  | zero => contradiction
  | succ n ih =>
    rcases bind_eq_error.mp h with h | ⟨⟨w, o⟩, hw, hrest⟩
    · exact ⟨[], Nat.succ_pos n, by simp, ⟨hin, rfl⟩, h⟩
    · obtain ⟨b, hwf, hr, rfl⟩ := hdec _ _ _ hw
      obtain ⟨items, hlt, hall, hr', he⟩ := ih hr.inside hrest
      refine ⟨b :: items, Nat.succ_lt_succ hlt, by simpa using ⟨hwf, hall⟩, ?_, ?_⟩
      · rw [List.flatten_cons]
        exact Reads.append_iff.mpr ⟨hr, hr'⟩
      · rw [List.flatten_cons, List.length_append, ← Nat.add_assoc]
        exact he

/-- A key or a value that raises, the pairs before it being read. -/
theorem decodePairs_error {dec : ℕ → Except PyError (PyValue D × ℕ)} {e : PyError} (ha : e.Alien)
    (hdec : ∀ o w o', dec o = .ok (w, o') → Consumes P view o o')
    {obj : List (String × PyValue D)} (hin : offset ≤ view.length)
    (h : decodePairs view dec n offset obj = .error e) :
    ∃ (pairs : List (Bytes × Bytes)) (raw : Bytes), pairs.length < n ∧
      (∀ p ∈ pairs, p.1.length < 2 ^ 32 ∧ IsText p.1) ∧ (∀ p ∈ pairs, WellFormed P p.2) ∧
      raw.length < 2 ^ 32 ∧
      Reads view offset (pairs.flatMap member ++ (le 4 raw.length ++ raw)) ∧
      (¬ IsText raw ∨ IsText raw ∧
        dec (offset + (pairs.flatMap member).length + 4 + raw.length) = .error e) := by
  induction n generalizing offset obj with
  | zero => contradiction
  | succ n ih =>
    rcases bind_eq_error.mp h with h | ⟨⟨klen, o₁⟩, hu, hbody⟩
    · exact absurd ha (u32_contained h)
    obtain ⟨hlt, hr₁, ho⟩ := Reads.of_u32 hu
    simp only at hlt hr₁ ho
    subst ho
    rcases bind_eq_error.mp hbody with h | ⟨_, hneed, hrest⟩
    · exact absurd ha (need_contained h)
    obtain ⟨hlen, hr₂⟩ := Reads.of_slice (need_eq_ok.mp hneed)
    have hkey : Reads view offset (le 4 (slice view (offset + 4) klen).length ++
        slice view (offset + 4) klen) := by
      refine Reads.append_iff.mpr ⟨hlen.symm ▸ hr₁, ?_⟩
      rw [length_le]
      exact hr₂
    have hfirst := fun ht => (⟨[], slice view (offset + 4) klen, Nat.succ_pos n, by simp, by simp,
      hlen.symm ▸ hlt, by simpa using hkey, ht⟩ : ∃ (pairs : List (Bytes × Bytes)) (raw : Bytes),
        pairs.length < n + 1 ∧ (∀ p ∈ pairs, p.1.length < 2 ^ 32 ∧ IsText p.1) ∧
        (∀ p ∈ pairs, WellFormed P p.2) ∧ raw.length < 2 ^ 32 ∧
        Reads view offset (pairs.flatMap member ++ (le 4 raw.length ++ raw)) ∧
        (¬ IsText raw ∨ IsText raw ∧
          dec (offset + (pairs.flatMap member).length + 4 + raw.length) = .error e))
    rcases bind_eq_error.mp hrest with h | ⟨key, hkeytext, hvalue⟩
    · exact hfirst (.inl (decodeUtf8_error.mp h).1)
    have htext : IsText (slice view (offset + 4) klen) := ⟨key, decodeUtf8_eq_ok.mp hkeytext⟩
    rcases bind_eq_error.mp hvalue with h | ⟨⟨w, o₂⟩, hw, htail⟩
    · refine hfirst (.inr ⟨htext, ?_⟩)
      rw [hlen]
      exact h
    · obtain ⟨b, hwf, hr₃, rfl⟩ := hdec _ _ _ hw
      obtain ⟨pairs, raw, hcount, hkeys, hall, hraw, hr₄, hend⟩ := ih hr₃.inside htail
      have hpair : Reads view offset (member (slice view (offset + 4) klen, b)) := by
        simp only [member, ← List.append_assoc]
        refine Reads.append_iff.mpr ⟨hkey, ?_⟩
        rw [List.length_append, length_le, hlen, ← Nat.add_assoc]
        exact hr₃
      have hpos : offset + (member (slice view (offset + 4) klen, b)).length =
          offset + 4 + klen + b.length := by
        simp only [member, List.length_append, length_le, hlen]
        omega
      refine ⟨(slice view (offset + 4) klen, b) :: pairs, raw, Nat.succ_lt_succ hcount, ?_, ?_,
        hraw, ?_, ?_⟩
      · simpa using ⟨⟨hlen.symm ▸ hlt, htext⟩, by simpa using hkeys⟩
      · simpa using ⟨hwf, by simpa using hall⟩
      · rw [List.flatMap_cons, List.append_assoc]
        refine Reads.append_iff.mpr ⟨hpair, ?_⟩
        rw [hpos]
        exact hr₄
      · rw [List.flatMap_cons, List.length_append, ← Nat.add_assoc, hpos]
        exact hend

theorem decodeContainer_error {elements : ℕ → ℕ → Except PyError (PyValue D × ℕ)} {e : PyError}
    {kind : UInt8} (ha : e.Alien) (hin : offset + 1 ≤ view.length)
    (hk : (view.drop offset).headD 0 = kind)
    (h : decodeContainer view (offset + 1) elements = .error e) :
    ∃ size count, Opens view offset kind size count [] ∧
      elements count (offset + 9) = .error e := by
  rcases bind_eq_error.mp h with h | ⟨⟨size, at₁⟩, hu, hbody⟩
  · exact absurd ha (u32_contained h)
  obtain ⟨hlt, hr₁, ho₁⟩ := Reads.of_u32 hu
  simp only at hlt hr₁ ho₁
  subst ho₁
  rcases bind_eq_error.mp hbody with h | ⟨_, hneed, hrest⟩
  · exact absurd ha (need_contained h)
  rcases bind_eq_error.mp hrest with h | ⟨⟨count, at₂⟩, hu', htail⟩
  · exact absurd ha (u32_contained h)
  obtain ⟨hlt', hr₂, ho₂⟩ := Reads.of_u32 hu'
  simp only at hlt' hr₂ ho₂
  subst ho₂
  have hfits := need_eq_ok.mp hneed
  have hopen : Opens view offset kind size count [] := by
    refine ⟨hlt, hlt', by omega, ?_⟩
    rw [List.append_nil]
    refine .cons hin hk (Reads.append_iff.mpr ⟨hr₁, ?_⟩)
    rw [length_le]
    exact hr₂
  rcases bind_eq_error.mp htail with h | ⟨⟨result, at₃⟩, -, hend⟩
  · exact ⟨size, count, hopen, h⟩
  · simp only at hend
    split at hend
    · obtain rfl := Except.error.inj hend
      exact ha.elim
    · contradiction

theorem Opens.append {kind : UInt8} {size count : ℕ} (h : Opens view offset kind size count [])
    (hr : Reads view (offset + 9) b) : Opens view offset kind size count b := by
  refine ⟨h.sizeLt, h.countLt, h.fits, Reads.append_iff.mpr ⟨by simpa using h.reads, ?_⟩⟩
  have hlen : (opening kind size count).length = 9 := by simp [opening, length_le]
  rw [hlen]
  exact hr

theorem Opens.elements {kind : UInt8} {size count : ℕ} {done : Bytes}
    (h : Opens view offset kind size count done) :
    Reads view (offset + 9) done ∧ offset + 9 ≤ view.length := by
  obtain ⟨hopen, hdone⟩ := Reads.append_iff.mp h.reads
  have hlen : (opening kind size count).length = 9 := by simp [opening, length_le]
  have hin := hopen.inside
  rw [hlen] at hin hdone
  exact ⟨hdone, hin⟩

/-- The decoder raises another exception only where it meets the cause. -/
theorem stumbles_of_error {e : PyError} (ha : e.Alien)
    (h : decodeAt P view fuel offset = .error e) : Stumbles P view offset := by
  induction fuel generalizing offset with
  | zero =>
    obtain rfl := Except.error.inj h
    exact ha.elim
  | succ fuel ih =>
    rcases bind_eq_error.mp h with h | ⟨_, hneed, hkind⟩
    · exact absurd ha (need_contained h)
    have hin := need_eq_ok.mp hneed
    have hword : ∀ {what : String} {read : ℕ → Except PyError (PyValue D)},
        decodeWord view (offset + 1) what read = .error e →
        ∃ w, w.length = 8 ∧ Reads view (offset + 1) w ∧ read (leValue w) = .error e := by
      intro what read h
      rcases bind_eq_error.mp h with h | ⟨_, hneed, hrest⟩
      · exact absurd ha (need_contained h)
      obtain ⟨hlen, hr⟩ := Reads.of_slice (need_eq_ok.mp hneed)
      rcases bind_eq_error.mp hrest with h | ⟨_, -, h⟩
      · exact ⟨_, hlen, hr, h⟩
      · contradiction
    have hraw : ∀ {what : String} {read : Bytes → Except PyError (PyValue D)},
        decodeRaw view (offset + 1) what read = .error e →
        ∃ raw, raw.length < 2 ^ 32 ∧ Reads view (offset + 1) (le 4 raw.length ++ raw) ∧
          read raw = .error e := by
      intro what read h
      rcases bind_eq_error.mp h with h | ⟨⟨length, o⟩, hu, hbody⟩
      · exact absurd ha (u32_contained h)
      obtain ⟨hlt, hr₁, ho⟩ := Reads.of_u32 hu
      simp only at hlt hr₁ ho
      subst ho
      rcases bind_eq_error.mp hbody with h | ⟨_, hneed, hrest⟩
      · exact absurd ha (need_contained h)
      obtain ⟨hlen, hr₂⟩ := Reads.of_slice (need_eq_ok.mp hneed)
      rcases bind_eq_error.mp hrest with h | ⟨_, -, h⟩
      · refine ⟨slice view (offset + 1 + 4) length, hlen.symm ▸ hlt, ?_, h⟩
        refine Reads.append_iff.mpr ⟨hlen.symm ▸ hr₁, ?_⟩
        rw [length_le]
        exact hr₂
      · contradiction
    have hall : ∀ o w o', decodeAt P view fuel o = .ok (w, o') → Consumes P view o o' :=
      fun o w o' hok => decodeAt_consumes hok
    generalize hk : (view.drop offset).headD 0 = kind at hkind
    unfold decodeKind at hkind
    split at hkind
    · contradiction
    · contradiction
    · contradiction
    · obtain ⟨w, -, -, h⟩ := hword hkind
      contradiction
    · obtain ⟨w, -, -, h⟩ := hword hkind
      contradiction
    · obtain ⟨w, hlen, hr, h⟩ := hword hkind
      refine .date hlen ?_ (.cons hin hk hr)
      simp only [decodeDate] at h
      split at h
      · assumption
      · contradiction
    · obtain ⟨w, -, -, h⟩ := hword hkind
      contradiction
    · split at hkind
      · contradiction
      · obtain rfl := Except.error.inj hkind
        exact ha.elim
    · obtain ⟨raw, hlen, hr, h⟩ := hraw hkind
      refine .text hlen ?_ (.cons hin hk hr)
      cases hd : decodeUtf8 raw with
      | error e' => exact (decodeUtf8_error.mp hd).1
      | ok s => simp [hd, Except.map] at h
    · obtain ⟨raw, -, -, h⟩ := hraw hkind
      contradiction
    · obtain ⟨size, count, hopen, helements⟩ := decodeContainer_error ha hin hk hkind
      have hinside := hopen.elements.2
      obtain ⟨items, hlt, hwf, hr, he⟩ := decodeItems_error hall hinside helements
      exact .item (hopen.append hr) hlt hwf (ih he)
    · obtain ⟨size, count, hopen, helements⟩ := decodeContainer_error ha hin hk hkind
      have hinside := hopen.elements.2
      obtain ⟨pairs, raw, hlt, hkeys, hwf, hlen, hr, ht | ⟨ht, he⟩⟩ :=
        decodePairs_error ha hall hinside helements
      · exact .key (hopen.append hr) hlt hkeys hwf hlen ht
      · exact .value (hopen.append hr) hlt hkeys hwf hlen ht (ih he)
    · obtain rfl := Except.error.inj hkind
      exact ha.elim

/-! ### What is met is raised -/

theorem decodeItems_stops {dec : ℕ → Except PyError (PyValue D × ℕ)} {e : PyError}
    {items : List Bytes}
    (hitems : ∀ item ∈ items, ∀ o, Reads view o item → ∃ w, dec o = .ok (w, o + item.length))
    (hlt : items.length < n) (acc : List (PyValue D)) (hr : Reads view offset items.flatten)
    (he : dec (offset + items.flatten.length) = .error e) :
    decodeItems dec n offset acc = .error e := by
  induction items generalizing n offset acc with
  | nil =>
    obtain ⟨n, rfl⟩ := Nat.exists_eq_succ_of_ne_zero (Nat.ne_of_gt hlt)
    exact bind_eq_error.mpr (.inl he)
  | cons item items ih =>
    obtain ⟨n, rfl⟩ := Nat.exists_eq_succ_of_ne_zero (Nat.ne_of_gt (Nat.zero_lt_of_lt hlt))
    rw [List.flatten_cons] at hr
    obtain ⟨hr₁, hr₂⟩ := Reads.append_iff.mp hr
    obtain ⟨w, hw⟩ := hitems item List.mem_cons_self offset hr₁
    refine bind_eq_error.mpr (.inr ⟨_, hw, ?_⟩)
    apply ih (fun i hi => hitems i (List.mem_cons_of_mem _ hi)) (Nat.lt_of_succ_lt_succ hlt) _ hr₂
    rw [List.flatten_cons, List.length_append, ← Nat.add_assoc] at he
    exact he

theorem decodePairs_key {dec : ℕ → Except PyError (PyValue D × ℕ)} {raw : Bytes}
    (hlen : raw.length < 2 ^ 32) (hr : Reads view offset (le 4 raw.length ++ raw))
    (obj : List (String × PyValue D)) :
    decodePairs view dec (n + 1) offset obj = (do
      let key ← decodeUtf8 raw
      let (value, next) ← dec (offset + 4 + raw.length)
      decodePairs view dec n next (dictSet key value obj)) := by
  obtain ⟨hr₁, hr₂⟩ := Reads.append_iff.mp hr
  rw [length_le] at hr₂
  simp only [decodePairs, hr₁.u32 hlen, hr₂.need (Nat.le_refl _), hr₂.bytes, bind, Except.bind]

theorem decodePairs_stops {dec : ℕ → Except PyError (PyValue D × ℕ)} {e : PyError}
    {pairs : List (Bytes × Bytes)} {raw : Bytes}
    (hkeys : ∀ p ∈ pairs, p.1.length < 2 ^ 32 ∧ IsText p.1)
    (hvalues : ∀ p ∈ pairs, ∀ o, Reads view o p.2 → ∃ w, dec o = .ok (w, o + p.2.length))
    (hlt : pairs.length < n) (obj : List (String × PyValue D)) (hlen : raw.length < 2 ^ 32)
    (hr : Reads view offset (pairs.flatMap member ++ (le 4 raw.length ++ raw)))
    (he : ¬ IsText raw ∧ e = .unicode ∨ IsText raw ∧
      dec (offset + (pairs.flatMap member).length + 4 + raw.length) = .error e) :
    decodePairs view dec n offset obj = .error e := by
  induction pairs generalizing n offset obj with
  | nil =>
    obtain ⟨n, rfl⟩ := Nat.exists_eq_succ_of_ne_zero (Nat.ne_of_gt hlt)
    rw [decodePairs_key hlen hr]
    rcases he with ⟨ht, rfl⟩ | ⟨⟨s, hs⟩, he⟩
    · exact bind_eq_error.mpr (.inl (decodeUtf8_error.mpr ⟨ht, rfl⟩))
    · exact bind_eq_error.mpr (.inr ⟨s, decodeUtf8_eq_ok.mpr hs, bind_eq_error.mpr (.inl he)⟩)
  | cons p pairs ih =>
    obtain ⟨n, rfl⟩ := Nat.exists_eq_succ_of_ne_zero (Nat.ne_of_gt (Nat.zero_lt_of_lt hlt))
    obtain ⟨key, value⟩ := p
    obtain ⟨hklen, s, hs⟩ := hkeys _ List.mem_cons_self
    simp only at hklen hs
    rw [List.flatMap_cons, List.append_assoc] at hr
    obtain ⟨hpair, hrest⟩ := Reads.append_iff.mp hr
    rw [member, ← List.append_assoc] at hpair
    obtain ⟨hkey, hvalue⟩ := Reads.append_iff.mp hpair
    rw [List.length_append, length_le, ← Nat.add_assoc] at hvalue
    obtain ⟨w, hw⟩ := hvalues _ List.mem_cons_self _ hvalue
    have hpos : offset + (member (key, value)).length = offset + 4 + key.length + value.length := by
      simp only [member, List.length_append, length_le]
      omega
    rw [hpos] at hrest
    rw [decodePairs_key hklen hkey]
    refine bind_eq_error.mpr (.inr ⟨s, decodeUtf8_eq_ok.mpr hs, ?_⟩)
    refine bind_eq_error.mpr (.inr ⟨_, hw, ?_⟩)
    apply ih (fun q hq => hkeys q (List.mem_cons_of_mem _ hq))
      (fun q hq => hvalues q (List.mem_cons_of_mem _ hq)) (Nat.lt_of_succ_lt_succ hlt) _ hrest
    rw [List.flatMap_cons, List.length_append, ← Nat.add_assoc, hpos] at he
    exact he

theorem Opens.stops {kind : UInt8} {size count : ℕ} {done : Bytes} {e : PyError}
    {elements : ℕ → ℕ → Except PyError (PyValue D × ℕ)}
    (h : Opens view offset kind size count done) (he : elements count (offset + 9) = .error e) :
    decodeContainer view (offset + 1) elements = .error e := by
  obtain ⟨hopen, -⟩ := Reads.append_iff.mp h.reads
  obtain ⟨hr₁, hr₂⟩ := Reads.append_iff.mp hopen.tail
  rw [length_le] at hr₂
  have hneed : need view (offset + 1 + 4) size "container content" = .ok () :=
    need_eq_ok.mpr (by have := h.fits; omega)
  refine bind_eq_error.mpr (.inr ⟨_, hr₁.u32 h.sizeLt, ?_⟩)
  refine bind_eq_error.mpr (.inr ⟨_, hneed, ?_⟩)
  refine bind_eq_error.mpr (.inr ⟨_, hr₂.u32 h.countLt, ?_⟩)
  exact bind_eq_error.mpr (.inl he)

theorem exists_pred_fuel {k : UInt8} (hr : Reads view offset (k :: b))
    (hf : view.length < offset + fuel) : ∃ m, fuel = m + 1 ∧ view.length < offset + 1 + m := by
  have hin := hr.inside
  rw [List.length_cons] at hin
  exact ⟨fuel - 1, by omega, by omega⟩

theorem pairs_read {pairs : List (Bytes × Bytes)} {rest : Bytes} {o : ℕ}
    (hr : Reads view o (pairs.flatMap member ++ rest)) (hf : view.length < o + fuel)
    (hwf : ∀ p ∈ pairs, WellFormed P p.2) :
    ∀ p ∈ pairs, ∀ o', Reads view o' p.2 →
      ∃ w, decodeAt P view fuel o' = .ok (w, o' + p.2.length) := by
  intro p hp o' hr'
  have hm : member p ∈ pairs.map member := List.mem_map_of_mem hp
  have hsub := (List.sublist_flatten_of_mem hm).length_le
  rw [← List.flatMap_def] at hsub
  have hin := hr.inside
  simp only [member, List.length_append] at hsub hin
  exact (hwf p hp).accepted hr' (by omega)

/-- Where the decoder meets such a text or date, it raises another exception. -/
theorem Stumbles.raises (h : Stumbles P view offset) : ∀ {fuel : ℕ}, view.length < offset + fuel →
    ∃ e, decodeAt P view fuel offset = .error e ∧ e.Alien := by
  induction h with
  | text hlen ht hr =>
    intro fuel hf
    obtain ⟨fuel, rfl, -⟩ := exists_pred_fuel hr hf
    refine ⟨.unicode, ?_, trivial⟩
    rw [decodeAt_head hr, decodeKind_string, hr.tail.raw hlen, decodeUtf8_error.mpr ⟨ht, rfl⟩]
    rfl
  | @date offset w hlen hd hr =>
    intro fuel hf
    obtain ⟨fuel, rfl, -⟩ := exists_pred_fuel hr hf
    refine ⟨.date, ?_, trivial⟩
    have hval : le 8 (leValue w) = w := hlen ▸ le_leValue w
    have hlt : leValue w < 2 ^ 64 := by
      have := leValue_lt w
      rw [hlen] at this
      omega
    have hr' : Reads view (offset + 1) (le 8 (leValue w)) := hval.symm ▸ hr.tail
    rw [decodeAt_head hr, decodeKind_date, hr'.word hlt, decodeDate, hd]
    rfl
  | @item offset size count items ho hlt hwf h ih =>
    intro fuel hf
    obtain ⟨hdone, hin⟩ := ho.elements
    have hinside := hdone.inside
    obtain ⟨fuel, rfl, hf'⟩ := exists_pred_fuel ho.reads hf
    obtain ⟨e, he, ha⟩ := @ih fuel (by omega)
    have hitems : ∀ item ∈ items, ∀ o, Reads view o item →
        ∃ w, decodeAt P view fuel o = .ok (w, o + item.length) := fun item hi o hr => by
      have := (List.sublist_flatten_of_mem hi).length_le
      exact (hwf item hi).accepted hr (by omega)
    have hhead : decodeAt P view (fuel + 1) offset =
        decodeKind P view (decodeAt P view fuel) TYPE.ARRAY (offset + 1) := decodeAt_head ho.reads
    refine ⟨e, ?_, ha⟩
    rw [hhead, decodeKind_array]
    exact ho.stops (decodeItems_stops hitems hlt [] hdone he)
  | @key offset size count pairs raw ho hlt hkeys hwf hlen ht =>
    intro fuel hf
    obtain ⟨hdone, -⟩ := ho.elements
    obtain ⟨fuel, rfl, hf'⟩ := exists_pred_fuel ho.reads hf
    have hleft : view.length < offset + 9 + fuel := by omega
    have hvalues := pairs_read hdone hleft hwf
    have hhead : decodeAt P view (fuel + 1) offset =
        decodeKind P view (decodeAt P view fuel) TYPE.OBJECT (offset + 1) := decodeAt_head ho.reads
    refine ⟨.unicode, ?_, trivial⟩
    rw [hhead, decodeKind_object]
    exact ho.stops (decodePairs_stops hkeys hvalues hlt [] hlen hdone (.inl ⟨ht, rfl⟩))
  | @value offset size count pairs raw ho hlt hkeys hwf hlen ht h ih =>
    intro fuel hf
    obtain ⟨hdone, -⟩ := ho.elements
    obtain ⟨fuel, rfl, hf'⟩ := exists_pred_fuel ho.reads hf
    obtain ⟨e, he, ha⟩ := @ih fuel (by omega)
    have hleft : view.length < offset + 9 + fuel := by omega
    have hvalues := pairs_read hdone hleft hwf
    have hhead : decodeAt P view (fuel + 1) offset =
        decodeKind P view (decodeAt P view fuel) TYPE.OBJECT (offset + 1) := decodeAt_head ho.reads
    refine ⟨e, ?_, ha⟩
    rw [hhead, decodeKind_object]
    exact ho.stops (decodePairs_stops hkeys hvalues hlt [] hlen hdone (.inr ⟨ht, he⟩))

/-- The decoder raises nothing but its own error exactly where it meets no text that is not
UTF-8 and no date that is none. -/
theorem decode_contained_iff (view : Bytes) :
    Contained (decode P view) ↔ ¬ Stumbles P view 0 := by
  constructor
  · intro hc h
    obtain ⟨e, he, ha⟩ := @Stumbles.raises _ _ _ _ h (view.length + 1) (by omega)
    obtain ⟨msg, rfl⟩ := hc e (bind_eq_error.mpr (.inl he))
    exact ha
  · intro hn e he
    have hnone := decode_reaches (P := P) view
    rcases bind_eq_error.mp he with h | ⟨⟨value, o⟩, -, h⟩
    · cases e with
      | binjson msg => exact ⟨msg, rfl⟩
      | recursion => exact absurd he hnone
      | unicode | overflow | date | timestamp | struct =>
        refine absurd (stumbles_of_error ?_ h) hn
        exact trivial
    · simp only at h
      split at h
      · exact ⟨_, (Except.error.inj h).symm⟩
      · contradiction

end SukkalMsg.PyBinjson
