import SukkalMsg.SelfDelimiting

/-!
# What the decoder accepts

The grammar of a value with all its contents, written without the decoder: a container
is its size, its count and its elements, nothing in between and nothing behind. The
decoder accepts exactly the buffers the grammar derives.
-/

namespace SukkalMsg.PyBinjson

open Binjson

variable {D : Type} {P : PyRuntime D} {view b : Bytes} {offset next n fuel : ℕ} {v : PyValue D}

/-- The bytes are UTF-8. -/
def IsText (raw : Bytes) : Prop := ∃ s : String, utf8 s = raw

/-- A key with its length, and the value behind it. -/
def member (item : Bytes × Bytes) : Bytes := le 4 item.1.length ++ (item.1 ++ item.2)

inductive WellFormed (P : PyRuntime D) : Bytes → Prop
  | byte {kind : UInt8} (h : kind = TYPE.NULL ∨ kind = TYPE.TRUE ∨ kind = TYPE.FALSE) :
    WellFormed P [kind]
  | word {kind : UInt8} {w : Bytes} (h : kind = TYPE.INT ∨ kind = TYPE.FLOAT ∨ kind = TYPE.POINTER)
    (hw : w.length = 8) : WellFormed P (kind :: w)
  | date {w : Bytes} (hw : w.length = 8) (h : (P.fromtimestamp (toInt64 (leValue w))).isSome = true) :
    WellFormed P (TYPE.DATE :: w)
  | oid {w : Bytes} (hw : w.length = 12) : WellFormed P (TYPE.OID :: w)
  | binary {raw : Bytes} (h : raw.length < 2 ^ 32) :
    WellFormed P (TYPE.BINARY :: (le 4 raw.length ++ raw))
  | string {raw : Bytes} (h : raw.length < 2 ^ 32) (ht : IsText raw) :
    WellFormed P (TYPE.STRING :: (le 4 raw.length ++ raw))
  | array {items : List Bytes} (hcount : items.length < 2 ^ 32)
    (hsize : 4 + items.flatten.length < 2 ^ 32) (h : ∀ item ∈ items, WellFormed P item) :
    WellFormed P (boxed TYPE.ARRAY items.length items.flatten)
  | object {items : List (Bytes × Bytes)} (hcount : items.length < 2 ^ 32)
    (hsize : 4 + (items.flatMap member).length < 2 ^ 32)
    (hkeys : ∀ item ∈ items, item.1.length < 2 ^ 32 ∧ IsText item.1)
    (h : ∀ item ∈ items, WellFormed P item.2) :
    WellFormed P (boxed TYPE.OBJECT items.length (items.flatMap member))

theorem decodeUtf8_eq_ok {raw : Bytes} {s : String} : decodeUtf8 raw = .ok s ↔ utf8 s = raw := by
  constructor
  · intro h
    simp only [decodeUtf8] at h
    split at h
    · contradiction
    · rename_i t ht
      obtain rfl := Except.ok.inj h
      simp only [String.fromUTF8?] at ht
      split at ht
      · rw [← Option.some.inj ht]
        simp [utf8, String.fromUTF8]
      · contradiction
  · rintro rfl
    exact decodeUtf8_utf8 s

/-! ### The grammar's words are accepted -/

theorem exists_decodeItems {items : List Bytes}
    (hitems : ∀ item ∈ items, ∀ o, Reads view o item →
      ∃ w, decodeAt P view fuel o = .ok (w, o + item.length))
    (acc : List (PyValue D)) (hr : Reads view offset items.flatten) :
    ∃ w, decodeItems (decodeAt P view fuel) items.length offset acc =
      .ok (w, offset + items.flatten.length) := by
  induction items generalizing offset acc with
  | nil => exact ⟨_, rfl⟩
  | cons item items ih =>
    rw [List.flatten_cons] at hr
    obtain ⟨hr₁, hr₂⟩ := Reads.append_iff.mp hr
    obtain ⟨w, hw⟩ := hitems item List.mem_cons_self offset hr₁
    obtain ⟨w', hw'⟩ := ih (fun i hi => hitems i (List.mem_cons_of_mem _ hi)) (acc ++ [w]) hr₂
    refine ⟨w', ?_⟩
    simp only [decodeItems, List.length_cons, hw, bind, Except.bind, hw', List.flatten_cons,
      List.length_append, Nat.add_assoc]

theorem exists_decodePairs {items : List (Bytes × Bytes)}
    (hkeys : ∀ item ∈ items, item.1.length < 2 ^ 32 ∧ IsText item.1)
    (hitems : ∀ item ∈ items, ∀ o, Reads view o item.2 →
      ∃ w, decodeAt P view fuel o = .ok (w, o + item.2.length))
    (obj : List (String × PyValue D)) (hr : Reads view offset (items.flatMap member)) :
    ∃ w, decodePairs view (decodeAt P view fuel) items.length offset obj =
      .ok (w, offset + (items.flatMap member).length) := by
  induction items generalizing offset obj with
  | nil => exact ⟨_, rfl⟩
  | cons item items ih =>
    obtain ⟨key, value⟩ := item
    obtain ⟨hlen, s, hs⟩ := hkeys _ List.mem_cons_self
    simp only at hlen hs
    rw [List.flatMap_cons] at hr
    obtain ⟨hmember, hr₄⟩ := Reads.append_iff.mp hr
    obtain ⟨hr₁, hpair⟩ := Reads.append_iff.mp hmember
    obtain ⟨hr₂, hr₃⟩ := Reads.append_iff.mp hpair
    simp only [member, List.length_append, length_le] at hr₂ hr₃ hr₄
    obtain ⟨w, hw⟩ := hitems _ List.mem_cons_self _ hr₃
    rw [show offset + (4 + (key.length + value.length)) = offset + 4 + key.length + value.length by
      omega] at hr₄
    obtain ⟨w', hw'⟩ := ih (fun i hi => hkeys i (List.mem_cons_of_mem _ hi))
      (fun i hi => hitems i (List.mem_cons_of_mem _ hi)) (dictSet s w obj) hr₄
    refine ⟨w', ?_⟩
    simp only at hw
    simp only [decodePairs, List.length_cons, hr₁.u32 hlen, bind, Except.bind,
      hr₂.need (Nat.le_refl _), hr₂.bytes, decodeUtf8_eq_ok.mpr hs, hw, hw']
    simp only [List.flatMap_cons, member, List.length_append, length_le, Nat.add_assoc]

/-- Whatever the grammar derives is accepted where it stands. -/
theorem WellFormed.accepted (h : WellFormed P b) : ∀ {view : Bytes} {offset fuel : ℕ},
    Reads view offset b → b.length ≤ fuel →
      ∃ w, decodeAt P view fuel offset = .ok (w, offset + b.length) := by
  induction h with
  | @byte kind h =>
    intro view offset fuel hr hfuel
    obtain ⟨fuel, rfl, -⟩ := exists_fuel hfuel
    rw [decodeAt_head hr]
    rcases h with rfl | rfl | rfl <;> exact ⟨_, rfl⟩
  | @word kind w h hw =>
    intro view offset fuel hr hfuel
    obtain ⟨fuel, rfl, -⟩ := exists_fuel hfuel
    have hval : le 8 (leValue w) = w := hw ▸ le_leValue w
    have hlt : leValue w < 2 ^ 64 := by
      have := leValue_lt w
      rw [hw] at this
      omega
    have hr' : Reads view (offset + 1) (le 8 (leValue w)) := hval.symm ▸ hr.tail
    rw [decodeAt_head hr, List.length_cons, hw]
    rcases h with rfl | rfl | rfl
    · rw [decodeKind_int, hr'.word hlt]
      exact ⟨_, rfl⟩
    · rw [decodeKind_float, hr'.word hlt]
      exact ⟨_, rfl⟩
    · rw [decodeKind_pointer, hr'.word hlt]
      exact ⟨_, rfl⟩
  | @date w hw h =>
    intro view offset fuel hr hfuel
    obtain ⟨fuel, rfl, -⟩ := exists_fuel hfuel
    have hval : le 8 (leValue w) = w := hw ▸ le_leValue w
    have hlt : leValue w < 2 ^ 64 := by
      have := leValue_lt w
      rw [hw] at this
      omega
    have hr' : Reads view (offset + 1) (le 8 (leValue w)) := hval.symm ▸ hr.tail
    obtain ⟨when, hwhen⟩ := Option.isSome_iff_exists.mp h
    rw [decodeAt_head hr, List.length_cons, hw, decodeKind_date, hr'.word hlt, decodeDate, hwhen]
    exact ⟨_, rfl⟩
  | @oid w hw =>
    intro view offset fuel hr hfuel
    obtain ⟨fuel, rfl, -⟩ := exists_fuel hfuel
    have hbytes := hr.tail.bytes
    rw [hw] at hbytes
    rw [decodeAt_head hr, decodeKind_oid, dif_pos (by rw [hbytes, hw]), List.length_cons]
    exact ⟨_, congrArg (fun m => Except.ok (_, offset + (m + 1))) hw.symm⟩
  | @binary raw h =>
    intro view offset fuel hr hfuel
    obtain ⟨fuel, rfl, -⟩ := exists_fuel hfuel
    rw [decodeAt_head hr, decodeKind_binary, hr.tail.raw h]
    refine ⟨_, congrArg (fun o => Except.ok (_, o)) ?_⟩
    simp only [List.length_cons, List.length_append, length_le]
    omega
  | @string raw h ht =>
    intro view offset fuel hr hfuel
    obtain ⟨fuel, rfl, -⟩ := exists_fuel hfuel
    obtain ⟨s, hs⟩ := ht
    rw [decodeAt_head hr, decodeKind_string, hr.tail.raw h, decodeUtf8_eq_ok.mpr hs]
    refine ⟨_, congrArg (fun o => Except.ok (_, o)) ?_⟩
    simp only [List.length_cons, List.length_append, length_le]
    omega
  | @array items hcount hsize h ih =>
    intro view offset fuel hr hfuel
    obtain ⟨fuel, rfl, hf⟩ := exists_fuel hfuel
    simp only [List.length_append, length_le] at hf
    have hin : ∀ item ∈ items, item.length ≤ fuel := fun item hi => by
      have := (List.sublist_flatten_of_mem hi).length_le
      omega
    obtain ⟨w, hw⟩ := exists_decodeItems (P := P) (fun item hi o ho => ih item hi ho (hin item hi)) []
      hr.boxed.2.2
    rw [decodeAt_head hr, decodeKind_array]
    exact ⟨w, decodeContainer_ok hr hcount hsize hw⟩
  | @object items hcount hsize hkeys h ih =>
    intro view offset fuel hr hfuel
    obtain ⟨fuel, rfl, hf⟩ := exists_fuel hfuel
    simp only [List.length_append, length_le] at hf
    have hin : ∀ item ∈ items, item.2.length ≤ fuel := fun item hi => by
      have hm : member item ∈ items.map member := List.mem_map_of_mem hi
      have := (List.sublist_flatten_of_mem hm).length_le
      rw [← List.flatMap_def] at this
      simp only [member, List.length_append] at this
      omega
    obtain ⟨w, hw⟩ := exists_decodePairs (P := P) hkeys
      (fun item hi o ho => ih item hi ho (hin item hi)) [] hr.boxed.2.2
    rw [decodeAt_head hr, decodeKind_object]
    exact ⟨w, decodeContainer_ok hr hcount hsize hw⟩

/-! ### What is accepted is a word of the grammar -/

theorem Reads.of_slice (h : offset + n ≤ view.length) :
    (slice view offset n).length = n ∧ Reads view offset (slice view offset n) := by
  have hlen : (slice view offset n).length = n := by
    simp only [slice, List.length_take, List.length_drop]
    omega
  exact ⟨hlen, by rw [hlen]; exact h, by rw [hlen]⟩

theorem Reads.of_u32 {r : ℕ × ℕ} (h : PyBinjson.u32 view offset = .ok r) :
    r.1 < 2 ^ 32 ∧ Reads view offset (le 4 r.1) ∧ r.2 = offset + 4 := by
  obtain ⟨hin, rfl⟩ := u32_eq_ok.mp h
  obtain ⟨hlen, hr⟩ := of_slice hin
  refine ⟨?_, ?_, rfl⟩
  · have := leValue_lt (slice view offset 4)
    rw [hlen] at this
    simpa using this
  · have := le_leValue (slice view offset 4)
    rw [hlen] at this
    simp only [this]
    exact hr

/-- The decoder consumed a word of the grammar. -/
def Consumes (P : PyRuntime D) (view : Bytes) (offset next : ℕ) : Prop :=
  ∃ b, WellFormed P b ∧ Reads view offset b ∧ next = offset + b.length

theorem decodeItems_consumes {dec : ℕ → Except PyError (PyValue D × ℕ)}
    (hdec : ∀ o w o', dec o = .ok (w, o') → Consumes P view o o') {acc : List (PyValue D)}
    (hin : offset ≤ view.length) (h : decodeItems dec n offset acc = .ok (v, next)) :
    ∃ items : List Bytes, items.length = n ∧ (∀ item ∈ items, WellFormed P item) ∧
      Reads view offset items.flatten ∧ next = offset + items.flatten.length := by
  induction n generalizing offset acc with
  | zero =>
    obtain ⟨-, rfl⟩ := Prod.mk.inj (Except.ok.inj h)
    exact ⟨[], rfl, by simp, ⟨hin, rfl⟩, rfl⟩
  | succ n ih =>
    obtain ⟨⟨w, o⟩, hw, hrest⟩ := bind_eq_ok.mp h
    obtain ⟨b, hwf, hr, rfl⟩ := hdec _ _ _ hw
    obtain ⟨items, hlen, hall, hr', hnext⟩ := ih hr.inside hrest
    refine ⟨b :: items, by rw [List.length_cons, hlen], ?_, ?_, ?_⟩
    · simpa using ⟨hwf, hall⟩
    · rw [List.flatten_cons]
      exact Reads.append_iff.mpr ⟨hr, hr'⟩
    · rw [hnext, List.flatten_cons, List.length_append, Nat.add_assoc]

theorem decodePairs_consumes {dec : ℕ → Except PyError (PyValue D × ℕ)}
    (hdec : ∀ o w o', dec o = .ok (w, o') → Consumes P view o o')
    {obj : List (String × PyValue D)} (hin : offset ≤ view.length)
    (h : decodePairs view dec n offset obj = .ok (v, next)) :
    ∃ items : List (Bytes × Bytes), items.length = n ∧
      (∀ item ∈ items, item.1.length < 2 ^ 32 ∧ IsText item.1) ∧
      (∀ item ∈ items, WellFormed P item.2) ∧
      Reads view offset (items.flatMap member) ∧
      next = offset + (items.flatMap member).length := by
  induction n generalizing offset obj with
  | zero =>
    obtain ⟨-, rfl⟩ := Prod.mk.inj (Except.ok.inj h)
    exact ⟨[], rfl, by simp, by simp, ⟨hin, rfl⟩, rfl⟩
  | succ n ih =>
    obtain ⟨⟨klen, o₁⟩, hu, hbody⟩ := bind_eq_ok.mp h
    obtain ⟨_, hneed, hrest⟩ := bind_eq_ok.mp hbody
    obtain ⟨key, hkey, hvalue⟩ := bind_eq_ok.mp hrest
    obtain ⟨⟨w, o₂⟩, hw, htail⟩ := bind_eq_ok.mp hvalue
    obtain ⟨hlt, hr₁, ho⟩ := Reads.of_u32 hu
    simp only at hlt hr₁ ho
    subst ho
    obtain ⟨hlen, hr₂⟩ := Reads.of_slice (need_eq_ok.mp hneed)
    obtain ⟨b, hwf, hr₃, rfl⟩ := hdec _ _ _ hw
    obtain ⟨items, hcount, hkeys, hall, hr₄, hnext⟩ := ih hr₃.inside htail
    refine ⟨(slice view (offset + 4) klen, b) :: items, by rw [List.length_cons, hcount], ?_, ?_,
      ?_, ?_⟩
    · intro item hi
      rcases List.mem_cons.mp hi with rfl | hi
      · exact ⟨hlen.symm ▸ hlt, key, decodeUtf8_eq_ok.mp hkey⟩
      · exact hkeys item hi
    · intro item hi
      rcases List.mem_cons.mp hi with rfl | hi
      · exact hwf
      · exact hall item hi
    · simp only [List.flatMap_cons, member, hlen]
      refine Reads.append_iff.mpr ⟨Reads.append_iff.mpr ⟨hr₁, Reads.append_iff.mpr ⟨?_, ?_⟩⟩, ?_⟩
      · rw [length_le]
        exact hr₂
      · rw [length_le, hlen]
        exact hr₃
      · simp only [List.length_append, length_le, hlen]
        rw [show offset + (4 + (klen + b.length)) = offset + 4 + klen + b.length by omega]
        exact hr₄
    · rw [hnext]
      simp only [List.flatMap_cons, member, List.length_append, length_le, hlen]
      omega

theorem Reads.cons {k : UInt8} (hlen : offset + 1 ≤ view.length)
    (hk : (view.drop offset).headD 0 = k) (h : Reads view (offset + 1) b) :
    Reads view offset (k :: b) := by
  have hone : Reads view offset [k] := by
    refine ⟨hlen, ?_⟩
    simp only [slice, List.length_singleton]
    cases hd : view.drop offset with
    | nil =>
      have := congrArg List.length hd
      simp only [List.length_drop, List.length_nil] at this
      omega
    | cons x xs =>
      rw [hd] at hk
      simp only [List.headD_cons] at hk
      simp [hk]
  exact (append_iff.mpr ⟨hone, h⟩ : Reads view offset ([k] ++ b))

theorem decodeRaw_consumes {what : String} {read : Bytes → Except PyError (PyValue D)}
    (h : decodeRaw view offset what read = .ok (v, next)) :
    ∃ raw, raw.length < 2 ^ 32 ∧ Reads view offset (le 4 raw.length ++ raw) ∧
      next = offset + 4 + raw.length ∧ read raw = .ok v := by
  obtain ⟨⟨length, o⟩, hu, hbody⟩ := bind_eq_ok.mp h
  obtain ⟨_, hneed, hrest⟩ := bind_eq_ok.mp hbody
  obtain ⟨w, hw, hend⟩ := bind_eq_ok.mp hrest
  obtain ⟨hlt, hr₁, ho⟩ := Reads.of_u32 hu
  simp only at hlt hr₁ ho
  subst ho
  obtain ⟨hlen, hr₂⟩ := Reads.of_slice (need_eq_ok.mp hneed)
  obtain ⟨rfl, rfl⟩ := Prod.mk.inj (Except.ok.inj hend)
  refine ⟨slice view (offset + 4) length, by rw [hlen]; exact hlt, ?_, by rw [hlen], hw⟩
  rw [hlen]
  exact Reads.append_iff.mpr ⟨hr₁, by rw [length_le]; exact hr₂⟩

theorem decodeWord_consumes {what : String} {read : ℕ → Except PyError (PyValue D)}
    (h : decodeWord view offset what read = .ok (v, next)) :
    ∃ w, w.length = 8 ∧ Reads view offset w ∧ next = offset + 8 ∧ read (leValue w) = .ok v := by
  obtain ⟨_, hneed, hrest⟩ := bind_eq_ok.mp h
  obtain ⟨w, hw, hend⟩ := bind_eq_ok.mp hrest
  obtain ⟨hlen, hr⟩ := Reads.of_slice (need_eq_ok.mp hneed)
  obtain ⟨rfl, rfl⟩ := Prod.mk.inj (Except.ok.inj hend)
  exact ⟨_, hlen, hr, rfl, hw⟩

/-- Elements that are words of the grammar make a container that is one. -/
theorem decodeContainer_consumes {elements : ℕ → ℕ → Except PyError (PyValue D × ℕ)}
    (words : ℕ → Bytes → Prop)
    (he : ∀ count, offset + 8 ≤ view.length → elements count (offset + 8) = .ok (v, next) →
      ∃ content, words count content ∧ Reads view (offset + 8) content ∧
        next = offset + 8 + content.length)
    (h : decodeContainer view offset elements = .ok (v, next)) :
    ∃ count content, words count content ∧ count < 2 ^ 32 ∧ 4 + content.length < 2 ^ 32 ∧
      Reads view offset (le 4 (4 + content.length) ++ (le 4 count ++ content)) ∧
      next = offset + 8 + content.length := by
  obtain ⟨size, count, hu, hnext, hin, hu', helements⟩ := decodeContainer_inv h
  obtain ⟨hlt, hr₁, -⟩ := Reads.of_u32 hu
  obtain ⟨hlt', hr₂, -⟩ := Reads.of_u32 hu'
  have hin' := (u32_eq_ok.mp hu').1
  obtain ⟨content, hwords, hr₃, hnext'⟩ := he count (by omega) helements
  have hsize : size = 4 + content.length := by omega
  subst hsize
  refine ⟨count, content, hwords, hlt', hlt, ?_, hnext'⟩
  refine Reads.append_iff.mpr ⟨hr₁, Reads.append_iff.mpr ⟨?_, ?_⟩⟩
  · rw [length_le]
    exact hr₂
  · rw [length_le, length_le]
    exact hr₃

/-- What the decoder accepts is a word of the grammar. -/
theorem decodeAt_consumes (h : decodeAt P view fuel offset = .ok (v, next)) :
    Consumes P view offset next := by
  induction fuel generalizing offset v next with
  | zero => contradiction
  | succ fuel ih =>
    obtain ⟨_, hneed, hkind⟩ := bind_eq_ok.mp h
    have hin := need_eq_ok.mp hneed
    have hall : ∀ o w o', decodeAt P view fuel o = .ok (w, o') → Consumes P view o o' :=
      fun o w o' hok => ih hok
    have hone : ∀ {k : UInt8} {w : PyValue D}, (view.drop offset).headD 0 = k →
        (k = TYPE.NULL ∨ k = TYPE.TRUE ∨ k = TYPE.FALSE) →
        Except.ok (ε := PyError) (w, offset + 1) = .ok (v, next) → Consumes P view offset next := by
      intro k w hk hkinds hok
      obtain ⟨-, rfl⟩ := Prod.mk.inj (Except.ok.inj hok)
      exact ⟨[k], .byte hkinds, .cons hin hk ⟨hin, rfl⟩, rfl⟩
    have hword : ∀ {k : UInt8} {what : String} {read : ℕ → Except PyError (PyValue D)},
        (view.drop offset).headD 0 = k → (k = TYPE.INT ∨ k = TYPE.FLOAT ∨ k = TYPE.POINTER) →
        decodeWord view (offset + 1) what read = .ok (v, next) → Consumes P view offset next := by
      intro k what read hk hkinds hok
      obtain ⟨w, hw, hr, rfl, -⟩ := decodeWord_consumes hok
      exact ⟨k :: w, .word hkinds hw, .cons hin hk hr, by rw [List.length_cons, hw, Nat.add_assoc]⟩
    generalize hk : (view.drop offset).headD 0 = kind at hkind
    unfold decodeKind at hkind
    split at hkind
    · exact hone hk (.inl rfl) hkind
    · exact hone hk (.inr (.inl rfl)) hkind
    · exact hone hk (.inr (.inr rfl)) hkind
    · exact hword hk (.inl rfl) hkind
    · exact hword hk (.inr (.inl rfl)) hkind
    · obtain ⟨w, hw, hr, rfl, hdate⟩ := decodeWord_consumes hkind
      refine ⟨TYPE.DATE :: w, .date hw ?_, .cons hin hk hr, by
        rw [List.length_cons, hw, Nat.add_assoc]⟩
      simp only [decodeDate] at hdate
      split at hdate
      · contradiction
      · rename_i hwhen
        rw [hwhen]
        rfl
    · exact hword hk (.inr (.inr rfl)) hkind
    · split at hkind
      · rename_i hoid
        obtain ⟨-, rfl⟩ := Prod.mk.inj (Except.ok.inj hkind)
        have hin' : offset + 1 + 12 ≤ view.length := by
          simp only [slice, List.length_take, List.length_drop] at hoid
          omega
        obtain ⟨-, hr⟩ := Reads.of_slice hin'
        exact ⟨_, .oid hoid, .cons hin hk hr, by rw [List.length_cons, hoid, Nat.add_assoc]⟩
      · contradiction
    · obtain ⟨raw, hlt, hr, rfl, hread⟩ := decodeRaw_consumes hkind
      refine ⟨_, .string hlt ?_, .cons hin hk hr, ?_⟩
      · cases hd : decodeUtf8 raw with
        | error e => simp [hd, Except.map] at hread
        | ok s => exact ⟨s, decodeUtf8_eq_ok.mp hd⟩
      · simp only [List.length_cons, List.length_append, length_le]
        omega
    · obtain ⟨raw, hlt, hr, rfl, -⟩ := decodeRaw_consumes hkind
      refine ⟨_, .binary hlt, .cons hin hk hr, ?_⟩
      simp only [List.length_cons, List.length_append, length_le]
      omega
    · obtain ⟨count, content, ⟨items, hlen, hwf, rfl⟩, hcount, hsize, hr, hnext⟩ :=
        decodeContainer_consumes (fun count content => ∃ items : List Bytes,
          items.length = count ∧ (∀ item ∈ items, WellFormed P item) ∧ content = items.flatten)
          (fun count hin hok => by
            obtain ⟨items, hlen, hwf, hr, hnext⟩ := decodeItems_consumes hall hin hok
            exact ⟨_, ⟨items, hlen, hwf, rfl⟩, hr, hnext⟩) hkind
      subst hlen
      refine ⟨_, .array hcount hsize hwf, .cons hin hk hr, ?_⟩
      rw [length_boxed, hnext]
      omega
    · obtain ⟨count, content, ⟨items, hlen, hkeys, hwf, rfl⟩, hcount, hsize, hr, hnext⟩ :=
        decodeContainer_consumes (fun count content => ∃ items : List (Bytes × Bytes),
          items.length = count ∧ (∀ item ∈ items, item.1.length < 2 ^ 32 ∧ IsText item.1) ∧
            (∀ item ∈ items, WellFormed P item.2) ∧ content = items.flatMap member)
          (fun count hin hok => by
            obtain ⟨items, hlen, hkeys, hwf, hr, hnext⟩ := decodePairs_consumes hall hin hok
            exact ⟨_, ⟨items, hlen, hkeys, hwf, rfl⟩, hr, hnext⟩) hkind
      subst hlen
      refine ⟨_, .object hcount hsize hkeys hwf, .cons hin hk hr, ?_⟩
      rw [length_boxed, hnext]
      omega
    · contradiction

theorem Reads.self (b : Bytes) : Reads b 0 b :=
  ⟨by omega, by simp only [slice, List.drop_zero, List.take_length]⟩

/-- The decoder accepts exactly the buffers that are a word of the grammar. -/
theorem decode_isOk_iff : (∃ w, decode P b = .ok w) ↔ WellFormed P b := by
  constructor
  · rintro ⟨w, h⟩
    obtain ⟨⟨value, o⟩, hat, hend⟩ := bind_eq_ok.mp h
    simp only at hend
    split at hend
    · contradiction
    · rename_i ho
      rw [ne_eq, Decidable.not_not] at ho
      obtain ⟨b', hwf, hr, hlen⟩ := decodeAt_consumes hat
      have hb' := hr.bytes
      rw [show b'.length = b.length by omega, (Reads.self b).bytes] at hb'
      exact hb' ▸ hwf
  · intro h
    obtain ⟨w, hw⟩ := h.accepted (Reads.self b) (Nat.le_succ _)
    refine ⟨w, ?_⟩
    rw [Nat.zero_add] at hw
    simp [decode, hw, bind, Except.bind]

end SukkalMsg.PyBinjson
