import SukkalMsg.PyBinjsonRoundTrip

/-!
# Encodings delimit themselves

What the decoder accepts at an offset ends where `value_size` says, which it reads off
the first five bytes at most. So an encoding has no encoding as a strict prefix, and a
stream of them falls apart in one way only.
-/

namespace SukkalMsg.PyBinjson

open Binjson

variable {D : Type} {P : PyRuntime D} {view b : Bytes} {offset next n fuel : ℕ} {v : PyValue D}

theorem decodeWord_inv {what : String} {read : ℕ → Except PyError (PyValue D)}
    (h : decodeWord view offset what read = .ok (v, next)) :
    next = offset + 8 ∧ next ≤ view.length := by
  obtain ⟨_, hneed, h⟩ := bind_eq_ok.mp h
  obtain ⟨value, -, h⟩ := bind_eq_ok.mp h
  obtain ⟨-, rfl⟩ := Prod.mk.inj (Except.ok.inj h)
  exact ⟨rfl, need_eq_ok.mp hneed⟩

theorem decodeRaw_inv {what : String} {read : Bytes → Except PyError (PyValue D)}
    (h : decodeRaw view offset what read = .ok (v, next)) :
    ∃ length, u32 view offset = .ok (length, offset + 4) ∧ next = offset + 4 + length ∧
      next ≤ view.length := by
  obtain ⟨⟨length, at_⟩, hu, h⟩ := bind_eq_ok.mp h
  obtain ⟨_, hneed, h⟩ := bind_eq_ok.mp h
  obtain ⟨value, -, h⟩ := bind_eq_ok.mp h
  obtain ⟨-, rfl⟩ := Prod.mk.inj (Except.ok.inj h)
  obtain ⟨rfl, rfl⟩ := Prod.mk.inj (u32_eq_ok.mp hu).2
  exact ⟨_, hu, rfl, need_eq_ok.mp hneed⟩

theorem decodeContainer_inv {elements : ℕ → ℕ → Except PyError (PyValue D × ℕ)}
    (h : decodeContainer view offset elements = .ok (v, next)) :
    ∃ size count, u32 view offset = .ok (size, offset + 4) ∧ next = offset + 4 + size ∧
      next ≤ view.length ∧ u32 view (offset + 4) = .ok (count, offset + 8) ∧
      elements count (offset + 8) = .ok (v, next) := by
  obtain ⟨⟨size, at₁⟩, hu, hbody⟩ := bind_eq_ok.mp h
  obtain ⟨_, hneed, hrest⟩ := bind_eq_ok.mp hbody
  obtain ⟨⟨count, at₂⟩, hu', htail⟩ := bind_eq_ok.mp hrest
  obtain ⟨⟨result, at₃⟩, he, hend⟩ := bind_eq_ok.mp htail
  obtain rfl : at₁ = offset + 4 := (Prod.mk.inj (u32_eq_ok.mp hu).2).2
  obtain rfl : at₂ = offset + 8 := (Prod.mk.inj (u32_eq_ok.mp hu').2).2
  simp only at hend he hneed
  split at hend
  · contradiction
  · rename_i hstop
    obtain ⟨rfl, rfl⟩ := Prod.mk.inj (Except.ok.inj hend)
    rw [ne_eq, Decidable.not_not] at hstop
    exact ⟨size, count, hu, hstop, hstop ▸ need_eq_ok.mp hneed, hu', he⟩

/-- A value sized by the word behind its type byte. -/
private theorem sized_by_word {length : ℕ} (hu : u32 view (offset + 1) = .ok (length, offset + 1 + 4))
    (he : next = offset + 1 + 4 + length) (hle : next ≤ view.length) :
    (do
      let (length, _) ← u32 view (offset + 1)
      return 1 + 4 + length : Except PyError ℕ) = .ok (next - offset) ∧
        offset < next ∧ next ≤ view.length := by
  subst he
  rw [hu]
  refine ⟨?_, by omega, hle⟩
  show Except.ok (1 + 4 + length) = _
  congr 1
  omega

/-- Behind every type byte the decoder consumes what the size rule says. -/
theorem decodeKind_inv {decodeAt : ℕ → Except PyError (PyValue D × ℕ)} {kind : UInt8}
    (hlen : offset + 1 ≤ view.length)
    (h : decodeKind P view decodeAt kind (offset + 1) = .ok (v, next)) :
    kindSize view kind offset = .ok (next - offset) ∧ offset < next ∧ next ≤ view.length := by
  have hone : ∀ {w : PyValue D}, Except.ok (ε := PyError) (w, offset + 1) = .ok (v, next) →
      Except.ok (ε := PyError) 1 = .ok (next - offset) ∧ offset < next ∧ next ≤ view.length :=
    fun h => by
      obtain ⟨-, rfl⟩ := Prod.mk.inj (Except.ok.inj h)
      rw [Nat.add_sub_cancel_left]
      exact ⟨rfl, by omega, hlen⟩
  have hnine : next = offset + 1 + 8 ∧ next ≤ view.length →
      Except.ok (ε := PyError) 9 = .ok (next - offset) ∧ offset < next ∧ next ≤ view.length :=
    fun ⟨he, hle⟩ => by
      subst he
      rw [Nat.add_assoc, Nat.add_sub_cancel_left]
      exact ⟨rfl, by omega, by omega⟩
  unfold decodeKind at h
  split at h
  · exact hone h
  · exact hone h
  · exact hone h
  · exact hnine (decodeWord_inv h)
  · exact hnine (decodeWord_inv h)
  · exact hnine (decodeWord_inv h)
  · exact hnine (decodeWord_inv h)
  · split at h
    · rename_i hoid
      obtain ⟨-, rfl⟩ := Prod.mk.inj (Except.ok.inj h)
      have hin : offset + 1 + 12 ≤ view.length := by
        simp only [slice, List.length_take, List.length_drop] at hoid
        omega
      refine ⟨?_, by omega, hin⟩
      rw [Nat.add_assoc, Nat.add_sub_cancel_left]
      rfl
    · contradiction
  · obtain ⟨length, hu, he, hle⟩ := decodeRaw_inv h
    exact sized_by_word hu he hle
  · obtain ⟨length, hu, he, hle⟩ := decodeRaw_inv h
    exact sized_by_word hu he hle
  · obtain ⟨length, -, hu, he, hle, -⟩ := decodeContainer_inv h
    exact sized_by_word hu he hle
  · obtain ⟨length, -, hu, he, hle, -⟩ := decodeContainer_inv h
    exact sized_by_word hu he hle
  · contradiction

theorem consumed_eq_valueSize (h : decodeAt P view fuel offset = .ok (v, next)) :
    valueSize view offset = .ok (next - offset) ∧ offset < next ∧ next ≤ view.length := by
  cases fuel with
  | zero => contradiction
  | succ fuel =>
    obtain ⟨_, hneed, hkind⟩ := bind_eq_ok.mp h
    have hsize : valueSize view offset = kindSize view ((view.drop offset).headD 0) offset := by
      simp only [valueSize, hneed]
      rfl
    rw [hsize]
    exact decodeKind_inv (need_eq_ok.mp hneed) hkind

/-! ### The fuel reaches -/

/-- Elements that are read further on do not run out of fuel either. -/
theorem decodeItems_reaches {dec : ℕ → Except PyError (PyValue D × ℕ)}
    (hfuel : ∀ o, offset ≤ o → dec o ≠ .error .recursion)
    (hmove : ∀ o w o', dec o = .ok (w, o') → o < o') (acc : List (PyValue D)) :
    decodeItems dec n offset acc ≠ .error .recursion := by
  induction n generalizing offset acc with
  | zero => nofun
  | succ n ih =>
    intro h
    rcases bind_eq_error.mp h with h | ⟨⟨item, o⟩, hitem, h⟩
    · exact hfuel offset (Nat.le_refl _) h
    · have := hmove _ _ _ hitem
      exact ih (fun o' ho' => hfuel o' (by omega)) _ h

theorem need_reaches (what : String) : need view offset n what ≠ .error .recursion := by
  simp only [need, unexpectedEnd]
  split <;> simp

theorem u32_reaches : u32 view offset ≠ .error .recursion := by
  intro h
  rcases bind_eq_error.mp h with h | ⟨_, -, h⟩
  · exact need_reaches _ h
  · contradiction

theorem decodeUtf8_reaches {raw : Bytes} : decodeUtf8 raw ≠ .error .recursion := by
  simp only [decodeUtf8]
  split <;> simp

theorem decodePairs_reaches {dec : ℕ → Except PyError (PyValue D × ℕ)}
    (hfuel : ∀ o, offset ≤ o → dec o ≠ .error .recursion)
    (hmove : ∀ o w o', dec o = .ok (w, o') → o < o') (obj : List (String × PyValue D)) :
    decodePairs view dec n offset obj ≠ .error .recursion := by
  induction n generalizing offset obj with
  | zero => nofun
  | succ n ih =>
    intro h
    rcases bind_eq_error.mp h with h | ⟨⟨klen, at₁⟩, hu, h⟩
    · exact u32_reaches h
    obtain rfl : at₁ = offset + 4 := (Prod.mk.inj (u32_eq_ok.mp hu).2).2
    rcases bind_eq_error.mp h with h | ⟨_, -, h⟩
    · exact need_reaches _ h
    rcases bind_eq_error.mp h with h | ⟨key, -, h⟩
    · exact decodeUtf8_reaches h
    rcases bind_eq_error.mp h with h | ⟨⟨value, o⟩, hvalue, h⟩
    · exact hfuel _ (by omega) h
    · have := hmove _ _ _ hvalue
      exact ih (fun o' ho' => hfuel o' (by omega)) _ h

theorem decodeWord_reaches {what : String} {read : ℕ → Except PyError (PyValue D)}
    (hread : ∀ m, read m ≠ .error .recursion) :
    decodeWord view offset what read ≠ .error .recursion := by
  intro h
  rcases bind_eq_error.mp h with h | ⟨_, -, h⟩
  · exact need_reaches _ h
  rcases bind_eq_error.mp h with h | ⟨_, -, h⟩
  · exact hread _ h
  · contradiction

theorem decodeRaw_reaches {what : String} {read : Bytes → Except PyError (PyValue D)}
    (hread : ∀ raw, read raw ≠ .error .recursion) :
    decodeRaw view offset what read ≠ .error .recursion := by
  intro h
  rcases bind_eq_error.mp h with h | ⟨_, -, h⟩
  · exact u32_reaches h
  rcases bind_eq_error.mp h with h | ⟨_, -, h⟩
  · exact need_reaches _ h
  rcases bind_eq_error.mp h with h | ⟨_, -, h⟩
  · exact hread _ h
  · contradiction

theorem decodeContainer_reaches {elements : ℕ → ℕ → Except PyError (PyValue D × ℕ)}
    (he : ∀ count, offset + 8 ≤ view.length → elements count (offset + 8) ≠ .error .recursion) :
    decodeContainer view offset elements ≠ .error .recursion := by
  intro h
  rcases bind_eq_error.mp h with h | ⟨⟨size, at₁⟩, hu, h⟩
  · exact u32_reaches h
  rcases bind_eq_error.mp h with h | ⟨_, -, h⟩
  · exact need_reaches _ h
  rcases bind_eq_error.mp h with h | ⟨⟨count, at₂⟩, hu', h⟩
  · exact u32_reaches h
  obtain rfl : at₁ = offset + 4 := (Prod.mk.inj (u32_eq_ok.mp hu).2).2
  obtain rfl : at₂ = offset + 8 := (Prod.mk.inj (u32_eq_ok.mp hu').2).2
  rcases bind_eq_error.mp h with h | ⟨⟨result, at₃⟩, -, h⟩
  · exact he count (u32_eq_ok.mp hu').1 h
  · simp only at h
    split at h <;> simp at h

/-- With fuel for the rest of the buffer the decoder never runs out of it. -/
theorem decodeAt_reaches (hpos : 0 < fuel) (h : view.length < offset + fuel) :
    decodeAt P view fuel offset ≠ .error .recursion := by
  induction fuel generalizing offset with
  | zero => omega
  | succ fuel ih =>
    intro hrec
    rcases bind_eq_error.mp hrec with hrec | ⟨_, -, hrec⟩
    · exact need_reaches _ hrec
    have hfurther : ∀ o, offset + 9 ≤ view.length → offset + 9 ≤ o →
        decodeAt P view fuel o ≠ .error .recursion := fun o hin ho =>
      ih (by omega) (by omega)
    have hmove : ∀ o w o', decodeAt P view fuel o = .ok (w, o') → o < o' := fun o w o' hok =>
      (consumed_eq_valueSize hok).2.1
    generalize (view.drop offset).headD 0 = kind at hrec
    unfold decodeKind at hrec
    split at hrec
    · contradiction
    · contradiction
    · contradiction
    · exact decodeWord_reaches (by simp) hrec
    · exact decodeWord_reaches (by simp) hrec
    · refine decodeWord_reaches (fun m => ?_) hrec
      simp only [decodeDate]
      split <;> simp
    · exact decodeWord_reaches (by simp) hrec
    · split at hrec <;> simp [unexpectedEnd] at hrec
    · refine decodeRaw_reaches (fun raw hraw => ?_) hrec
      cases hd : decodeUtf8 raw with
      | error e =>
        rw [hd] at hraw
        exact decodeUtf8_reaches (hd.trans (congrArg _ (Except.error.inj hraw)))
      | ok s => simp [hd, Except.map] at hraw
    · exact decodeRaw_reaches (by simp) hrec
    · exact decodeContainer_reaches (fun count hin =>
        decodeItems_reaches (fun o ho => hfurther o hin ho) hmove []) hrec
    · exact decodeContainer_reaches (fun count hin =>
        decodePairs_reaches (fun o ho => hfurther o hin ho) hmove []) hrec
    · simp [unknownType] at hrec

theorem decode_reaches (view : Bytes) : decode P view ≠ .error .recursion := by
  intro h
  rcases bind_eq_error.mp h with h | ⟨⟨value, o⟩, -, h⟩
  · exact decodeAt_reaches (by omega) (by omega) h
  · simp only at h
    split at h <;> simp at h

/-! ### Strict prefixes, trailing bytes, streams -/

theorem slice_append (rest : Bytes) (h : offset + n ≤ b.length) :
    slice (b ++ rest) offset n = slice b offset n := by
  simp only [slice]
  rw [List.drop_append_of_le_length (by omega), List.take_append_of_le_length]
  rw [List.length_drop]
  omega

theorem u32_append {r : ℕ × ℕ} (rest : Bytes) (h : u32 b offset = .ok r) :
    u32 (b ++ rest) offset = .ok r := by
  rw [u32_eq_ok] at h ⊢
  rw [slice_append rest h.1, List.length_append]
  exact ⟨by omega, h.2⟩

/-- Bytes behind a value do not change its size. -/
theorem valueSize_append (rest : Bytes) (h : valueSize b offset = .ok n) :
    valueSize (b ++ rest) offset = .ok n := by
  obtain ⟨_, hneed, hkind⟩ := bind_eq_ok.mp h
  have hin := need_eq_ok.mp hneed
  have hhead : ((b ++ rest).drop offset).headD 0 = (b.drop offset).headD 0 := by
    rw [List.drop_append_of_le_length (by omega)]
    cases hd : b.drop offset with
    | nil =>
      have := congrArg List.length hd
      simp only [List.length_drop, List.length_nil] at this
      omega
    | cons x xs => rfl
  refine bind_eq_ok.mpr ⟨(), need_eq_ok.mpr ?_, ?_⟩
  · rw [List.length_append]
    omega
  · rw [hhead]
    generalize (b.drop offset).headD 0 = kind at hkind
    unfold kindSize at hkind ⊢
    split at hkind
    iterate 8 exact hkind
    iterate 4
      obtain ⟨r, hu, hr⟩ := bind_eq_ok.mp hkind
      exact bind_eq_ok.mpr ⟨r, u32_append rest hu, hr⟩
    contradiction

theorem valueSize_encode (hv : Built P v) (hb : encodeInto P v = .ok b) (rest : Bytes) :
    valueSize (b ++ rest) 0 = .ok b.length := by
  apply valueSize_append
  have hread : decodeAt P b (b.length + 1) 0 = .ok (reread P v, 0 + b.length) :=
    hv.readsBack b hb b 0 _ ⟨by omega, by simp [slice]⟩ (by omega)
  simpa using (consumed_eq_valueSize hread).1

/-- What the round trip of a value comes to. -/
structure Faithful (P : PyRuntime D) (v : PyValue D) (b : Bytes) : Prop where
  decoded : decode P b = .ok (reread P v)
  same : Plain v → decode P b = .ok v
  sized : ∀ rest, valueSize (b ++ rest) 0 = .ok b.length
  cut : ∀ p, p <+: b → p ≠ b → ∃ e, decode P p = .error e ∧ e ≠ .recursion
  trailed : ∀ rest, rest ≠ [] → ∃ e, decode P (b ++ rest) = .error e ∧ e ≠ .recursion

theorem exists_error {view : Bytes} (h : ∀ w, decode P view ≠ .ok w) :
    ∃ e, decode P view = .error e ∧ e ≠ .recursion := by
  cases hd : decode P view with
  | ok w => exact absurd hd (h w)
  | error e =>
    refine ⟨e, rfl, fun he => ?_⟩
    subst he
    exact decode_reaches view hd

theorem valueSize_of_decode {w : PyValue D} (h : decode P view = .ok w) :
    valueSize view 0 = .ok view.length := by
  obtain ⟨⟨value, o⟩, hat, hend⟩ := bind_eq_ok.mp h
  simp only at hend
  split at hend
  · contradiction
  · rename_i ho
    rw [ne_eq, Decidable.not_not] at ho
    subst ho
    exact (consumed_eq_valueSize hat).1

theorem Built.faithful (hv : Built P v) (hb : encodeInto P v = .ok b) : Faithful P v b := by
  have hsize := valueSize_encode hv hb
  have hdecoded : decode P b = .ok (reread P v) := by
    have hread : decodeAt P b (b.length + 1) 0 = .ok (reread P v, 0 + b.length) :=
      hv.readsBack b hb b 0 _ ⟨by omega, by simp [slice]⟩ (by omega)
    simp [decode, hread, bind, Except.bind]
  refine ⟨hdecoded, fun hp => by rw [hdecoded, hp.reread_eq], hsize,
    fun p hp hne => exists_error fun w hw => ?_,
    fun rest hrest => exists_error fun w hw => ?_⟩
  · obtain ⟨rest, rfl⟩ := hp
    have hp' := valueSize_append rest (valueSize_of_decode hw)
    have hlen := hsize []
    rw [List.append_nil, hp'] at hlen
    have hrest : rest.length = 0 := by
      have := Except.ok.inj hlen
      rw [List.length_append] at this
      omega
    rw [List.length_eq_zero_iff.mp hrest, List.append_nil] at hne
    exact hne rfl
  · have hlen := Except.ok.inj ((hsize rest).symm.trans (valueSize_of_decode hw))
    rw [List.length_append] at hlen
    exact hrest (List.length_eq_zero_iff.mp (by omega))

/-- A stream of encodings yields the values they were made of. -/
theorem decodeStreamFrom_ok {vs : List (PyValue D)} {bs : List Bytes}
    (h : List.Forall₂ (fun v b => Built P v ∧ encodeInto P v = .ok b) vs bs)
    (hr : Reads view offset bs.flatten) (hend : offset + bs.flatten.length = view.length)
    (hfuel : bs.flatten.length ≤ fuel) :
    decodeStreamFrom P view fuel offset = .ok (vs.map (reread P)) := by
  induction h generalizing offset fuel with
  | nil =>
    simp only [List.flatten_nil, List.length_nil] at hend
    cases fuel <;> simp [decodeStreamFrom, hend.symm]
  | @cons v b vs bs hv htail ih =>
    obtain ⟨hbuilt, hb⟩ := hv
    rw [List.flatten_cons] at hr
    obtain ⟨hr₁, hr₂⟩ := Reads.append_iff.mp hr
    rw [List.flatten_cons, List.length_append] at hend hfuel
    have hread := hbuilt.readsBack b hb view offset (view.length + 1) hr₁ (by omega)
    have hpos := (consumed_eq_valueSize hread).2.1
    obtain ⟨fuel, rfl⟩ : ∃ k, fuel = k + 1 := ⟨fuel - 1, by omega⟩
    have hrest : decodeStreamFrom P view fuel (offset + b.length) = .ok (vs.map (reread P)) :=
      ih hr₂ (by omega) (by omega)
    simp only [decodeStreamFrom, if_pos (show offset < view.length by omega), hread, bind,
      Except.bind, hrest, List.map_cons]
    rfl

/-- The codec is faithful on its whole domain, streams of it fall apart in one way, and the
size rule agrees with the decoder on any bytes at all. -/
theorem codec_faithful (P : PyRuntime D) :
    (∀ v : PyValue D, Built P v → LengthsFit v →
      ∃ b, encode P v = .ok b ∧ b.length = wireSize v ∧ Faithful P v b) ∧
    (∀ (vs : List (PyValue D)) (bs : List Bytes),
      List.Forall₂ (fun v b => Built P v ∧ encode P v = .ok b) vs bs →
        decodeStream P bs.flatten = .ok (vs.map (reread P))) ∧
    ∀ (view : Bytes) (fuel offset next : ℕ) (w : PyValue D),
      decodeAt P view fuel offset = .ok (w, next) →
        valueSize view offset = .ok (next - offset) ∧ offset < next ∧ next ≤ view.length := by
  refine ⟨fun v hv hfit => ?_, fun vs bs h => ?_, fun _ _ _ _ _ h => consumed_eq_valueSize h⟩
  · obtain ⟨b, hb, hlen⟩ := hv.encodes hfit
    exact ⟨b, hb, hlen, hv.faithful hb⟩
  · have hwhole : Reads bs.flatten 0 bs.flatten :=
      ⟨by omega, by simp only [slice, List.drop_zero, List.take_length]⟩
    exact decodeStreamFrom_ok h hwhole (by omega) (Nat.le_refl _)

/-- An interpreter that knows no instant and no other float. -/
def plainRuntime : PyRuntime Empty := ⟨fun _ => none, nofun, fun _ => none⟩

/-- `{"a": [None, (True, -5)], "b": b"\x01"}` -/
def nested : PyValue Empty :=
  .dict [("a", .list [.none, .tuple [.bool true, .int (-5)]]), ("b", .bytes [1])]

theorem nested_built : Built plainRuntime nested := by
  refine .dict (by decide) fun item hi => ?_
  simp only [List.mem_cons, List.not_mem_nil, or_false] at hi
  rcases hi with rfl | rfl
  · refine .list fun item hi => ?_
    simp only [List.mem_cons, List.not_mem_nil, or_false] at hi
    rcases hi with rfl | rfl
    · exact .none
    · refine .tuple fun item hi => ?_
      simp only [List.mem_cons, List.not_mem_nil, or_false] at hi
      rcases hi with rfl | rfl
      · exact .bool true
      · exact .int (by decide)
  · exact .bytes [1]

theorem nested_faithful :
    (∃ b, encode plainRuntime nested = .ok b ∧ b.length = 54 ∧ Faithful plainRuntime nested b) ∧
      decodeStream plainRuntime [0x00, 0x02] = .ok [.none, .bool true] ∧
      valueSize [0x00, 0x10, 5, 0, 0, 0, 1, 0, 0, 0, 0x02] 1 = .ok 10 := by
  obtain ⟨hround, hstream, hsize⟩ := codec_faithful plainRuntime
  have hfit : LengthsFit nested := by
    simp only [LengthsFit]
    decide +kernel
  have hwire : wireSize nested = 54 := by decide +kernel
  refine ⟨hwire ▸ hround nested nested_built hfit, ?_, ?_⟩
  · exact hstream [.none, .bool true] [[0x00], [0x02]]
      (.cons ⟨.none, rfl⟩ (.cons ⟨.bool true, rfl⟩ .nil))
  · exact (hsize [0x00, 0x10, 5, 0, 0, 0, 1, 0, 0, 0, 0x02] 3 1 11 (.list [.bool true]) rfl).1

end SukkalMsg.PyBinjson
