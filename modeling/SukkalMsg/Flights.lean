import SukkalMsg.OneAccount

/-!
# What is under way

The engine knows subjects by names a log can have, and what it has under way is of one
of them and ends within its log. No step of a broker changes that.
-/

namespace SukkalMsg

open Std Names Binjson OrderedScan BoundedTable Store ActionRuns

/-- Outstanding deliveries end at an index of a log, or at a word, and are of subjects a log can
have where the names are read as they stand. -/
structure App.Flying (V : Vendor) (b : App) : Prop where
  names : ∀ name ∈ b.push.names, slash ∉ name
  ends : ∀ t ∈ b.push.subs, t.inflight = true →
    t.last < 2 ^ 64 ∨ t.last ≤ (b.store.logOf t.subject).last
  subjects : V.KeepsNames → ∀ t ∈ b.push.subs, t.inflight = true → slash ∉ t.subject

namespace App.Flying

variable {H : Host} {b : App} {st : Store} {p : Pusher}

theorem step (h : b.Flying H.vendor) (hgo : b.store.GoesOn st) (hn : ∀ name ∈ p.names, slash ∉ name)
    (hsubs : ∀ t' ∈ p.subs, t'.inflight = true → ∃ t ∈ b.push.subs, t.SameBody t') :
    Flying H.vendor ⟨st, p⟩ := by
  refine ⟨hn, fun t' ht hf => ?_, fun hV t' ht hf => ?_⟩ <;>
    obtain ⟨t, hmem, hsame⟩ := hsubs t' ht hf
  · rw [hsame.subject_eq, hsame.last_eq]
    exact (h.ends t hmem (hsame.inflight_eq ▸ hf)).imp_right fun hlast =>
      Nat.le_trans hlast (hgo t.subject).last_le
  · rw [hsame.subject_eq]
    exact h.subjects hV t hmem (hsame.inflight_eq ▸ hf)

theorem pump (h : b.Flying H.vendor) (hw : b.store.Words) (send : Psub → Bool) (now clock : ℕ) :
    Flying H.vendor (b.pump H.vendor send now clock).app := by
  rcases b.pump_cases H.vendor send now clock h.names hw with
    ⟨-, heq⟩ | ⟨-, ss', ds, st, p', w, -, happ, hturns, hpass, hpush, hds⟩
  · rw [heq]
    exact h
  · rw [happ]
    refine ⟨hpush.slash_notMem h.names, fun t' ht hf => ?_, fun hV t' ht hf => ?_⟩ <;>
      obtain ⟨t, hmem, l, hturn, hsub⟩ := hturns.turn_of_mem ht
    · cases hturn with
      | skipped _ => exact (h.ends t' hmem hf).imp_right fun hlast =>
          Nat.le_trans hlast (hpass.last_le _)
      | asked _ _ hidle =>
        rw [hidle] at hf
        contradiction
      | @sent d _ _ _ _ _ hd =>
        obtain ⟨-, hend⟩ := hds d (hsub (List.mem_singleton_self d))
        exact hd.ends.imp_right fun hlast => Nat.le_trans hlast (hend.last_le _)
    · cases hturn with
      | skipped _ => exact h.subjects hV t' hmem hf
      | asked _ _ hidle =>
        rw [hidle] at hf
        contradiction
      | @sent d _ _ _ _ _ hd => exact (hd.within (.inr hV)).1

theorem delivered (h : b.Flying H.vendor) (clock id : ℕ) (r : Reply) (now : ℕ) :
    Flying H.vendor (b.delivered clock id r now) := by
  have hlogs := b.logs_delivered clock id r now
  rcases b.delivered_cases clock id r now with ⟨heq, -⟩ | ⟨pre, t, suf, hsubs, -,
    ⟨-, suf', hperm, heq⟩ | ⟨-, x, hx, heq⟩⟩
  · rw [heq]
    exact h
  · rw [heq]
    refine h.step .refl h.names fun t' ht hf => ⟨t', ?_, .refl t'⟩
    rcases List.mem_append.mp ht with hm | hm
    · simp [hsubs, hm]
    · simp [hsubs, hperm.mem_iff.mp hm]
  · rw [heq] at hlogs ⊢
    refine h.step (.of_logs hlogs) h.names fun t' ht hf => ?_
    rcases List.mem_append.mp ht with hm | hm
    · exact ⟨t', by simp [hsubs, hm], .refl t'⟩
    · rcases List.mem_cons.mp hm with rfl | hm
      · rw [hx, (Psub.replied_settle clock b.store t r now).inflight_eq] at hf
        contradiction
      · exact ⟨t', by simp [hsubs, hm], .refl t'⟩

/-- One step of a broker, whoever asks for it. -/
theorem serve (h : b.Flying H.vendor) {op : ServeOp} (hs : Serving b op) :
    (b.serve H op).2.Flying H.vendor := by
  cases op with
  | request now method req =>
    rcases dispatch_cases H b now method req with ⟨hd, -, heq⟩ | ⟨-, heq⟩
    · obtain ⟨hsubs, hnames⟩ := hd.flights H b now req h.names
      simp only [App.serve, heq]
      exact h.step (hd.calls H b now req).goesOn hnames hsubs
    · simp only [App.serve, heq]
      exact h
  | sweep nowS =>
    exact h.step (b.store.retentionRun_calls H.vendor nowS).goesOn h.names
      fun t' ht hf => ⟨t', ht, .refl t'⟩
  | pump send now clock => exact h.pump hs.words send now clock
  | delivered clock id r now => exact h.delivered clock id r now

end App.Flying

theorem App.start_flying (V : Vendor) {st : Store} {listing : List Bytes} (n : ℕ)
    (hl : ∀ e ∈ listing, slash ∉ e) : (start st listing n).Flying V := by
  have hrest := start_rested st n hl
  refine ⟨hrest.names, fun t ht hf => ?_, fun _ t ht hf => ?_⟩ <;>
    · rw [hrest.idle t ht] at hf
      contradiction

end SukkalMsg
