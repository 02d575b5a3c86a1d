import SukkalMsg.Windows
import SukkalMsg.StoreCalls

/-!
# Logs are windows

A subject is one sequence of messages, and its log a window on the end of it. Every
call that changes a store lets each log go on: messages are added behind the last, and
trimmed off the front, and those that stay are what they were.
-/

namespace SukkalMsg

open Std Names Binjson OrderedScan BoundedTable Store ActionRuns Windows

namespace Elog

variable {log : Elog} {h : List Entry} {i : ℕ} {e : Entry}

def window (log : Elog) : Window Entry := ⟨log.base, log.entries⟩

@[simp] theorem window_last (log : Elog) : log.window.last = log.last := rfl

/-- What a log has at an index was published there. -/
theorem get_of_shows (hs : Window.Shows h log.window) (hget : log.get i = some e) :
    0 < i ∧ h[i - 1]? = some e := by
  simp only [get] at hget
  split at hget
  · contradiction
  · rename_i hi
    have hat := hs.getElem? hget
    have hsum : log.base + (i - log.base - 1) = i - 1 := by omega
    simp only [window, hsum] at hat
    exact ⟨by omega, hat⟩

end Elog

namespace Store

variable {st st' st'' : Store} {V : Vendor}

/-- Every log goes on: messages are added behind its last, and taken off its front. -/
def GoesOn (st st' : Store) : Prop := ∀ s, (st.logOf s).window.Advances (st'.logOf s).window

/-- What the next store's logs have behind the lasts of this one's. -/
def appended (st st' : Store) (s : Bytes) : List Entry :=
  (st.logOf s).window.added (st'.logOf s).window

/-- No log has lost messages the first store did not have. -/
def Meets (st st' : Store) : Prop := ∀ s, (st'.logOf s).base ≤ (st.logOf s).last

theorem appended_of_logs (h : st'.logs = st.logs) (s : Bytes) : st.appended st' s = [] := by
  have hsame : st'.logOf s = st.logOf s := by simp only [logOf, h]
  simp [appended, hsame, Window.added, Window.last]

theorem appended_append {log : Elog} {s : Bytes} {es : List Entry} (hl : st.logOf s = log)
    (h : st'.logOf s = ⟨log.base, log.entries ++ es⟩) : st.appended st' s = es := by
  simp [appended, hl, h, Window.added, Window.last, Elog.window]

theorem appended_of_last (h : ∀ s, (st'.logOf s).last = (st.logOf s).last) (s : Bytes) :
    st.appended st' s = [] := by
  have hlast := h s
  simp only [Elog.last] at hlast
  simp only [appended, Window.added, Window.last, Elog.window, List.drop_eq_nil_iff]
  omega

theorem Meets.of_base (h : ∀ s, (st'.logOf s).base = (st.logOf s).base) : Meets st st' :=
  fun s => h s ▸ Nat.le_add_right _ _

theorem Meets.of_last (h : ∀ s, (st'.logOf s).last = (st.logOf s).last) : Meets st st' :=
  fun s => h s ▸ Nat.le_add_right _ _

namespace GoesOn

theorem refl : GoesOn st st := fun _ => .refl _

theorem trans (h : GoesOn st st') (h' : GoesOn st' st'') : GoesOn st st'' :=
  fun s => (h s).trans (h' s)

theorem of_logs (h : st'.logs = st.logs) : GoesOn st st' := by
  intro s
  simp only [logOf, h]
  exact .refl _

theorem of_publish {now n : ℕ} {name : Bytes} {e : Entry}
    (h : st.bjmPublish now name e = .ok (n, st')) : GoesOn st st' := by
  obtain ⟨-, hlogs, -⟩ := bjmPublish_eq h
  intro s
  rw [logOf_insert hlogs]
  split
  · rename_i hs
    subst hs
    exact .append _ [e]
  · exact .refl _

theorem of_passed {who : Bytes → Prop} (h : Passed who st st') : GoesOn st st' := by
  intro s
  obtain ⟨new, hnew⟩ := h.grown s
  have hbase := h.base s
  have happ := Window.Advances.append (st.logOf s).window new
  simp only [Elog.window] at happ ⊢
  rw [hbase, ← hnew]
  exact happ

theorem of_trim {name : Bytes} {before base removed : ℕ} {force : Bool}
    (h : st.bjmTrim name before force = .ok (base, removed, st')) : GoesOn st st' := by
  intro s
  by_cases hs : s = name
  · subst hs
    obtain ⟨hbase, -, hcases⟩ := bjmTrim_eq h
    obtain ⟨-, hlast, hle, hfit, -⟩ := bjmTrim_log h
    rcases hcases with ⟨-, hsame⟩ | ⟨-, hcompact⟩
    · rw [hsame]
      exact .refl _
    · rw [hlast] at hfit
      rw [hcompact]
      exact .drop hle hfit
  · rw [bjmTrim_others h hs]
    exact .refl _

/-- A message stays what it is, as long as it is there. -/
theorem get (h : GoesOn st st') {s : Bytes} {i : ℕ} (hb : (st'.logOf s).base < i)
    (hl : i ≤ (st.logOf s).last) : (st'.logOf s).get i = (st.logOf s).get i := by
  have hbase : (st.logOf s).base ≤ (st'.logOf s).base := (h s).base
  have hat := (h s).getElem?_eq (n := i - 1) (Nat.le_sub_one_of_lt hb)
    (show i - 1 < (st.logOf s).last by omega)
  simp only [Elog.window] at hat
  have hnot : ¬ i ≤ (st'.logOf s).base := by omega
  have hnot' : ¬ i ≤ (st.logOf s).base := by omega
  simp only [Elog.get, hnot, hnot', if_false]
  rw [Nat.sub_right_comm, hat, Nat.sub_right_comm]

end GoesOn

end Store

namespace StoreCall

variable {V : Vendor} {st st' : Store} {call : StoreCall}

/-- The calls that write to a log are publishes, trims, and takes that bury jobs. -/
def Logging : StoreCall → Prop
  | publish .. | trim .. | take .. => True
  | _ => False

theorem Makes.logs (h : call.Makes V st st') (hl : ¬ call.Logging) : st'.logs = st.logs := by
  cases call with
  | publish | trim | take => exact absurd trivial hl
  | dedup => exact DedupOnly.logs_eq h
  | cursorSet s c n => rw [bjmCursorSet_same h]
  | cursorDelete s c =>
    obtain ⟨deleted, hdel⟩ := h
    rw [(bjmCursorDelete_eq hdel).1]
  | release now s g i drop delay =>
    obtain ⟨x, hx, rfl⟩ := h
    obtain ⟨q, existed, -, ⟨heq, -⟩ | ⟨pre, e, suf, q', -, -, -, -, heq, -⟩⟩ := queueRelease_eq hx
    · rw [heq]
    · rw [heq]
  | queueConfig s g l a b m =>
    obtain ⟨q, existed, -, rfl⟩ := bjmQueueConfig_eq h
    rfl
  | queueDelete s g =>
    obtain ⟨deleted, hdel⟩ := h
    rw [(bjmQueueDelete_eq hdel).1]
  | policySet s p =>
    obtain ⟨key, -, heq⟩ := bjmPolicySet_eq h
    rw [heq]
  | policyClear s =>
    obtain ⟨cleared, hclear⟩ := h
    rw [(bjmPolicyClear_eq hclear).1]
  | cursorDeleteConsumer | policyOpen | pushSet | pushDelete =>
    obtain rfl := h
    rfl

/-- Only a trim moves a base. -/
theorem Makes.base_eq (h : call.Makes V st st') (ht : ∀ s before force, call ≠ .trim s before force)
    (s : Bytes) : (st'.logOf s).base = (st.logOf s).base := by
  by_cases hl : call.Logging
  · cases call with
    | publish now name e =>
      obtain ⟨index, hpub⟩ := h
      rw [logOf_insert (bjmPublish_eq hpub).2.1]
      split
      · rename_i hs
        rw [← hs]
        rfl
      · rfl
    | trim s before force => exact absurd rfl (ht s before force)
    | take now s g max lease =>
      obtain ⟨t, htake, rfl⟩ := h
      exact (passed_take htake).base _
    | _ => exact hl.elim
  · simp only [logOf, h.logs hl]

theorem last_trim {s : Bytes} {before : ℕ} {force : Bool}
    (h : (StoreCall.trim s before force).Makes V st st') (x : Bytes) :
    (st'.logOf x).last = (st.logOf x).last := by
  obtain ⟨base, removed, htrim⟩ := h
  by_cases hx : x = s
  · subst hx
    exact (bjmTrim_log htrim).2.1
  · rw [bjmTrim_others htrim hx]

/-- Whatever a call does, the logs go on. -/
theorem Makes.goesOn (h : call.Makes V st st') : st.GoesOn st' := by
  by_cases hl : call.Logging
  · cases call with
    | publish now name e =>
      obtain ⟨index, hpub⟩ := h
      exact .of_publish hpub
    | trim s before force =>
      obtain ⟨base, removed, htrim⟩ := h
      exact .of_trim htrim
    | take now s g max lease =>
      obtain ⟨t, htake, rfl⟩ := h
      exact .of_passed (passed_take htake)
    | _ => exact hl.elim
  · exact .of_logs (h.logs hl)

end StoreCall

theorem Calls.goesOn {V : Vendor} {asks : Store → StoreCall → Prop} {st st' : Store}
    (h : Calls V asks st st') : st.GoesOn st' :=
  h.preserves (fun x => st.GoesOn x) .refl fun _ _ _ hon _ hm => hon.trans hm.goesOn

theorem Calls.base_eq {V : Vendor} {asks : Store → StoreCall → Prop} {st st' : Store}
    (h : Calls V asks st st') (ht : ∀ x s before force, ¬ asks x (.trim s before force)) (s : Bytes) :
    (st'.logOf s).base = (st.logOf s).base :=
  h.preserves (fun x => (x.logOf s).base = (st.logOf s).base) rfl fun _ _ _ heq ha hm =>
    (hm.base_eq (fun _ _ _ hcall => ht _ _ _ _ (hcall ▸ ha)) s).trans heq

/-- Calls that only trim, or write to no log, leave the lasts. -/
theorem Calls.last_eq {V : Vendor} {asks : Store → StoreCall → Prop} {st st' : Store}
    (h : Calls V asks st st') (hl : ∀ x call, asks x call → call.Logging →
      ∃ s before force, call = .trim s before force) (s : Bytes) :
    (st'.logOf s).last = (st.logOf s).last := by
  refine h.preserves (fun x => (x.logOf s).last = (st.logOf s).last) rfl
    fun x call x' heq ha hm => ?_
  by_cases hlog : call.Logging
  · obtain ⟨name, before, force, rfl⟩ := hl x call ha hlog
    exact (StoreCall.last_trim hm s).trans heq
  · rw [← heq]
    simp only [logOf, hm.logs hlog]

end SukkalMsg
