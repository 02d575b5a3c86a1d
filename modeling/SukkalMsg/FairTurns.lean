import Mathlib.Data.List.Chain
import Mathlib.Data.List.Perm.Subperm
import SukkalMsg.Offers
import SukkalMsg.RoundRobin

/-!
# One subscription's turns

A turn is one asking of a subscription within a pass. Its search begins at the
round-robin cursor and offers the subscription every subject it matches, until one has
something to deliver; a take may add its dead-letter channel to the names on the way.
Each turn begins where the one before it stopped, so that a subject that has something
at every turn waits for each of the others once at most.
-/

namespace SukkalMsg

open Std Names Binjson OrderedScan BoundedTable Store

namespace Scan

variable (V : Vendor) (clock : ℕ)

/-- What the loop offers to the subscription, and the scan it has come to by then. -/
def offered : ℕ → ℕ → Scan → List (Scan × Bytes)
  | 0, _, _ => []
  | fuel + 1, n, a =>
    if n < a.push.names.length then
      let i := (a.sub.rr + n) % a.push.names.length
      let name := a.push.names.getD i []
      if a.sub.isMatch name then (a, name) :: match a.offer V clock i name with
        | (a, none) => offered fuel (n + 1) a
        | (_, some _) => []
      else offered fuel (n + 1) a
    else []

end Scan

/-- The names a search has come to: those it began with, and dead-letter channels of
theirs. -/
structure Grown (names names' : List Bytes) : Prop where
  channels : ∃ l, names' = names ++ l ∧ l.Nodup ∧ ∀ y ∈ l, ∃ s ∈ names, deadSubjectOf s = some y
  nodup : names'.Nodup

namespace Grown

variable {names names' : List Bytes} {p p' : Pusher} {name : Bytes}

theorem refl (h : names.Nodup) : Grown names names := ⟨⟨[], by simp⟩, h⟩

theorem tells (h : Grown names p.names) (ht : p.Tells name p') (hn : name ∈ p.names) :
    Grown names p'.names := by
  refine ⟨?_, ht.nodup h.nodup⟩
  obtain ⟨l, hl, hnodup, hch⟩ := h.channels
  rcases ht with heq | ⟨dead, hd, hnew, heq⟩
  · exact ⟨l, by rw [heq, hl], hnodup, hch⟩
  · refine ⟨l ++ [dead], by rw [heq, hl, List.append_assoc], ?_, fun y hy => ?_⟩
    · rw [List.nodup_append]
      refine ⟨hnodup, List.nodup_singleton _, fun y hy z hz => ?_⟩
      obtain rfl := List.mem_singleton.mp hz
      rintro rfl
      rw [hl] at hnew
      exact hnew (List.mem_append_right _ hy)
    · rcases List.mem_append.mp hy with hy | hy
      · exact hch y hy
      · obtain rfl := List.mem_singleton.mp hy
        rw [hl] at hn
        rcases List.mem_append.mp hn with hn | hn
        · exact ⟨name, hn, hd⟩
        · obtain ⟨s, -, hs⟩ := hch name hn
          rw [deadSubjectOf_dead hs] at hd
          contradiction

theorem length_le (h : Grown names names') : names'.length ≤ 2 * names.length := by
  obtain ⟨l, rfl, hnodup, hch⟩ := h.channels
  have hsub : l ⊆ names.filterMap deadSubjectOf := fun y hy => by
    obtain ⟨s, hs, hd⟩ := hch y hy
    exact List.mem_filterMap.mpr ⟨s, hs, hd⟩
  have hle := (List.subperm_of_subset hnodup hsub).length_le
  have hfilter := List.length_filterMap_le deadSubjectOf names
  rw [List.length_append]
  omega

end Grown

namespace Scan

variable {V : Vendor} {clock : ℕ} {a : Scan} {x : Bytes}

/-- The search that began at the cursor `r` stopped at this slot, no later than `j`. -/
structure Found (V : Vendor) (names : List Bytes) (r j : ℕ) (a' : Scan) (i : ℕ) : Prop where
  slot : V.KeepsNames → a'.push.names[i]? = some a'.sub.subject
  cursor : a'.sub.rr = (i + 1) % a'.push.names.length
  grown : Grown names a'.push.names
  order : i = j ∨ RoundRobin.Ahead r j i

/-- While `x` at the slot `j` is deliverable and still to come, the loop finds it or a
subject before it. -/
theorem loop_finds {b : Scan} {names : List Bytes} {r j : ℕ} (fuel n : ℕ) (ha : a.Sound)
    (hgrown : Grown names a.push.names) (hfuel : fuel + n = 2 * names.length + 1)
    (hcursor : a.sub.rr = r) (hr : r < a.push.names.length) (hx : a.push.names[j]? = some x)
    (hmatch : a.sub.isMatch x = true) (hpending : RoundRobin.Pending a.push.names.length r n j)
    (hd : b.deliverable V clock x = true) (hkeeps : Keeps x b a)
    (hs : ∀ p ∈ a.offered V clock fuel n, p.1.served V clock p.2 = true) :
    ∃ a' count i, loop V clock fuel n a = (a', some count) ∧ Found V names r j a' i := by
  induction fuel generalizing a n with
  | zero =>
    have hlt := hpending.lt (List.getElem?_eq_some_iff.mp hx).1
    have hle := hgrown.length_le
    omega
  | succ fuel ih =>
    have hj := (List.getElem?_eq_some_iff.mp hx).1
    have hn := hpending.lt hj
    have hslot := RoundRobin.slot_lt (n := n) hr
    have hcome := hpending.slot hr hj
    simp only [RoundRobin.slot] at hslot hcome
    simp only [offered, hn, if_true, hcursor] at hs
    simp only [loop, hn, if_true, hcursor]
    set i := (r + n) % a.push.names.length with hi
    have hname : a.push.names[i]? = some (a.push.names.getD i []) := by
      rw [List.getD_eq_getElem?_getD, List.getElem?_eq_getElem hslot, Option.getD_some]
    generalize a.push.names.getD i [] = name at hs hname ⊢
    have hmem : name ∈ a.push.names := List.mem_of_getElem? hname
    have hnslash := ha.names name hmem
    have hxslash := ha.names x (List.mem_of_getElem? hx)
    by_cases hm : a.sub.isMatch name = true
    · simp only [hm, if_true] at hs ⊢
      have hserved := hs (a, name) List.mem_cons_self
      rcases offer_served (i := i) hserved ha hnslash with
        ⟨c, hoffer, hpass⟩ | ⟨-, c, count, hoffer, htells, hsubj, hbrr⟩
      · -- nothing here: `x` is another subject, and keeps what it has
        have hne : x ≠ name := by
          rintro rfl
          have hstill := hkeeps.deliverable hd hserved
          rw [hpass.nothing] at hstill
          contradiction
        have hij : i ≠ j := by
          rintro hij
          rw [hij, hx] at hname
          exact hne (Option.some.inj hname)
        have hsearched := searched_offer V clock ha i hnslash
        rw [hoffer] at hsearched hs ⊢
        have hkeep := keeps_offer ha hnslash hxslash hne hoffer
        refine ih (n + 1) (hsearched.sound ha) (hgrown.tells hpass.tells hmem) (by omega)
          (hpass.rr.trans hcursor) (Nat.lt_of_lt_of_le hr hpass.tells.longer.length_le)
          (getElem?_of_longer hpass.tells.longer hx) ?_ ?_ (hkeeps.trans hkeep)
          fun p hp => hs p (List.mem_cons_of_mem _ hp)
        · rwa [hkeep.isMatch_eq]
        · exact hpending.next hr hj hij hpass.tells.longer.length_le hpass.tells.length_le
      · rw [hoffer]
        refine ⟨c, count, i, rfl, fun hV => ?_, hbrr, hgrown.tells htells hmem, hcome⟩
        rw [hsubj hV]
        exact getElem?_of_longer htells.longer hname
    · have hij : i ≠ j := by
        rintro hij
        rw [hij, hx] at hname
        rw [← Option.some.inj hname] at hm
        exact hm hmatch
      simp only [hm] at hs ⊢
      exact ih (n + 1) ha hgrown (by omega) hcursor hr hx hmatch
        (hpending.next hr hj hij (Nat.le_refl _) (Nat.le_succ _)) hkeeps hs

end Scan

/-- One asking of a subscription: the scan it begins, and the host it meets. -/
structure PassTurn where
  scan : Scan
  clock : ℕ
  send : Psub → Bool

namespace PassTurn

section Defs

variable (V : Vendor) (t : PassTurn)

def after : Scan := (t.scan.startDelivery V t.clock t.send).2

def delivered : Option Bytes :=
  if (t.scan.startDelivery V t.clock t.send).1 then some (t.after V).sub.subject else none

def deliverable (x : Bytes) : Bool := t.scan.sub.isMatch x && t.scan.deliverable V t.clock x

def succeeds : Bool :=
  (({ t.scan with sub.wakeMs := 0 } : Scan).offered V t.clock
    (2 * t.scan.push.names.length + 1) 0).all (fun p => p.1.served V t.clock p.2) &&
  ((t.scan.search V t.clock).2.isNone || (t.scan.startDelivery V t.clock t.send).1)

end Defs

/-- The engine knows every subject with messages, and the cursor is one of its slots. -/
structure Ready (t : PassTurn) : Prop where
  sound : t.scan.Sound
  nodup : t.scan.push.names.Nodup
  cursor : t.scan.push.names ≠ [] → t.scan.sub.rr < t.scan.push.names.length
  known : ∀ x, 0 < (t.scan.store.logOf x).last → x ∈ t.scan.push.names

variable {V : Vendor} {t : PassTurn} {x : Bytes}

theorem finds (hr : t.Ready) (hs : t.succeeds V = true) (hd : t.deliverable V x = true) :
    ∃ y i j, t.delivered V = some y ∧
      (V.KeepsNames → (t.after V).push.names[i]? = some y) ∧
      (t.after V).push.names[j]? = some x ∧
      (t.after V).sub.rr = (i + 1) % (t.after V).push.names.length ∧
      (i = j ∨ RoundRobin.Ahead t.scan.sub.rr j i) := by
  simp only [deliverable, Bool.and_eq_true] at hd
  simp only [succeeds, Bool.and_eq_true, List.all_eq_true, Bool.or_eq_true] at hs
  have hmem := hr.known x (Scan.pos_of_deliverable hd.2)
  obtain ⟨j, hj⟩ := List.getElem?_of_mem hmem
  have hlt := hr.cursor (List.ne_nil_of_mem hmem)
  set a₀ : Scan := { t.scan with sub.wakeMs := 0 } with ha₀
  obtain ⟨a', count, i, hloop, hfound⟩ := Scan.loop_finds (a := a₀) (b := a₀) _ 0
    ⟨hr.sound.names, hr.sound.base⟩ (.refl hr.nodup) rfl rfl hlt hj hd.1
    (RoundRobin.pending_zero hlt) hd.2 .refl hs.1
  have hsearch : t.scan.search V t.clock = (a', some count) := hloop
  have hslot := hfound.slot
  have hcursor := hfound.cursor
  obtain ⟨l, hl, -, -⟩ := hfound.grown.channels
  have hx : a'.push.names[j]? = some x := by
    rw [hl]
    exact getElem?_of_longer (List.prefix_append _ _) hj
  refine ⟨a'.sub.subject, i, j, ?_⟩
  rcases Scan.startDelivery_cases V t.clock t.send (a := t.scan) with
    ⟨-, hnone⟩ | ⟨c, -, ⟨-, hstart⟩ | ⟨-, hstart⟩⟩
  · rw [hsearch] at hnone
    contradiction
  · rw [hsearch, hstart] at hs
    simp at hs
  · rw [hsearch] at hstart
    simp only [delivered, after, hstart, if_true]
    exact ⟨rfl, hslot, hx, hcursor, hfound.order⟩

theorem nothing_of_idle (hr : t.Ready) (hs : t.succeeds V = true) (hn : t.delivered V = none)
    (x : Bytes) : t.deliverable V x = false := by
  by_contra hd
  rw [Bool.not_eq_false] at hd
  obtain ⟨y, i, j, hy, -⟩ := finds hr hs hd
  rw [hn] at hy
  contradiction

def Follows (V : Vendor) (t t' : PassTurn) : Prop := t'.scan.sub.rr = (t.after V).sub.rr

end PassTurn

end SukkalMsg
