import SukkalMsg.Retention
import SukkalMsg.Text

/-!
# Retention policies

A policy is a flat record in the policy tree, next to the subject's marks. A sweep
turns each policy into the lowest index worth keeping, and trims up to there,
forced where the policy ignores the consumers.
-/

namespace SukkalMsg

open Std Names Binjson OrderedScan

def policyRecord (p : Policy) : Record :=
  [.beginObject,
    .key (ascii "max_age_s"), putInt p.maxAgeS,
    .key (ascii "max_messages"), putInt p.maxMessages,
    .key (ascii "max_bytes"), putInt p.maxBytes,
    .key (ascii "ignore_consumers"), .bool p.ignoreConsumers,
    .endObject]

def Policy.wrapped (p : Policy) : Policy :=
  ⟨u64 p.maxAgeS, u64 p.maxMessages, u64 p.maxBytes, p.ignoreConsumers⟩

def Policy.ints (p : Policy) : List ℕ := [p.maxAgeS, p.maxMessages, p.maxBytes]

theorem policyDecode_of_carried {p : Policy} (h : ∀ n ∈ p.ints, Carried n) :
    Store.policyDecode (policyRecord p) = .ok p := by
  simp only [Policy.ints, List.mem_cons, List.not_mem_nil, or_false] at h
  have hage := h p.maxAgeS (.inl rfl)
  have hcount := h p.maxMessages (.inr (.inl rfl))
  have hbytes := h p.maxBytes (.inr (.inr rfl))
  have hr : Readable (policyRecord p) := by
    intro it hit
    simp only [policyRecord, List.mem_cons, List.not_mem_nil, or_false] at hit
    rcases hit with rfl | rfl | rfl | rfl | rfl | rfl | rfl | rfl | rfl | rfl <;>
      first | trivial | exact hage.safe | exact hcount.safe | exact hbytes.safe
  have hfold : (policyRecord p).foldl Store.polVisit ⟨[], .zero⟩ =
      ⟨ascii "ignore_consumers", ⟨ofDouble (toInt64 p.maxAgeS), ofDouble (toInt64 p.maxMessages),
        ofDouble (toInt64 p.maxBytes), p.ignoreConsumers⟩⟩ := rfl
  rw [Store.policyDecode, bjDecode_of_readable _ hr, hfold, hage.back, hcount.back, hbytes.back]
  rfl

def ageBoundary (cutoff : ℕ) : List ℕ → ℕ
  | i :: t :: m => max (if t < cutoff then u64 (i + 1) else 0) (ageBoundary cutoff m)
  | _ => 0

namespace Store

def policyUncache (st : Store) (subject : Bytes) : Store :=
  match st.subs[subject]? with
  | none => st
  | some s => st.setSubject subject { s with polLoaded := false }

def bjmPolicySet (st : Store) (subject : Bytes) (p : Policy) : Except BjErr Store :=
  match policyKey (ascii "p") subject with
  | none => .error .range
  | some key => .ok ({ st with
      policyOpen := true
      policy := st.policy.insert key (policyRecord p) }.policyUncache subject)

def bjmPolicyClear (st : Store) (subject : Bytes) : Except BjErr (Bool × Store) :=
  match policyKey (ascii "p") subject with
  | none => .error .range
  | some key =>
    let st := { st with policyOpen := true }
    if !st.policy.contains key then .ok (false, st)
    else
      let tree := st.policy.erase key
      let tree := match policyKey (ascii "m") subject with
        | none => tree
        | some mkey => tree.erase mkey
      .ok (true, { st with policy := tree }.policyUncache subject)

/-- The lowest index a policy keeps, 0 when it lets everything stand. -/
def policyBoundary (V : Vendor) (st : Store) (name : Bytes) (log : Elog) (p : Policy)
    (nowS : ℕ) : ℕ :=
  let live := log.last - log.base
  let bytes := V.fileLen log
  let avg := max 1 (bytes / live)
  if live = 0 then 0
  else
    let byCount := if p.maxMessages ≠ 0 ∧ live > p.maxMessages then log.last - p.maxMessages + 1
      else 0
    let byBytes := if p.maxBytes ≠ 0 ∧ bytes > p.maxBytes then
        log.base + min live ((bytes - p.maxBytes + avg - 1) / avg) + 1
      else 0
    let byAge := if p.maxAgeS ≠ 0 ∧ nowS > p.maxAgeS then match st.marksLoad name with
        | .error _ => 0
        | .ok m => ageBoundary (nowS - p.maxAgeS) m
      else 0
    max byCount (max byBytes byAge)

/-- The subjects with a policy, from `"p/"` to `"p0"`. -/
def policyNames (st : Store) : List Bytes :=
  (scan st.policy (ascii "p/") (ascii "p0")).filterMap fun x =>
    if x.1.length ≤ 2 ∨ x.1.length - 2 > BJM_SUBJECT_MAX then none
    else some (cString (x.1.drop 2))

/-- One turn of the sweep: how much it removed, and the store. -/
def sweepOne (V : Vendor) (nowS : ℕ) (st : Store) (name : Bytes) : ℕ × Store :=
  match st.bjmPolicyGet name with
  | .ok (true, p) => match st.subjectGet name false with
    | .error _ => (0, st)
    | .ok log =>
      let before := st.policyBoundary V name log p nowS
      if before = 0 then (0, st)
      else match st.bjmTrim name before p.ignoreConsumers with
        | .error _ => (0, st)
        | .ok (_, got, st) => (got, st)
  | _ => (0, st)

/-- `bjm_retention_run`: how many messages went, from how many subjects. -/
def bjmRetentionRun (V : Vendor) (st : Store) (nowS : ℕ) : ℕ × ℕ × Store :=
  st.policyNames.foldl (fun (removed, trimmed, st) name =>
    let (got, st) := st.sweepOne V nowS name
    (removed + got, if got ≠ 0 then trimmed + 1 else trimmed, st))
    (0, 0, { st with policyOpen := true })

end Store

end SukkalMsg
