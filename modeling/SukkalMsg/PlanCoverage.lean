import SukkalMsg.Bystanders
import SukkalMsg.ReceiptBounds
import SukkalMsg.SubscriptionStarts
import SukkalMsg.TrimmedReads
import SukkalMsg.WasmPlan

/-!
# What a plan covers

The host opens the names of the plan and no others. A handler that asks for the log of its
path's subject finds it there. Three ask for others: a take that buries a job, a requeue to
the subject its envelope names, and a registration that begins at the end of what it matches.
-/

namespace SukkalMsg

open Std Names Binjson OrderedScan BoundedTable Store ActionRuns

/-- The host has opened the name, and created it if that is asked. -/
def Covers (plan : List Opening) (o : Opening) : Prop :=
  ∃ p ∈ plan, p.file = o.file ∧ (o.create = true → p.create = true)

/-- The names an access may pass to `open`. -/
def Access.openings : Access → List Opening
  | get s create => [⟨liveName s, create⟩]
  | compact s => [⟨tmpName s, true⟩, ⟨liveName s, false⟩]

namespace Store

variable {st : Store} {held : List Bytes} {l : List Access} {o : Opening}

theorem held_subset_access (x : OpenLogs) (a : Access) : x.held ⊆ (st.access x a).held := by
  cases a with
  | get s create =>
    simp only [access]
    split
    · exact List.Subset.refl _
    · dsimp only
      split
      · exact List.subset_append_left _ _
      · exact List.Subset.refl _
  | compact s => exact List.Subset.refl _

theorem mem_access {x : OpenLogs} {a : Access} (h : o ∈ (st.access x a).opened) :
    o ∈ x.opened ∨ o ∈ a.openings ∧ ∀ s c, a = .get s c → s ∉ x.held ∧ fileFits s = true := by
  cases a with
  | get s create =>
    simp only [access] at h
    split at h
    · exact .inl h
    · rename_i hnew
      simp only [Bool.or_eq_true, List.contains_iff_mem, Bool.not_eq_true', not_or,
        Bool.not_eq_false] at hnew
      rcases List.mem_append.mp h with ho | ho
      · exact .inl ho
      · refine .inr ⟨ho, fun s' c' he => ?_⟩
        obtain ⟨rfl, -⟩ := Access.get.inj he
        exact hnew
  | compact s =>
    rcases List.mem_append.mp h with ho | ho
    · exact .inl ho
    · exact .inr ⟨ho, nofun⟩

theorem mem_opens (h : o ∈ (st.opens held l).opened) :
    ∃ a ∈ l, o ∈ a.openings ∧ ∀ s c, a = .get s c → s ∉ held ∧ fileFits s = true := by
  have hloop : ∀ (l : List Access) (x : OpenLogs), held ⊆ x.held →
      o ∈ (l.foldl st.access x).opened → o ∈ x.opened ∨
        ∃ a ∈ l, o ∈ a.openings ∧ ∀ s c, a = .get s c → s ∉ held ∧ fileFits s = true := by
    intro l
    induction l with
    | nil => exact fun x _ h => .inl h
    | cons a l ih =>
      intro x hx h
      rcases ih _ (List.Subset.trans hx (held_subset_access x a)) h with ho | ⟨a', ha', ho⟩
      · rcases mem_access ho with ho | ⟨ho, hnew⟩
        · exact .inl ho
        · refine .inr ⟨a, List.mem_cons_self, ho, fun s c he => ?_⟩
          exact ⟨fun hs => (hnew s c he).1 (hx hs), (hnew s c he).2⟩
      · exact .inr ⟨a', List.mem_cons_of_mem _ ha', ho⟩
  exact (hloop l ⟨held, []⟩ (List.Subset.refl _) h).resolve_left List.not_mem_nil

theorem opened_subset_access (x : OpenLogs) (a : Access) : x.opened ⊆ (st.access x a).opened := by
  cases a with
  | get s create =>
    simp only [access]
    split
    · exact List.Subset.refl _
    · exact List.subset_append_left _ _
  | compact s => exact List.subset_append_left _ _

/-- A log that is asked for, and never in another way, is opened. -/
theorem opened_of_get {s : Bytes} {c : Bool} (hmem : .get s c ∈ l) (hs : s ∉ held)
    (hfits : fileFits s = true) (honly : ∀ a ∈ l, a.subject = s → a = .get s c) :
    ⟨liveName s, c⟩ ∈ (st.opens held l).opened := by
  have hkeep : ∀ (l : List Access) (x : OpenLogs), x.opened ⊆ (l.foldl st.access x).opened := by
    intro l
    induction l with
    | nil => exact fun x => List.Subset.refl _
    | cons a l ih => exact fun x => List.Subset.trans (opened_subset_access x a) (ih _)
  have hloop : ∀ (l : List Access) (x : OpenLogs), .get s c ∈ l → s ∉ x.held →
      (∀ a ∈ l, a.subject = s → a = .get s c) →
        ⟨liveName s, c⟩ ∈ (l.foldl st.access x).opened := by
    intro l
    induction l with
    | nil => exact fun x h => absurd h List.not_mem_nil
    | cons a l ih =>
      intro x hmem hs honly
      by_cases ha : a.subject = s
      · obtain rfl := honly a List.mem_cons_self ha
        refine hkeep l _ ?_
        simp [access, hs, hfits]
      · have hmem' : .get s c ∈ l := by
          rcases List.mem_cons.mp hmem with rfl | hmem
          · exact absurd rfl ha
          · exact hmem
        refine ih _ hmem' ?_ fun a ha => honly a (List.mem_cons_of_mem _ ha)
        cases a with
        | get s' c' =>
          simp only [access]
          split
          · exact hs
          · dsimp only
            split
            · simpa [hs] using fun he => ha he.symm
            · exact hs
        | compact s' => exact hs
  exact hloop l ⟨held, []⟩ hmem hs honly

end Store

deriving instance DecidableEq for Route

namespace Handler

/-- The row of the table that names the function. -/
def row (h : Handler) : Route := (ROUTES.find? fun r => r.handler = h).getD ⟨[], [], h⟩

/-- The path of the row, up to where its subject begins. -/
def pre (h : Handler) : Bytes := h.row.path.dropLast

/-- The paths of the row end in a subject. -/
def Starred (h : Handler) : Prop := h.row.path.getLast? = some star

instance (h : Handler) : Decidable h.Starred := inferInstanceAs (Decidable (_ = _))

variable {h : Handler} {method path s : Bytes} {req : Request}

theorem row_of_route (hroute : sukkalRoute method path = some h) :
    h.row.method = method ∧ pathMatches h.row.path path = true := by
  obtain ⟨r, hr, hmethod, hpath, rfl⟩ := route_of_lookup hroute
  have hrow : ∀ r ∈ ROUTES, r.handler.row = r := by decide
  rw [hrow r hr]
  exact ⟨hmethod, hpath⟩

theorem path_of_route (hroute : sukkalRoute method path = some h) (hstar : h.Starred) :
    path = h.pre ++ path.drop h.pre.length := by
  have hmatch := (row_of_route hroute).2
  have hlast : h.row.path.getLast? = some star := hstar
  rw [pathMatches, if_pos hlast, List.isPrefixOf_iff_prefix] at hmatch
  exact List.prefix_iff_eq_append.mp hmatch |>.symm

theorem planSubject_pre (hstar : h.Starred) (hs : bjmSubjectValid s = true) :
    planSubject (h.pre ++ s) = some s := by
  have hpre : slash ∉ (h.pre.drop 1).dropLast ∧
      h.pre = slash :: (h.pre.drop 1).dropLast ++ [slash] := by
    revert hstar
    cases h <;> decide
  obtain ⟨hverb, hpre⟩ := hpre
  rw [hpre, List.append_assoc]
  exact planSubject_of_path hverb hs

theorem planSubject_of_route (hroute : sukkalRoute method req.path = some h) (hstar : h.Starred)
    (hs : subjectAt req h.pre = .ok s) : planSubject req.path = some s := by
  have hvalid := subjectAt_valid hs
  have hdrop : req.path.drop h.pre.length = s := by
    simp only [subjectAt, subjectOf] at hs
    split at hs
    · contradiction
    · rename_i hok
      split at hok
      · rw [Except.ok.inj hok, Except.ok.inj hs]
      · contradiction
  rw [path_of_route hroute hstar, hdrop]
  exact planSubject_pre hstar hvalid

theorem plan_of_route (hroute : sukkalRoute method path = some h) (hstar : h.Starred)
    (hs : planSubject path = some s) :
    hostPlan method path = SHARED_FILES.map (⟨·, true⟩) ++
      ⟨liveName s, decide (h = hPublish ∨ h = hRequeue)⟩ ::
        ((if h = hDone ∨ h = hFail ∨ h = hDead ∨ h = hRequeue then
          [⟨liveName (s ++ BJM_DEAD_SUFFIX), decide (h = hDone ∨ h = hFail)⟩] else []) ++
        if h = hTrim then [⟨tmpName s, true⟩] else []) := by
  obtain ⟨hmethod, -⟩ := row_of_route hroute
  have hflags : ∀ rest, planCreates h.row.method (h.pre ++ rest) =
        decide (h = hPublish ∨ h = hRequeue) ∧
      planMayDie h.row.method (h.pre ++ rest) = decide (h = hDone ∨ h = hFail) ∧
      planReadsDead (h.pre ++ rest) = decide (h = hDead ∨ h = hRequeue) ∧
      planCompacts h.row.method (h.pre ++ rest) = decide (h = hTrim) := by
    intro rest
    cases h <;> exact ⟨rfl, rfl, rfl, rfl⟩
  obtain ⟨hcreates, hdies, hdead, hcompacts⟩ := hflags (path.drop h.pre.length)
  rw [← path_of_route hroute hstar, hmethod] at hcreates hdies hcompacts
  rw [← path_of_route hroute hstar] at hdead
  rw [hostPlan_eq, planned, hs]
  dsimp only
  rw [subjectPlan_eq (planSubject_valid hs), hcreates, hdies, hdead, hcompacts]
  simp only [Bool.or_eq_true, decide_eq_true_eq, or_assoc]

theorem liveName_last (x : Bytes) : (liveName x).getLast? = some 0x67 := by
  rw [liveName, List.getLast?_append]
  rfl

theorem liveName_ne_shared {x f : Bytes} (hf : f ∈ SHARED_FILES) : f ≠ liveName x := by
  rintro rfl
  have hlast : ∀ f ∈ SHARED_FILES, f.getLast? = some 0x74 := by decide
  have hshared := hlast _ hf
  rw [liveName_last] at hshared
  contradiction

theorem liveName_ne_tmpName (x s : Bytes) : liveName x ≠ tmpName s := by
  intro he
  have hname := liveName_last x
  have htmp : (ascii ".tmp").getLast? = some 0x70 := rfl
  rw [he, tmpName, List.getLast?_append, htmp, Option.some_or] at hname
  exact absurd (Option.some.inj hname) (by decide)

/-- The logs a plan covers are its subject's and, for some routes, the dead-letter
channel's. -/
theorem covers_live_iff (hroute : sukkalRoute method path = some h) (hstar : h.Starred)
    (hs : planSubject path = some s) {x : Bytes} {c : Bool} :
    Covers (hostPlan method path) ⟨liveName x, c⟩ ↔
      x = s ∧ (c = true → h = hPublish ∨ h = hRequeue) ∨
      x = s ++ BJM_DEAD_SUFFIX ∧ (h = hDone ∨ h = hFail ∨ h = hDead ∨ h = hRequeue) ∧
        (c = true → h = hDone ∨ h = hFail) := by
  rw [plan_of_route hroute hstar hs]
  constructor
  · rintro ⟨p, hp, hfile, hcreate⟩
    simp only [List.mem_append, List.mem_map, List.mem_cons] at hp
    rcases hp with ⟨f, hf, rfl⟩ | rfl | hp | hp
    · exact absurd hfile (liveName_ne_shared hf)
    · exact .inl ⟨(liveName_injective hfile).symm, fun hc => by simpa using hcreate hc⟩
    · split at hp
      · rename_i hdead
        obtain rfl := List.mem_singleton.mp hp
        exact .inr ⟨(liveName_injective hfile).symm, hdead, fun hc => by simpa using hcreate hc⟩
      · contradiction
    · split at hp
      · obtain rfl := List.mem_singleton.mp hp
        exact absurd hfile.symm (liveName_ne_tmpName x s)
      · contradiction
  · rintro (⟨rfl, hc⟩ | ⟨rfl, hdead, hc⟩)
    · refine ⟨⟨liveName x, decide (h = hPublish ∨ h = hRequeue)⟩, ?_, rfl, fun h => by simpa using hc h⟩
      simp
    · refine ⟨⟨liveName (s ++ BJM_DEAD_SUFFIX), decide (h = hDone ∨ h = hFail)⟩, ?_, rfl,
        fun h => by simpa using hc h⟩
      rw [if_pos hdead]
      simp

theorem not_covers_live (hs : planSubject path = none) {x : Bytes} {c : Bool} :
    ¬ Covers (hostPlan method path) ⟨liveName x, c⟩ := by
  rintro ⟨p, hp, hfile, -⟩
  rw [hostPlan_eq, planned, hs, List.append_nil] at hp
  obtain ⟨f, hf, rfl⟩ := List.mem_map.mp hp
  exact liveName_ne_shared hf hfile

theorem covers_tmp (hroute : sukkalRoute method path = some hTrim) (hs : planSubject path = some s) :
    Covers (hostPlan method path) ⟨tmpName s, true⟩ := by
  rw [plan_of_route hroute (by decide) hs]
  exact ⟨⟨tmpName s, true⟩, by simp, rfl, fun _ => rfl⟩

/-- The access is to the log of the path's subject, or to its dead-letter channel where the
route is about that. -/
def Own (h : Handler) (s : Bytes) : Access → Prop
  | .get x c => x = s ∧ (c = true → h = hPublish) ∨
    x = s ++ BJM_DEAD_SUFFIX ∧ c = false ∧ (h = hDead ∨ h = hRequeue)
  | .compact x => x = s ∧ h = hTrim

theorem covers_own (hroute : sukkalRoute method req.path = some h) (hstar : h.Starred)
    (hs : subjectAt req h.pre = .ok s) {a : Access} (ha : h.Own s a) {o : Opening}
    (ho : o ∈ a.openings) : Covers (hostPlan method req.path) o := by
  have hplan := planSubject_of_route hroute hstar hs
  cases a with
  | get x c =>
    obtain rfl := List.mem_singleton.mp ho
    rw [covers_live_iff hroute hstar hplan]
    rcases ha with ⟨hx, hc⟩ | ⟨hx, rfl, hd⟩
    · exact .inl ⟨hx, fun h => .inl (hc h)⟩
    · exact .inr ⟨hx, by tauto, nofun⟩
  | compact x =>
    obtain ⟨rfl, rfl⟩ := ha
    simp only [Access.openings, List.mem_cons, List.not_mem_nil, or_false] at ho
    rcases ho with rfl | rfl
    · exact covers_tmp hroute hplan
    · rw [covers_live_iff hroute hstar hplan]
      exact .inl ⟨rfl, nofun⟩

variable (H : Host) (b : App) (now : ℕ) (req : Request)

/-- The logs of other subjects that a handler asks for, and how. -/
def Reaches (x : Bytes) (c : Bool) : Handler → Prop
  | hTake => c = true ∧ ∃ s g t, queueTarget req (ascii "/take/") = .ok (s, g) ∧
      b.store.bjmTake H.vendor now s g (toInt32 (req.queryU64 (ascii "max") 1))
        (req.queryU64 (ascii "lease") UINT64_MAX) = .ok t ∧ deadSubjectOf s = some x ∧
      ∃ d ∈ t.dead, ((b.store.logOf s).get d.1).isSome = true
  | hRequeue => c = true ∧ ∃ s e, subjectAt req (ascii "/requeue/") = .ok s ∧
      req.queryU64 (ascii "index") 0 ≠ 0 ∧
      b.store.deadEnvelope H s (req.queryU64 (ascii "index") 0) = .ok (x, e)
  | hPushPut => c = false ∧ req.startsLast = true ∧ ∃ r, registration req = .ok r ∧
      r.cfg.group = [] ∧ b.store.bjmPushGet r.consumer = .ok none ∧ x ∈ b.seeded r ∧
      b.store.bjmCursorGet x r.consumer = .ok none
  | _ => False

variable {H b now req} {x : Bytes} {c : Bool} {a : Access}

theorem mem_queueLoadGets {st : Store} {s g : Bytes} (ha : a ∈ st.queueLoadGets s g) :
    a = .get s false := by
  simp only [queueLoadGets] at ha
  split at ha
  · contradiction
  · split at ha
    · contradiction
    · exact List.mem_singleton.mp ha

theorem mem_deadLettersGets {st : Store} {s : Bytes} {ds : List (ℕ × ℕ)} :
    a ∈ st.deadLettersGets s ds ↔ ∃ dead, deadSubjectOf s = some dead ∧ ∃ d ∈ ds,
      a = .get s false ∨ a = .get dead true ∧
        ∃ log, st.subjectGet s false = .ok log ∧ (log.get d.1).isSome = true := by
  simp only [deadLettersGets]
  cases hdead : deadSubjectOf s with
  | none => simp
  | some dead =>
    simp only [List.mem_flatMap, deadLetterGets, List.mem_cons, Option.some.injEq, exists_eq_left']
    refine exists_congr fun d => and_congr_right fun _ => or_congr_right ?_
    cases hget : st.subjectGet s false with
    | error e => simp
    | ok log => cases hat : log.get d.1 <;> simp [hat]

theorem mem_bjmTakeGets {V : Vendor} {st : Store} {s g : Bytes} {max : ℤ} {lease : ℕ} :
    a ∈ st.bjmTakeGets V now s g max lease → a = .get s false ∨ ∃ t dead,
      st.bjmTake V now s g max lease = .ok t ∧ deadSubjectOf s = some dead ∧
      a = .get dead true ∧ ∃ d ∈ t.dead, ((st.logOf s).get d.1).isSome = true := by
  simp only [bjmTakeGets, List.mem_cons]
  rintro (ha | ha)
  · exact .inl ha
  · cases hget : st.subjectGet s false with
    | error e => simp [hget] at ha
    | ok log =>
      obtain ⟨-, -, rfl⟩ := subjectGet_logOf hget
      simp only [hget, List.mem_append] at ha
      rcases ha with ha | ha
      · exact .inl (mem_queueLoadGets ha)
      · cases htake : st.bjmTake V now s g max lease with
        | error e => simp [htake] at ha
        | ok t =>
          simp only [htake] at ha
          obtain ⟨dead, hdead, d, hd, ha | ⟨ha, log, hlog, hat⟩⟩ := mem_deadLettersGets.mp ha
          · exact .inl ha
          · rw [hget] at hlog
            obtain rfl := Except.ok.inj hlog
            exact .inr ⟨t, dead, rfl, hdead, ha, d, hd, hat⟩

theorem cursorGet_seedOne {st : Store} {consumer name x : Bytes} (atEnd : Bool) (start : ℕ)
    (hne : name ≠ x) : (st.seedOne consumer atEnd start name).bjmCursorGet x consumer =
      st.bjmCursorGet x consumer := by
  by_cases hget : st.bjmCursorGet name consumer = .ok none
  · refine bjmCursorGet_congr ?_
    rw [seedOne_of_none hget, getElem?_insert, if_neg]
    exact fun hkey => hne (List.append_cancel_right hkey)
  · rw [seedOne_of_found hget]

theorem mem_seedGets {consumer : Bytes} {atEnd : Bool} {start : ℕ} {names : List Bytes}
    {st : Store} : a ∈ seedGets consumer atEnd start names st ↔ ∃ x ∈ names, a = .get x false ∧
      atEnd = true ∧ st.bjmCursorGet x consumer = .ok none := by
  induction names generalizing st with
  | nil => simp [seedGets]
  | cons name names ih =>
    have hone : a ∈ st.seedOneGets consumer atEnd name ↔ a = .get name false ∧ atEnd = true ∧
        st.bjmCursorGet name consumer = .ok none := by
      simp only [seedOneGets]
      split
      · rename_i hget
        cases atEnd <;> simp [hget]
      · rename_i hget
        simpa using fun _ _ => hget
    simp only [seedGets, List.mem_append, hone, ih]
    constructor
    · rintro (⟨ha, hend, hget⟩ | ⟨x, hx, ha, hend, hget⟩)
      · exact ⟨name, List.mem_cons_self, ha, hend, hget⟩
      · exact ⟨x, List.mem_cons_of_mem _ hx, ha, hend,
          (Seeded.seedOne atEnd start name).get_none hget⟩
    · rintro ⟨x, hx, ha, hend, hget⟩
      by_cases hne : name = x
      · subst hne
        exact .inl ⟨ha, hend, hget⟩
      · have hrest := (List.mem_cons.mp hx).resolve_left (Ne.symm hne)
        exact .inr ⟨x, hrest, ha, hend, (cursorGet_seedOne atEnd start hne).trans hget⟩

theorem mem_subjectGets {pre : Bytes} (ha : a ∈ subjectGets req pre) :
    ∃ s, subjectAt req pre = .ok s ∧ a = .get s false := by
  simp only [subjectGets] at ha
  cases hs : subjectAt req pre with
  | error e => simp [hs] at ha
  | ok s =>
    simp only [hs, List.mem_singleton] at ha
    exact ⟨s, rfl, ha⟩

theorem subjectAt_of_queueTarget {pre s g : Bytes} (h : queueTarget req pre = .ok (s, g)) :
    subjectAt req pre = .ok s := by
  simp only [queueTarget] at h
  split at h
  · contradiction
  · rename_i hs
    split at h
    · contradiction
    · contradiction
    · obtain ⟨rfl, -⟩ := Prod.mk.inj (Except.ok.inj h)
      exact hs

theorem mem_trimGets (ha : a ∈ b.hTrimGets req) :
    ∃ s, subjectAt req (ascii "/trim/") = .ok s ∧ hTrim.Own s a := by
  simp only [App.hTrimGets] at ha
  cases hs : subjectAt req (ascii "/trim/") with
  | error e => simp [hs] at ha
  | ok s =>
    have hget : hTrim.Own s (.get s false) := .inl ⟨rfl, nofun⟩
    refine ⟨s, rfl, ?_⟩
    simp only [hs, List.mem_cons] at ha
    rcases ha with rfl | ha
    · exact hget
    split at ha
    · contradiction
    rcases List.mem_append.mp ha with ha | ha
    · simp only [bjmTrimGets] at ha
      split at ha
      · contradiction
      rcases List.mem_cons.mp ha with rfl | ha
      · exact hget
      split at ha
      · contradiction
      · split at ha
        · contradiction
        · obtain rfl := List.mem_singleton.mp ha
          exact ⟨rfl, rfl⟩
    · split at ha
      · contradiction
      · obtain rfl := List.mem_singleton.mp ha
        exact hget

theorem mem_requeueGets (ha : a ∈ b.hRequeueGets H req) :
    (∃ s, subjectAt req (ascii "/requeue/") = .ok s ∧ hRequeue.Own s a) ∨
      ∃ x c, a = .get x c ∧ hRequeue.Reaches H b now req x c := by
  simp only [App.hRequeueGets] at ha
  cases hs : subjectAt req (ascii "/requeue/") with
  | error e => simp [hs] at ha
  | ok s =>
    simp only [hs] at ha
    split at ha
    · contradiction
    rename_i hasks
    rw [not_or] at hasks
    split at ha
    · contradiction
    rename_i dead hdead
    rcases List.mem_cons.mp ha with rfl | ha
    · refine .inl ⟨s, rfl, .inr ⟨?_, rfl, .inr rfl⟩⟩
      exact App.deadSubjectOf_eq hdead
    · split at ha
      · contradiction
      · rename_i origin e henv
        obtain rfl := List.mem_singleton.mp ha
        exact .inr ⟨origin, true, rfl, rfl, s, e, hs, hasks.1, henv⟩

/-- A handler asks for its own subject's logs, or for those it reaches. -/
theorem gets_cases (ha : a ∈ h.gets H b now req) :
    (h.Starred ∧ ∃ s, subjectAt req h.pre = .ok s ∧ h.Own s a) ∨
      ∃ x c, a = .get x c ∧ h.Reaches H b now req x c := by
  have hown : ∀ {h : Handler} {s : Bytes}, h.Own s (.get s false) := .inl ⟨rfl, nofun⟩
  have hplain : ∀ {h : Handler}, h.Starred → a ∈ subjectGets req h.pre →
      h.Starred ∧ ∃ s, subjectAt req h.pre = .ok s ∧ h.Own s a := by
    intro h hstar ha
    obtain ⟨s, hs, rfl⟩ := mem_subjectGets ha
    exact ⟨hstar, s, hs, hown⟩
  have hend : ∀ (done : Bool) {h : Handler}, h.Starred →
      h.pre = (if done then ascii "/done/" else ascii "/fail/") → a ∈ b.hJobEndGets req done →
        h.Starred ∧ ∃ s, subjectAt req h.pre = .ok s ∧ h.Own s a := by
    intro done h hstar hpre ha
    simp only [App.hJobEndGets] at ha
    split at ha
    · contradiction
    · rename_i s g hq
      split at ha
      · contradiction
      · obtain rfl := mem_queueLoadGets ha
        exact ⟨hstar, s, hpre ▸ subjectAt_of_queueTarget hq, hown⟩
  cases h with
  | hPublish =>
    simp only [gets] at ha
    split at ha
    · contradiction
    rename_i p hp
    have hs : subjectAt req (ascii "/pub/") = .ok p.subject := by
      rw [subjectAt, publication_subject hp]
    have hmine : a = .get p.subject true := by
      simp only [publishOnceGets] at ha
      split at ha
      · exact List.mem_singleton.mp ha
      · split at ha
        · exact List.mem_singleton.mp ha
        · contradiction
    exact .inl ⟨by decide, p.subject, hs, hmine ▸ .inl ⟨rfl, fun _ => rfl⟩⟩
  | hPushPut =>
    simp only [gets, App.hPushPutGets] at ha
    split at ha
    · contradiction
    rename_i r hr
    split at ha
    · rename_i hget
      split at ha
      · rename_i hgroup
        obtain ⟨x, hx, rfl, hend, hnone⟩ := mem_seedGets.mp ha
        exact .inr ⟨x, false, rfl, rfl, hend, r, hr, hgroup, hget, hx, hnone⟩
      · contradiction
    · contradiction
  | hSubscribe | hConsumers | hInfo => exact .inl (hplain (by decide) ha)
  | hTrim =>
    obtain ⟨s, hs, ha⟩ := mem_trimGets ha
    exact .inl ⟨by decide, s, hs, ha⟩
  | hTake =>
    simp only [gets, App.hTakeGets] at ha
    split at ha
    · contradiction
    rename_i s g hq
    rcases mem_bjmTakeGets ha with rfl | ⟨t, dead, htake, hdead, rfl, hd⟩
    · exact .inl ⟨by decide, s, subjectAt_of_queueTarget hq, hown⟩
    · exact .inr ⟨dead, true, rfl, rfl, s, g, t, hq, htake, hdead, hd⟩
  | hDone => exact .inl (hend true (by decide) (by decide) ha)
  | hFail => exact .inl (hend false (by decide) (by decide) ha)
  | hDead =>
    simp only [gets, App.hDeadGets] at ha
    split at ha
    · contradiction
    rename_i s hs
    split at ha
    · contradiction
    · obtain rfl := List.mem_singleton.mp ha
      exact .inl ⟨by decide, s, hs, .inr ⟨rfl, rfl, .inl rfl⟩⟩
  | hRequeue =>
    rcases mem_requeueGets ha with ⟨s, hs, ha⟩ | hreach
    · exact .inl ⟨by decide, s, hs, ha⟩
    · exact .inr hreach
  | hQueues => exact .inl (hplain (by decide) ha)
  | hQueueConfig =>
    simp only [gets, App.hQueueConfigGets] at ha
    split at ha
    · contradiction
    rename_i s g hq
    rcases List.mem_append.mp ha with ha | ha
    · obtain rfl := mem_queueLoadGets ha
      exact .inl ⟨by decide, s, subjectAt_of_queueTarget hq, hown⟩
    · split at ha
      · contradiction
      · exact .inl (hplain (by decide) ha)
  | hPushDelete | hPushList | hAck | hQueueDelete | hUnsubscribe | hPolicyGet | hPolicyPut
  | hPolicyDelete | hPolicies | hSubjects | hHealth => contradiction

theorem channel_of_envelope {st : Store} {s origin : Bytes} {index : ℕ} {e : Entry}
    (h : st.deadEnvelope H s index = .ok (origin, e)) : ∃ dead log, deadSubjectOf s = some dead ∧
      BJM_DEAD_SUFFIX.isSuffixOf s = false ∧ st.subjectGet dead false = .ok log := by
  simp only [deadEnvelope] at h
  split at h
  · contradiction
  rename_i dead hdead
  split at h
  · contradiction
  rename_i log hget
  refine ⟨dead, log, hdead, ?_, hget⟩
  simp only [deadSubjectOf] at hdead
  split at hdead
  · contradiction
  · rename_i hsuffix
    rw [Bool.eq_false_iff, ne_eq, List.isSuffixOf_iff_suffix]
    exact hsuffix

theorem requeueGets_of_envelope {s dead : Bytes} {e : Entry}
    (hs : subjectAt req (ascii "/requeue/") = .ok s) (hindex : req.queryU64 (ascii "index") 0 ≠ 0)
    (henv : b.store.deadEnvelope H s (req.queryU64 (ascii "index") 0) = .ok (x, e))
    (hdead : deadSubjectOf s = some dead) :
    hRequeue.gets H b now req = [.get dead false, .get x true] := by
  obtain ⟨-, -, -, hsuffix, -⟩ := channel_of_envelope henv
  simp only [gets, App.hRequeueGets, hs, hindex, hsuffix, hdead, henv, Bool.false_eq_true, or_self,
    if_false]

theorem reaches_mem (hr : h.Reaches H b now req x c) : .get x c ∈ h.gets H b now req := by
  cases h with
  | hTake =>
    obtain ⟨rfl, s, g, t, hq, htake, hdead, hd⟩ := hr
    obtain ⟨log, -, -, -, hget, -⟩ := bjmTake_eq htake
    obtain ⟨-, -, rfl⟩ := subjectGet_logOf hget
    simp only [gets, App.hTakeGets, hq, bjmTakeGets, hget, htake, List.mem_cons, List.mem_append]
    obtain ⟨d, hd, hat⟩ := hd
    exact .inr (.inr (mem_deadLettersGets.mpr ⟨x, hdead, d, hd, .inr ⟨rfl, _, hget, hat⟩⟩))
  | hRequeue =>
    obtain ⟨rfl, s, e, hs, hindex, henv⟩ := hr
    obtain ⟨dead, -, hdead, -⟩ := channel_of_envelope henv
    rw [requeueGets_of_envelope hs hindex henv hdead]
    simp
  | hPushPut =>
    obtain ⟨rfl, hend, r, hreg, hgroup, hget, hx, hnone⟩ := hr
    simp only [gets, App.hPushPutGets, hreg, hget, hgroup, if_true]
    exact mem_seedGets.mpr ⟨x, hx, rfl, hend, hnone⟩
  | _ => exact hr.elim

theorem reaches_kind (hr : h.Reaches H b now req x c) :
    (h = hTake ∨ h = hRequeue) ∧ c = true ∨ h = hPushPut ∧ c = false := by
  cases h with
  | hTake => exact .inl ⟨.inl rfl, hr.1⟩
  | hRequeue => exact .inl ⟨.inr rfl, hr.1⟩
  | hPushPut => exact .inr ⟨rfl, hr.1⟩
  | _ => exact hr.elim

theorem reaches_starred (hr : h.Reaches H b now req x c) : h.Starred := by
  rcases reaches_kind hr with ⟨rfl | rfl, -⟩ | ⟨rfl, -⟩ <;> decide

variable (H b now req) in
/-- Of the logs a handler reaches, one is not open yet, and is not of the path's subject;
nor is it the dead-letter channel that a requeue has read. -/
def Escapes (held : List Bytes) (h : Handler) : Prop :=
  ∃ x c, h.Reaches H b now req x c ∧ x ∉ held ∧ fileFits x = true ∧ planSubject req.path ≠ some x ∧
    (h = hRequeue → ∀ s, subjectAt req (ascii "/requeue/") = .ok s → deadSubjectOf s ≠ some x)

variable {held : List Bytes}

/-- A log that escapes the plan is opened, and not covered. -/
theorem escapes_uncovered (hroute : sukkalRoute method req.path = some h)
    (he : h.Escapes H b now req held) :
    ∃ o ∈ h.opened H b now held req, ¬ Covers (hostPlan method req.path) o := by
  obtain ⟨x, c, hr, hx, hfits, hplan, hdead⟩ := he
  have hstar := reaches_starred hr
  have hkind := reaches_kind hr
  refine ⟨⟨liveName x, c⟩, opened_of_get (reaches_mem hr) hx hfits fun a ha hsub => ?_, fun hcov => ?_⟩
  · rcases gets_cases ha with ⟨-, s, hs, hown⟩ | ⟨x', c', rfl, hr'⟩
    · have hself := planSubject_of_route hroute hstar hs
      cases a with
      | get y c' =>
        obtain rfl : y = x := hsub
        rcases hown with ⟨rfl, -⟩ | ⟨hy, -, rfl | rfl⟩
        · exact absurd hself hplan
        · exact hr.elim
        · obtain ⟨-, s', e, hs', -, henv⟩ := hr
          obtain rfl : s = s' := Except.ok.inj (hs.symm.trans hs')
          obtain ⟨dead, -, hd, -⟩ := channel_of_envelope henv
          exact absurd (hd.trans (by rw [App.deadSubjectOf_eq hd, hy])) (hdead rfl s hs)
      | compact y =>
        obtain rfl : y = x := hsub
        exact absurd (hown.1 ▸ hself) hplan
    · obtain rfl : x' = x := hsub
      rcases hkind with ⟨h₁, rfl⟩ | ⟨h₁, rfl⟩ <;> rcases reaches_kind hr' with ⟨h₂, rfl⟩ | ⟨h₂, rfl⟩
      · rfl
      · simp [h₂] at h₁
      · simp [h₁] at h₂
      · rfl
  · cases hs : planSubject req.path with
    | none => exact not_covers_live hs hcov
    | some s =>
      rcases (covers_live_iff hroute hstar hs).mp hcov with ⟨rfl, -⟩ | ⟨-, hd, hc⟩
      · exact hplan hs
      · rcases hkind with ⟨rfl | rfl, rfl⟩ | ⟨rfl, -⟩ <;> simp at hd hc

theorem opens_again {st : Store} {s : Bytes} {c : Bool} {log : Elog}
    (hget : st.subjectGet s false = .ok log) {o : Opening}
    (ho : o ∈ (st.opens held [.get s false, .get s c]).opened) : o = ⟨liveName s, false⟩ := by
  have hlog : st.logs.contains s = true := by
    simp only [subjectGet] at hget
    split at hget
    · contradiction
    · split at hget
      · rename_i hsome
        rw [ExtTreeMap.contains_eq_isSome_getElem?, hsome]
        rfl
      · contradiction
  by_cases hheld : s ∈ held
  · simp [opens, access, hheld] at ho
  · by_cases hfits : fileFits s = true
    · simpa [opens, access, hheld, hfits, hlog] using ho
    · simp [opens, access, hheld, hfits] at ho

/-- A log that is reached, is opened, and does not escape is covered. -/
theorem reached_covered (hroute : sukkalRoute method req.path = some h)
    (he : ¬ h.Escapes H b now req held) (hr : h.Reaches H b now req x c) (hx : x ∉ held)
    (hfits : fileFits x = true)
    (ho : ⟨liveName x, c⟩ ∈ h.opened H b now held req) :
    Covers (hostPlan method req.path) ⟨liveName x, c⟩ := by
  have hstar := reaches_starred hr
  by_cases hself : planSubject req.path = some x
  · refine (covers_live_iff hroute hstar hself).mpr (.inl ⟨rfl, ?_⟩)
    rintro rfl
    rcases reaches_kind hr with ⟨rfl | rfl, -⟩ | ⟨-, hc⟩
    · obtain ⟨-, s, g, t, hq, -, hdead, -⟩ := hr
      have hs := planSubject_of_route hroute hstar (subjectAt_of_queueTarget hq)
      obtain rfl : s = x := Option.some.inj (hs.symm.trans hself)
      exact absurd rfl (deadSubjectOf_ne hdead)
    · exact .inr rfl
    · contradiction
  · have hagain : h = hRequeue ∧ ∃ s, subjectAt req (ascii "/requeue/") = .ok s ∧
        deadSubjectOf s = some x := by
      by_contra hnot
      refine he ⟨x, c, hr, hx, hfits, hself, fun h s hs hd => hnot ⟨h, s, hs, hd⟩⟩
    obtain ⟨rfl, s, hs, hdead⟩ := hagain
    obtain ⟨rfl, s', e, hs', hindex, henv⟩ := hr
    obtain rfl : s' = s := Except.ok.inj (hs'.symm.trans hs)
    obtain ⟨dead, log, hd, -, hget⟩ := channel_of_envelope henv
    obtain rfl : dead = x := Option.some.inj (hd.symm.trans hdead)
    rw [opened, requeueGets_of_envelope hs hindex henv hd] at ho
    have hread := congrArg Opening.create (opens_again hget ho)
    contradiction

end Handler

/-- The plan has the store's own files, and covers the logs a request opens exactly unless
its handler reaches another log than the path's, which is not open: for a take, by burying
a job. -/
theorem plan_covers_iff (H : Host) (b : App) (now : ℕ) (held : List Bytes) {method : Bytes}
    {req : Request} {h : Handler} (hroute : sukkalRoute method req.path = some h) :
    (∀ f ∈ SHARED_FILES, Covers (hostPlan method req.path) ⟨f, true⟩) ∧
      ((∀ o ∈ h.opened H b now held req, Covers (hostPlan method req.path) o) ↔
        ¬ h.Escapes H b now req held) := by
  refine ⟨fun f hf => ⟨⟨f, true⟩, ?_, rfl, id⟩, ?_, ?_⟩
  · rw [hostPlan_eq, planned]
    exact List.mem_append_left _ (List.mem_map.mpr ⟨f, hf, rfl⟩)
  · intro hall he
    obtain ⟨o, ho, hnot⟩ := Handler.escapes_uncovered hroute he
    exact hnot (hall o ho)
  · intro he o ho
    obtain ⟨a, ha, hmem, hnew⟩ := mem_opens ho
    rcases Handler.gets_cases ha with ⟨hstar, s, hs, hown⟩ | ⟨x, c, rfl, hr⟩
    · exact Handler.covers_own hroute hstar hs hown hmem
    · obtain rfl := List.mem_singleton.mp hmem
      obtain ⟨hx, hfits⟩ := hnew x c rfl
      exact Handler.reached_covered hroute he hr hx hfits ho

/-- An order is published, and given to a worker that may try it once. -/
def triedOnce : List ServeOp :=
  [.request 1 POST (order none),
    .request 2 PUT (.plain (ascii "/queue/orders")
      [(ascii "group", ascii "workers"), (ascii "max_attempts", ascii "1")]),
    .request 3 POST (.plain (ascii "/take/orders") [(ascii "group", ascii "workers")])]

/-- The next take buries the order, in a log its plan does not have. -/
def takeAgain : Request := .plain (ascii "/take/orders") [(ascii "group", ascii "workers")]

theorem takeAgain_uncovered : ¬ ∀ o ∈ Handler.hTake.opened (plainHost wholeBodies)
      (run (App.serve (plainHost wholeBodies)) (App.start .empty [] 0) triedOnce).2 90000
      [ascii "orders"] takeAgain,
    Covers (hostPlan POST takeAgain.path) o := by
  have hroute : sukkalRoute POST takeAgain.path = some .hTake := by decide +kernel
  rw [(plan_covers_iff _ _ _ _ hroute).2, not_not]
  have htake : ((run (App.serve (plainHost wholeBodies)) (App.start .empty [] 0)
      triedOnce).2.store.bjmTake wholeBodies 90000 (ascii "orders") (ascii "workers")
      (toInt32 (takeAgain.queryU64 (ascii "max") 1))
      (takeAgain.queryU64 (ascii "lease") UINT64_MAX)).toOption.map Taken.dead = some [(1, 1)] := by
    decide +kernel
  obtain ⟨t, ht, hdead⟩ := Option.map_eq_some_iff.mp htake
  have hok : ∀ {r : Except BjErr Taken}, r.toOption = some t → r = .ok t := by
    rintro (e | t') h
    · contradiction
    · exact congrArg Except.ok (Option.some.inj h)
  refine ⟨ascii "orders.dead", true, ⟨rfl, ascii "orders", ascii "workers", t, ?_, ?_, ?_, ?_⟩,
    ?_, ?_, ?_, nofun⟩
  · rfl
  · exact hok ht
  · decide
  · rw [hdead]
    exact ⟨(1, 1), List.mem_singleton_self _, by decide +kernel⟩
  · decide
  · decide
  · decide

end SukkalMsg
