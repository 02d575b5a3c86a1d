import SukkalMsg.AcceptedBodies
import SukkalMsg.QueryStrings

/-!
# What a registration puts into a delivery's headers

A callback, a consumer and a group are checked before they are kept, and a token too,
if it fits its buffer. One that does not fit is kept as far as it goes, and goes into
the headers unchecked.
-/

namespace SukkalMsg

open Names

variable {b : App} {req : Request} {q : Bytes} {r : Registration}

/-- Text that stays on its line: no control byte, and nothing beyond ASCII. -/
def OneLine (text : Bytes) : Prop := ∀ c ∈ text, 0x20 ≤ c ∧ c < 0x7F

instance (text : Bytes) : Decidable (OneLine text) :=
  List.decidableBAll (fun c => 0x20 ≤ c ∧ c < 0x7F) text

/-- What a registration may be kept as, for the request it came in. -/
structure Registration.Guarded (req : Request) (r : Registration) : Prop where
  callback : bjmCallbackValid r.cfg.callback = true
  token : bjmTokenValid r.cfg.token = true
  carried : r.cfg.token = [] ∨ req.query (ascii "token") = some r.cfg.token
  lines : ∀ (s : Psub) (count : ℕ), s.consumer = r.consumer → s.cfg = r.cfg →
    bjmSubjectValid s.subject = true →
      OneLine (s.prepared count).url ∧ ∀ line ∈ (s.prepared count).hdrs, OneLine line

/-- The registration is in the registry, and the engine has it. -/
structure App.Keeps (b : App) (r : Registration) : Prop where
  stored : b.store.push[r.consumer]? = some (pushRecord r.cfg)
  given : ∃ s ∈ b.push.subs, s.gone = false ∧ s.consumer = r.consumer ∧ s.cfg = r.cfg

/-- The token of a query is one the broker keeps as it is, or as none. -/
def TokenCarried (q : Bytes) : Prop :=
  ∀ v, queryParameter q (ascii "token") = some v →
    cString v = [] ∨ (v.length ≤ BJM_TOKEN_MAX ∧ 0 ∉ v)

/-! ### Lines -/

theorem OneLine.append {x y : Bytes} (hx : OneLine x) (hy : OneLine y) : OneLine (x ++ y) := by
  intro c hc
  rcases List.mem_append.mp hc with h | h
  · exact hx c h
  · exact hy c h

theorem oneLine_of_printable {text : Bytes} (h : printable text = true) : OneLine text := by
  intro c hc
  have hp := List.all_eq_true.mp h c hc
  simp only [Bool.and_eq_true, decide_eq_true_eq] at hp
  refine ⟨?_, hp.2⟩
  have hlt := UInt8.lt_iff_toNat_lt.mp hp.1
  exact UInt8.le_iff_toNat_le.mpr (Nat.le_of_lt hlt)

theorem nameChar_onLine (c : UInt8) : (nameChar c || c == dot) = true → 0x20 ≤ c ∧ c < 0x7F := by
  refine forall_byte (p := fun c => (nameChar c || c == dot) = true → 0x20 ≤ c ∧ c < 0x7F) ?_ c
  decide +kernel

theorem digit_onLine (c : UInt8) : isDigit c = true → 0x20 ≤ c ∧ c < 0x7F := by
  refine forall_byte (p := fun c => isDigit c = true → 0x20 ≤ c ∧ c < 0x7F) ?_ c
  decide +kernel

theorem oneLine_of_nameValid {text : Bytes} {max : ℕ} (h : nameValid text max = true) :
    OneLine text :=
  fun c hc => nameChar_onLine c (mem_of_nameBody (nameValid_body h) c hc)

theorem oneLine_decimalText (n : ℕ) : OneLine (decimalText n) :=
  fun c hc => digit_onLine c (isDigit_of_mem_decimalText hc)

theorem mem_of_mem_cut {cap : ℕ} {line : Bytes} {c : UInt8} (h : c ∈ cut cap line) : c ∈ line := by
  rw [cut] at h
  exact List.mem_of_mem_take h

theorem hdrAdd_cases (hdrs : List Bytes) (line : Bytes) :
    Psub.hdrAdd hdrs line = hdrs ∨ Psub.hdrAdd hdrs line =
      hdrs ++ [cut (BJM_CALLBACK_MAX + 128) line] := by
  unfold Psub.hdrAdd
  -- the size of the buffer plays no part
  generalize BJM_CALLBACK_MAX + 128 = cap
  dsimp only
  split
  · exact .inl rfl
  · exact .inr rfl

theorem oneLine_hdrAdd {lines hdrs : List Bytes} (hh : ∀ line ∈ hdrs, OneLine line)
    (hl : ∀ line ∈ lines, OneLine line) : ∀ line ∈ lines.foldl Psub.hdrAdd hdrs, OneLine line := by
  induction lines generalizing hdrs with
  | nil => exact hh
  | cons line lines ih =>
    rw [List.foldl_cons]
    apply ih
    · intro l hmem
      rcases hdrAdd_cases hdrs line with heq | heq
      · exact hh l (heq ▸ hmem)
      · rw [heq, List.mem_append, List.mem_singleton] at hmem
        rcases hmem with hold | hnew
        · exact hh l hold
        · rw [hnew]
          exact fun c hc => hl line List.mem_cons_self c (mem_of_mem_cut hc)
    · exact fun l hmem => hl l (List.mem_cons_of_mem _ hmem)

theorem oneLine_hdrs {s : Psub} (count : ℕ) (hs : OneLine s.subject) (hc : OneLine s.consumer)
    (hg : OneLine s.cfg.group) (ht : OneLine s.cfg.token) :
    ∀ line ∈ (s.prepared count).hdrs, OneLine line := by
  have hfixed : OneLine (ascii "Content-Type: " ++ SUKKAL_MEDIA_TYPE) ∧
      OneLine (ascii "X-Sukkal-Subject: ") ∧ OneLine (ascii "X-Sukkal-Consumer: ") ∧
      OneLine (ascii "X-Sukkal-Count: ") ∧ OneLine (ascii "X-Sukkal-First-Index: ") ∧
      OneLine (ascii "X-Sukkal-Last-Index: ") ∧ OneLine (ascii "X-Sukkal-Group: ") ∧
      OneLine (ascii "X-Sukkal-Lag: ") ∧ OneLine (ascii "Authorization: Bearer ") ∧
      OneLine (ascii "Expect:") := by decide +kernel
  obtain ⟨h1, h2, h3, h4, h5, h6, h7, h8, h9, h10⟩ := hfixed
  have hdef : (s.prepared count).hdrs = (s.hdrLines count).foldl Psub.hdrAdd [] := by
    simp only [Psub.prepared]
  rw [hdef]
  refine oneLine_hdrAdd (fun _ h => absurd h List.not_mem_nil) fun line hline => ?_
  simp only [Psub.hdrLines, List.mem_append, List.mem_cons, List.not_mem_nil, or_false] at hline
  rcases hline with ((rfl | rfl | rfl | rfl | rfl | rfl | rfl) | hauth) | rfl
  · exact h1
  · exact h2.append hs
  · exact h3.append hc
  · exact h4.append (oneLine_decimalText _)
  · exact h5.append (oneLine_decimalText _)
  · exact h6.append (oneLine_decimalText _)
  · split
    · exact h7.append hg
    · exact h8.append (oneLine_decimalText _)
  · split at hauth
    · obtain rfl := List.mem_singleton.mp hauth
      exact h9.append ht
    · exact absurd hauth List.not_mem_nil
  · exact h10

/-! ### The checks of a registration -/

theorem callbackOf_valid {buf : Bytes} (h : callbackOf req = .ok buf) :
    bjmCallbackValid buf = true := by
  simp only [callbackOf] at h
  split at h
  · split at h
    · rename_i hv
      exact Except.ok.inj h ▸ hv
    · contradiction
  · contradiction

theorem queryName_valid {key : Bytes} {size : ℕ} {valid : Bytes → Bool} {msg : String}
    {found : Bytes} (h : req.queryName key size valid msg = .ok (some found)) :
    valid found = true := by
  simp only [Request.queryName] at h
  split at h
  · simp at h
  · contradiction
  · split at h
    · rename_i hv
      exact Option.some.inj (Except.ok.inj h) ▸ hv
    · contradiction

/-- What every registration that passes has passed. -/
structure Registration.Checked (req : Request) (r : Registration) : Prop where
  consumer : bjmConsumerValid r.consumer = true
  callback : bjmCallbackValid r.cfg.callback = true
  token : tokenOf req = .ok r.cfg.token
  group : r.cfg.group = [] ∨ bjmGroupValid r.cfg.group = true

theorem registration_checked (h : registration req = .ok r) : r.Checked req := by
  simp only [registration] at h
  split at h
  · contradiction
  split at h
  · contradiction
  · contradiction
  rename_i consumer hconsumer
  split at h
  · contradiction
  rename_i callback hcallback
  split at h
  · contradiction
  rename_i token htoken
  split at h
  · contradiction
  rename_i group hgroup
  obtain rfl := Except.ok.inj h
  refine ⟨queryName_valid hconsumer, callbackOf_valid hcallback, htoken, ?_⟩
  cases group with
  | none => exact .inl rfl
  | some g => exact .inr (queryName_valid hgroup)

theorem queryName_refused {key : Bytes} {size : ℕ} {valid : Bytes → Bool} {msg : String}
    {a : Response} (h : req.queryName key size valid msg = .error a) : a.status = 400 := by
  simp only [Request.queryName] at h
  split at h
  · contradiction
  · exact Except.error.inj h ▸ rfl
  · split at h
    · contradiction
    · exact Except.error.inj h ▸ rfl

theorem patternOf_refused {pre : Bytes} {a : Response} (h : patternOf req pre = .error a) :
    a.status = 400 := by
  simp only [patternOf] at h
  generalize (if bjmPatternIs (req.path.drop pre.length) then _ else _ : Bool) = valid at h
  cases valid with
  | false => exact Except.error.inj h ▸ rfl
  | true => contradiction

/-- A registration that does not pass is answered 400. -/
theorem registration_refused {a : Response} (h : registration req = .error a) :
    a.status = 400 := by
  simp only [registration] at h
  split at h
  · rename_i hp
    exact Except.error.inj h ▸ patternOf_refused hp
  split at h
  · rename_i hc
    exact Except.error.inj h ▸ queryName_refused hc
  · exact Except.error.inj h ▸ rfl
  split at h
  · rename_i hc
    obtain rfl := Except.error.inj h
    simp only [callbackOf] at hc
    split at hc
    · split at hc
      · contradiction
      · exact Except.error.inj hc ▸ rfl
    · exact Except.error.inj hc ▸ rfl
  split at h
  · rename_i ht
    obtain rfl := Except.error.inj h
    simp only [tokenOf] at ht
    split at ht
    · split at ht
      · contradiction
      · exact Except.error.inj ht ▸ rfl
    · contradiction
  split at h
  · rename_i hg
    exact Except.error.inj h ▸ queryName_refused hg
  · contradiction

theorem hPushPut_keeps (h : (b.hPushPut req).1.status = 200) :
    ∃ r, registration req = .ok r ∧ (b.hPushPut req).2.Keeps r := by
  simp only [App.hPushPut] at h ⊢
  cases hr : registration req with
  | error a =>
    simp only [hr, registration_refused hr] at h
    contradiction
  | ok r =>
    simp only [hr] at h ⊢
    cases hf : b.store.bjmPushGet r.consumer with
    | error e =>
      simp only [hf] at h
      exact absurd h (statusFor_ne_ok e)
    | ok found =>
      refine ⟨r, rfl, ?_, ?_⟩
      · simp only [App.register, Store.bjmPushSet]
        exact Std.ExtTreeMap.getElem?_insert_self
      · simp only [App.register]
        rcases Pusher.add_cases (if found.isNone then b.seedFor req r else b).push r.consumer r.cfg
          with ⟨pre, s, suf, -, hg, hc, heq⟩ | ⟨-, heq⟩
        · rw [heq]
          exact ⟨{ s with cfg := r.cfg }, by simp, hg, hc, rfl⟩
        · rw [heq]
          exact ⟨_, List.mem_append_right _ List.mem_cons_self, rfl, rfl, rfl⟩

theorem cString_of_notMem {v : Bytes} (h : 0 ∉ v) : cString v = v := by
  refine List.takeWhile_eq_self_iff.mpr fun c hc => ?_
  simp only [bne_iff_ne, ne_eq]
  exact fun hz => h (hz ▸ hc)

theorem notMem_cString (v : Bytes) : 0 ∉ cString v := by
  intro h
  have := List.mem_takeWhile_imp h
  simp at this

/-- The token is kept as none or as it came exactly when the query's is one to carry. -/
theorem token_carried_iff {token : Bytes} (hq : req.ReadsFrom q) (h : tokenOf req = .ok token) :
    (bjmTokenValid token = true ∧ (token = [] ∨ req.query (ascii "token") = some token)) ↔
      TokenCarried q := by
  have hquery := hq (ascii "token")
  simp only [tokenOf, Request.queryGet, Request.queryBuf, hquery] at h
  simp only [TokenCarried, hquery]
  cases hv : queryParameter q (ascii "token") with
  | none =>
    simp only [hv] at h
    obtain rfl := Except.ok.inj h
    simp [bjmTokenValid, printable]
  | some v =>
    simp only [hv] at h
    by_cases hlong : v.length + 1 > BJM_TOKEN_MAX + 1
    · -- the value does not fit, and nothing has been checked
      simp only [hlong, if_true] at h
      obtain rfl := Except.ok.inj h
      have hmax : ¬ v.length ≤ BJM_TOKEN_MAX := by omega
      have hlen : (cString (v.take (BJM_TOKEN_MAX + 1 - 1))).length ≤ BJM_TOKEN_MAX :=
        Nat.le_trans (List.takeWhile_prefix _).length_le (List.length_take_le _ _)
      have hempty : cString (v.take (BJM_TOKEN_MAX + 1 - 1)) = [] ↔ cString v = [] := by
        cases v with
        | nil => simp
        | cons c v => simp [cString, BJM_TOKEN_MAX, List.takeWhile_cons]
      constructor
      · rintro ⟨-, hnone | hsome⟩ w hw
        · obtain rfl := Option.some.inj hw
          exact .inl (hempty.mp hnone)
        · exact absurd (Option.some.inj hsome ▸ hlen) hmax
      · intro hc
        rcases hc v rfl with hnone | ⟨hfit, -⟩
        · rw [hempty.mpr hnone]
          exact ⟨rfl, .inl rfl⟩
        · exact absurd hfit hmax
    · simp only [hlong, if_false] at h
      split at h
      · rename_i hvalid
        obtain rfl := Except.ok.inj h
        constructor
        · rintro ⟨-, hnone | hsome⟩ w hw
          · obtain rfl := Option.some.inj hw
            exact .inl hnone
          · obtain rfl := Option.some.inj hw
            refine .inr ⟨by omega, ?_⟩
            have hwhole : v = cString v := Option.some.inj hsome
            rw [hwhole]
            exact notMem_cString v
        · intro hc
          refine ⟨hvalid, ?_⟩
          rcases hc v rfl with hnone | ⟨-, hzero⟩
          · exact .inl hnone
          · exact .inr (by rw [cString_of_notMem hzero])
      · contradiction

theorem Registration.Checked.guarded (h : r.Checked req) (ht : bjmTokenValid r.cfg.token = true)
    (hc : r.cfg.token = [] ∨ req.query (ascii "token") = some r.cfg.token) : r.Guarded req := by
  have hcallback : OneLine r.cfg.callback := by
    have hv := h.callback
    simp only [bjmCallbackValid, Bool.and_eq_true] at hv
    exact oneLine_of_printable hv.2
  have htoken : OneLine r.cfg.token := by
    simp only [bjmTokenValid, Bool.and_eq_true] at ht
    exact oneLine_of_printable ht.2
  have hgroup : OneLine r.cfg.group := by
    rcases h.group with hg | hg
    · rw [hg]
      exact fun c hc => absurd hc List.not_mem_nil
    · exact oneLine_of_nameValid hg
  refine ⟨h.callback, ht, hc, fun s count hs hcfg hsubject => ⟨?_, ?_⟩⟩
  · have hurl : (s.prepared count).url = s.cfg.callback := by simp only [Psub.prepared]
    rw [hurl, hcfg]
    exact hcallback
  · exact oneLine_hdrs count (oneLine_of_nameValid hsubject)
      (hs ▸ oneLine_of_nameValid h.consumer) (hcfg ▸ hgroup) (hcfg ▸ htoken)

/-- A registration answered 200 is kept with a checked callback and a checked token, none or the
one it carried, and every header line and URL built of it stays on its line, exactly when its
query's token is absent, empty up to its first zero byte, or fits without one. -/
theorem registered_guarded_iff (b : App) (req : Request) (q : Bytes) (hq : req.ReadsFrom q)
    (h200 : (b.hPushPut req).1.status = 200) :
    (∃ r, registration req = .ok r ∧ (b.hPushPut req).2.Keeps r ∧ r.Guarded req) ↔
      TokenCarried q := by
  obtain ⟨r, hr, hkeeps⟩ := hPushPut_keeps h200
  have hchecked := registration_checked hr
  have htoken := token_carried_iff hq hchecked.token
  constructor
  · rintro ⟨r', hr', -, hg⟩
    obtain rfl := Except.ok.inj (hr.symm.trans hr')
    exact htoken.mp ⟨hg.token, hg.carried⟩
  · intro hc
    obtain ⟨hvalid, hcarried⟩ := htoken.mpr hc
    exact ⟨r, hr, hkeeps, hchecked.guarded hvalid hcarried⟩

/-- A registration, from its raw query. -/
def pushPut (q : Bytes) : Request where
  path := ascii "/push/orders"
  contentType := none
  body := none
  query := queryParameter q

def emptyApp : App := ⟨Store.empty, Pusher.blank 0⟩

/-- `s3cret`, with one letter escaped. -/
def secretQuery : Bytes := ascii "consumer=billing&callback=http://h/in&token=s3c%72et"

theorem secretQuery_guarded :
    ∃ r, registration (pushPut secretQuery) = .ok r ∧
      (emptyApp.hPushPut (pushPut secretQuery)).2.Keeps r ∧ r.Guarded (pushPut secretQuery) := by
  refine (registered_guarded_iff emptyApp (pushPut secretQuery) secretQuery (fun _ => rfl)
    (by decide +kernel)).mpr fun v hv => ?_
  have hvalue : queryParameter secretQuery (ascii "token") = some (ascii "s3cret") := by
    decide +kernel
  obtain rfl := Option.some.inj (hvalue.symm.trans hv)
  exact .inr ⟨by decide, by decide⟩

/-- A token of more than 128 bytes that ends the line it is written on. -/
def smuggledQuery : Bytes :=
  ascii "consumer=billing&callback=http://h/in&token=x%0D%0AX-Sukkal-Group:%20all%0D%0A" ++
    List.replicate 128 0x61

def smuggledToken : Bytes :=
  ascii "x" ++ [0x0D, 0x0A] ++ ascii "X-Sukkal-Group: all" ++ [0x0D, 0x0A] ++
    List.replicate 104 0x61

/-- The token is kept cut, and its second line is a header of its own. -/
theorem smuggled_token_breaks_line :
    (emptyApp.hPushPut (pushPut smuggledQuery)).1.status = 200 ∧
      ((emptyApp.hPushPut (pushPut smuggledQuery)).2.push.subs.map fun s => s.cfg.token) =
        [smuggledToken] ∧
      bjmTokenValid smuggledToken = false ∧
      ((emptyApp.hPushPut (pushPut smuggledQuery)).2.push.subs.map fun s =>
          (s.prepared 1).hdrs.contains (ascii "Authorization: Bearer " ++ smuggledToken)) =
        [true] ∧
      ¬ OneLine (ascii "Authorization: Bearer " ++ smuggledToken) := by
  refine ⟨?_, ?_, ?_, ?_, ?_⟩ <;> decide +kernel

end SukkalMsg
