import TaterTOS.Lib.Text

/-!
# Cookies

A model of `ts_cookie_parse` and `ts_cookie_build` in `user/apps/ts_http.h`: the jar after any
headers from any hosts, and the `Cookie` header for any URL. Saving the jar to disk is left out.

* `jarAfter_source`: every cookie of the jar is the cookie of some header;
* `cookies_scoped`: where cookies go.
-/

namespace TaterTOS.Http

open Lib Text List

/-! ### Parsing -/

structure Cookie where
  name : Text
  value : Text
  domain : Text
  path : Text
  secure : Bool
  deriving DecidableEq, Repr

abbrev Jar := List Cookie

def maxCookies : ℕ := 64
def cookieNameMax : ℕ := 64
def cookieValueMax : ℕ := 256
def cookieDomainMax : ℕ := 128
def cookiePathMax : ℕ := 256

def semicolon : UInt8 := 59
def equals : UInt8 := 61
def space : UInt8 := 32
def dot : UInt8 := 46
def slash : UInt8 := 47

def fit (max : ℕ) (s : Text) : Text := s.take (max - 1)

inductive Attribute
  | domain (s : Text)
  | path (s : Text)
  | secure
  | other
  deriving DecidableEq, Repr

def Cookie.apply (c : Cookie) : Attribute → Cookie
  | .domain s => { c with domain := fit cookieDomainMax s }
  | .path s => { c with path := fit cookiePathMax s }
  | .secure => { c with secure := true }
  | .other => c

def untilSemicolon (p : Text) : Text := p.takeWhile (· != semicolon)
def fromSemicolon (p : Text) : Text := p.dropWhile (· != semicolon)

def oneAttribute (p : Text) : Attribute × Text :=
  if strncasecmp p (ofString "domain=") 7 then
    let p := p.drop 7
    let p := if p.head? = some dot then p.tail else p
    (.domain (untilSemicolon p), fromSemicolon p)
  else if strncasecmp p (ofString "path=") 5 then
    (.path (untilSemicolon (p.drop 5)), fromSemicolon (p.drop 5))
  else if strncasecmp p (ofString "secure") 6 then (.secure, p.drop 6)
  else (.other, fromSemicolon p)

def attributes : ℕ → Text → List Attribute
  | 0, _ => []
  | fuel + 1, p => match p with
    | [] => []
    | c :: p =>
      if c = semicolon then
        let r := oneAttribute (p.dropWhile (· == space))
        r.1 :: attributes fuel r.2
      else []

def attributesOf (value : Text) : List Attribute :=
  let rest := value.dropWhile fun c => c != equals && c != semicolon
  attributes value.length (fromSemicolon rest.tail)

def cookieOf (value host : Text) : Option Cookie :=
  let name := value.takeWhile fun c => c != equals && c != semicolon
  let rest := value.dropWhile fun c => c != equals && c != semicolon
  if rest.head? = some equals then
    some ((attributesOf value).foldl Cookie.apply
      ⟨fit cookieNameMax name, fit cookieValueMax (untilSemicolon rest.tail),
        fit cookieDomainMax host, [slash], false⟩)
  else none

def Cookie.same (c c' : Cookie) : Bool :=
  strncasecmp c'.name c.name cookieNameMax && strncasecmp c'.domain c.domain cookieDomainMax

def store (c : Cookie) (jar : Jar) : Jar :=
  if jar.any c.same then
    jar.set (jar.findIdx c.same) c
  else if jar.length < maxCookies then jar ++ [c] else jar

def tsCookieParse (jar : Jar) (value host : Text) : Jar :=
  match cookieOf value host with
  | none => jar
  | some c => store c jar

/-! ### Building -/

structure Url where
  scheme : Text
  host : Text
  path : Text
  deriving DecidableEq, Repr

def Cookie.goesTo (c : Cookie) (u : Url) : Bool :=
  endsWith u.host c.domain &&
    (decide (c.path.length = 0) || strncasecmp u.path c.path c.path.length) &&
    (!c.secure || decide (u.scheme = ofString "https"))

def Cookie.text (c : Cookie) : Text := c.name ++ equals :: c.value

def buildLoop (u : Url) (max : ℕ) : Jar → Text → Bool → Text
  | [], buf, _ => buf
  | c :: jar, buf, first =>
    if !c.goesTo u then buildLoop u max jar buf first
    else if buf.length + c.name.length + c.value.length + 4 ≥ max then buf
    else buildLoop u max jar ((if first then buf else buf ++ [semicolon, space]) ++ c.text) false

def tsCookieBuild (jar : Jar) (u : Url) (max : ℕ) : Text := buildLoop u max jar [] true

def cookieText : List Cookie → Text
  | [] => []
  | c :: cs => c.text ++ cs.flatMap fun c => [semicolon, space] ++ c.text

/-! ### What is sent -/

variable {c d : Cookie} {jar : Jar}

theorem cookieText_concat (cs : List Cookie) (c : Cookie) : cookieText (cs ++ [c]) =
    (if cs.isEmpty then cookieText cs else cookieText cs ++ [semicolon, space]) ++ c.text := by
  cases cs <;> simp [cookieText]

theorem buildLoop_eq (u : Url) (max : ℕ) (jar : Jar) (cs : List Cookie) :
    ∃ cs', (∀ c ∈ cs', c ∈ jar ∧ c.goesTo u = true) ∧
      buildLoop u max jar (cookieText cs) cs.isEmpty = cookieText (cs ++ cs') := by
  induction jar generalizing cs with
  | nil => exact ⟨[], by simp, by simp [buildLoop]⟩
  | cons c jar ih =>
    have hcons : ∀ {d : Cookie} {cs' : List Cookie},
        (∀ d ∈ cs', d ∈ jar ∧ d.goesTo u = true) → d ∈ cs' → d ∈ c :: jar ∧ d.goesTo u = true :=
      fun hall hd => ⟨mem_cons_of_mem _ (hall _ hd).1, (hall _ hd).2⟩
    rw [buildLoop]
    by_cases hgoes : c.goesTo u = true
    · rw [hgoes, Bool.not_true]
      by_cases hfull : (cookieText cs).length + c.name.length + c.value.length + 4 ≥ max
      · rw [if_pos hfull]
        exact ⟨[], by simp, by simp⟩
      · rw [if_neg hfull, ← cookieText_concat]
        obtain ⟨cs', hall, heq⟩ := ih (cs ++ [c])
        have hne : (cs ++ [c]).isEmpty = false := by cases cs <;> rfl
        rw [hne] at heq
        refine ⟨c :: cs', fun d hd => ?_, by simpa using heq⟩
        rcases mem_cons.mp hd with rfl | hd
        · exact ⟨mem_cons_self, hgoes⟩
        · exact hcons hall hd
    · rw [if_pos (by simpa using hgoes)]
      obtain ⟨cs', hall, heq⟩ := ih cs
      exact ⟨cs', fun d hd => hcons hall hd, heq⟩

theorem tsCookieBuild_eq (jar : Jar) (u : Url) (max : ℕ) :
    ∃ cs, (∀ c ∈ cs, c ∈ jar ∧ c.goesTo u = true) ∧ tsCookieBuild jar u max = cookieText cs :=
  buildLoop_eq u max jar []

/-! ### Where the cookies come from -/

structure Header where
  value : Text
  host : Text

def Header.cookie (h : Header) : Option Cookie := cookieOf h.value h.host

def jarAfter (hs : List Header) : Jar := hs.foldl (fun jar h => tsCookieParse jar h.value h.host) []

theorem mem_store (h : d ∈ store c jar) : d = c ∨ d ∈ jar := by
  unfold store at h
  split_ifs at h
  · exact (mem_or_eq_of_mem_set h).symm
  · simpa [or_comm] using h
  · exact .inr h

theorem jarAfter_concat (hs : List Header) (h : Header) :
    jarAfter (hs ++ [h]) = tsCookieParse (jarAfter hs) h.value h.host := by
  simp [jarAfter]

theorem jarAfter_source (hs : List Header) (hc : c ∈ jarAfter hs) :
    ∃ h ∈ hs, h.cookie = some c := by
  induction hs using List.reverseRecOn with
  | nil => cases hc
  | append_singleton hs h ih =>
    have hold : c ∈ jarAfter hs → ∃ h' ∈ hs ++ [h], h'.cookie = some c := fun hmem =>
      (ih hmem).imp fun h' hh' => ⟨mem_append_left _ hh'.1, hh'.2⟩
    rw [jarAfter_concat, tsCookieParse] at hc
    cases hcookie : cookieOf h.value h.host with
    | none =>
      rw [hcookie] at hc
      exact hold hc
    | some d =>
      rw [hcookie] at hc
      rcases mem_store hc with rfl | hmem
      · exact ⟨h, by simp, hcookie⟩
      · exact hold hmem

theorem store_replaces {i : ℕ} (hd : jar[i]? = some d) (hne : (store c jar)[i]? ≠ some d) :
    c.same d = true := by
  unfold store at hne
  split_ifs at hne with hany
  · obtain ⟨hi, rfl⟩ := List.getElem?_eq_some_iff.mp hd
    by_cases hfirst : jar.findIdx c.same = i
    · subst hfirst
      exact findIdx_getElem
    · rw [List.getElem?_set_ne hfirst] at hne
      exact absurd hd hne
  · obtain ⟨hi, -⟩ := List.getElem?_eq_some_iff.mp hd
    rw [List.getElem?_append_left hi] at hne
    exact absurd hd hne
  · exact absurd hd hne

/-! ### Domains and paths -/

/-- The host is in the domain: it is the domain, or ends with a dot and the domain. -/
def InDomain (host domain : Text) : Prop :=
  fold host = fold domain ∨ fold (dot :: domain) <:+ fold host

instance (host domain : Text) : Decidable (InDomain host domain) :=
  inferInstanceAs (Decidable (_ ∨ _))

def Under (path dir : Text) : Prop :=
  path = dir ∨ dir <+: path ∧
    (dir.getLast? = some slash ∨ (path.drop dir.length).head? = some slash)

instance (path dir : Text) : Decidable (Under path dir) :=
  inferInstanceAs (Decidable (_ ∨ _))

/-- The texts that stand after a semicolon, spaces and `key`, anywhere in a header. -/
def given (key value : Text) : List Text :=
  value.tails.filterMap fun t =>
    let p := t.tail.dropWhile (· == space)
    if t.head? = some semicolon ∧ strncasecmp p key key.length then
      some (untilSemicolon (p.drop key.length))
    else none

def stripDot (s : Text) : Text := if s.head? = some dot then s.tail else s

def Header.domains (h : Header) : List Text := (given (ofString "domain=") h.value).map stripDot

def Header.paths (h : Header) : List Text := given (ofString "path=") h.value

/-- A header whose domains, as far as they fit, are its host or above it, which the code does not
check. -/
def Header.Honest (h : Header) : Prop :=
  ∀ d ∈ h.host :: h.domains, InDomain h.host (fit cookieDomainMax d)

/-- A URL for which the comparisons of the code are exact: its host ends with a domain of the header
at a label only, and is the header's own host if no domain was given, and its path starts with a
path of the header at a slash only. -/
def Header.Clear (h : Header) (u : Url) : Prop :=
  (∀ d ∈ h.host :: h.domains, fold (fit cookieDomainMax d) <:+ fold u.host →
    InDomain u.host (fit cookieDomainMax d)) ∧
  (h.domains = [] → fold (fit cookieDomainMax h.host) <:+ fold u.host →
    fold u.host = fold h.host) ∧
  ∀ p ∈ [slash] :: h.paths, fold (fit cookiePathMax p) <+: fold u.path →
    Under u.path (fit cookiePathMax p)

theorem untilSemicolon_stripDot (p : Text) :
    untilSemicolon (stripDot p) = stripDot (untilSemicolon p) := by
  cases p with
  | nil => rfl
  | cons c p =>
    unfold stripDot untilSemicolon
    rw [takeWhile_cons]
    by_cases hc : c = dot
    · subst hc
      rfl
    · by_cases hs : (c != semicolon) = true
      · simp [hc, hs]
      · simp [hc, hs]

theorem mem_given {key value p : Text} (hsuffix : semicolon :: p <:+ value)
    (hkey : strncasecmp (p.dropWhile (· == space)) key key.length = true) :
    untilSemicolon ((p.dropWhile (· == space)).drop key.length) ∈ given key value :=
  mem_filterMap.mpr ⟨_, (mem_tails _ _).mpr hsuffix, if_pos ⟨rfl, hkey⟩⟩

theorem oneAttribute_suffix (p : Text) : (oneAttribute p).2 <:+ p := by
  unfold oneAttribute
  dsimp only
  split_ifs
  · exact (dropWhile_suffix _).trans ((tail_suffix _).trans (drop_suffix _ _))
  · exact (dropWhile_suffix _).trans (drop_suffix _ _)
  · exact (dropWhile_suffix _).trans (drop_suffix _ _)
  · exact drop_suffix _ _
  · exact dropWhile_suffix _

/-- The attributes of a cookie stand in the text of its header. -/
theorem attributes_given {h : Header} (fuel : ℕ) : ∀ {p : Text}, p <:+ h.value →
    (∀ s, .domain s ∈ attributes fuel p → s ∈ h.domains) ∧
      ∀ s, .path s ∈ attributes fuel p → s ∈ h.paths := by
  induction fuel with
  | zero => exact fun _ => ⟨fun s hs => absurd hs not_mem_nil, fun s hs => absurd hs not_mem_nil⟩
  | succ fuel ih =>
    intro p hp
    cases p with
    | nil => exact ⟨fun s hs => absurd hs not_mem_nil, fun s hs => absurd hs not_mem_nil⟩
    | cons c p =>
      simp only [attributes]
      split_ifs with hc
      swap
      · exact ⟨fun s hs => absurd hs not_mem_nil, fun s hs => absurd hs not_mem_nil⟩
      subst hc
      obtain ⟨hdomain, hpath⟩ := ih ((oneAttribute_suffix _).trans ((dropWhile_suffix _).trans
        ((suffix_cons _ _).trans hp)))
      refine ⟨fun s hs => (mem_cons.mp hs).elim (fun hs => ?_) (hdomain s),
        fun s hs => (mem_cons.mp hs).elim (fun hs => ?_) (hpath s)⟩
      · unfold oneAttribute at hs
        dsimp only at hs
        by_cases hkey : strncasecmp (p.dropWhile (· == space)) (ofString "domain=") 7 = true
        · rw [if_pos hkey] at hs
          obtain rfl := Attribute.domain.inj hs
          exact mem_map.mpr ⟨_, mem_given hp hkey, (untilSemicolon_stripDot _).symm⟩
        · rw [if_neg hkey] at hs
          split_ifs at hs
      · unfold oneAttribute at hs
        dsimp only at hs
        split_ifs at hs with _ hkey
        obtain rfl := Attribute.path.inj hs
        exact mem_given hp hkey

theorem foldl_apply_cases (as : List Attribute) : ∀ c : Cookie,
    ((as.foldl Cookie.apply c).domain = c.domain ∨
      ∃ s, .domain s ∈ as ∧ (as.foldl Cookie.apply c).domain = fit cookieDomainMax s) ∧
    ((as.foldl Cookie.apply c).path = c.path ∨
      ∃ s, .path s ∈ as ∧ (as.foldl Cookie.apply c).path = fit cookiePathMax s) := by
  induction as with
  | nil => exact fun c => ⟨.inl rfl, .inl rfl⟩
  | cons a as ih =>
    intro c
    obtain ⟨hdomain, hpath⟩ := ih (c.apply a)
    rw [foldl_cons]
    constructor
    · rcases hdomain with h | ⟨s, hs, h⟩
      · rw [h]
        cases a with
        | domain s => exact .inr ⟨s, mem_cons_self, rfl⟩
        | path | secure | other => exact .inl rfl
      · exact .inr ⟨s, mem_cons_of_mem _ hs, h⟩
    · rcases hpath with h | ⟨s, hs, h⟩
      · rw [h]
        cases a with
        | path s => exact .inr ⟨s, mem_cons_self, rfl⟩
        | domain | secure | other => exact .inl rfl
      · exact .inr ⟨s, mem_cons_of_mem _ hs, h⟩

/-- The domain and the path of a cookie stand in its header, or are the host and `/`. -/
theorem Header.cookie_given {h : Header} (hc : h.cookie = some c) :
    (∃ d ∈ h.host :: h.domains, c.domain = fit cookieDomainMax d ∧ (h.domains = [] → d = h.host)) ∧
    ∃ p ∈ [slash] :: h.paths, c.path = fit cookiePathMax p := by
  unfold Header.cookie cookieOf at hc
  dsimp only at hc
  split_ifs at hc
  rw [← Option.some.inj hc]
  have hsuffix : fromSemicolon (h.value.dropWhile fun c => c != equals && c != semicolon).tail <:+
      h.value := (dropWhile_suffix _).trans ((tail_suffix _).trans (dropWhile_suffix _))
  obtain ⟨hdomains, hpaths⟩ := attributes_given h.value.length hsuffix
  obtain ⟨hdomain, hpath⟩ := foldl_apply_cases (attributesOf h.value) _
  constructor
  · rcases hdomain with h' | ⟨s, hs, h'⟩
    · exact ⟨h.host, mem_cons_self, h', fun _ => rfl⟩
    · refine ⟨s, mem_cons_of_mem _ (hdomains s hs), h', fun hnone => ?_⟩
      exact absurd (hnone ▸ hdomains s hs) not_mem_nil
  · rcases hpath with h' | ⟨s, hs, h'⟩
    · exact ⟨[slash], mem_cons_self, h'⟩
    · exact ⟨s, mem_cons_of_mem _ (hpaths s hs), h'⟩

theorem Cookie.goesTo_iff {u : Url} : c.goesTo u = true ↔
    fold c.domain <:+ fold u.host ∧ fold c.path <+: fold u.path ∧
      (c.secure = true → u.scheme = ofString "https") := by
  have hpath : (decide (c.path.length = 0) || strncasecmp u.path c.path c.path.length) = true ↔
      fold c.path <+: fold u.path := by
    rw [Bool.or_eq_true, strncasecmp_prefix_iff, decide_eq_true_eq, or_iff_right_iff_imp]
    intro h
    simp [length_eq_zero_iff.mp h]
  rw [Cookie.goesTo, Bool.and_eq_true, Bool.and_eq_true, endsWith_iff, hpath, and_assoc]
  cases c.secure <;> simp

theorem fit_length_lt (s : Text) : (fit cookieDomainMax s).length < cookieDomainMax := by
  simp only [fit, length_take, cookieDomainMax]
  omega

theorem cookie_domain_length {h : Header} (hc : h.cookie = some c) :
    c.domain.length < cookieDomainMax := by
  obtain ⟨⟨d, -, hd, -⟩, -⟩ := h.cookie_given hc
  exact hd ▸ fit_length_lt d

theorem Cookie.same_domain (hc : c.domain.length < cookieDomainMax)
    (hd : d.domain.length < cookieDomainMax) (h : c.same d = true) :
    fold d.domain = fold c.domain := by
  rw [Cookie.same, Bool.and_eq_true] at h
  exact (strncasecmp_eq_iff hd.le hc.le).mp h.2

/-! ### Scopes -/

structure Scoped (h : Header) (c : Cookie) (u : Url) : Prop where
  source : h.cookie = some c
  domain : InDomain h.host c.domain
  host : InDomain u.host c.domain
  hostOnly : h.domains = [] → fold u.host = fold h.host
  path : Under u.path c.path
  secure : c.secure = true → u.scheme = ofString "https"

/-- **Cookies stay with their site** after honest headers: a clear URL gets the cookies of its
site only, and a header replaces cookies of its own site only. -/
theorem cookies_scoped (hs : List Header) (hhonest : ∀ h ∈ hs, h.Honest) :
    (∀ (u : Url) (max : ℕ), (∀ h ∈ hs, h.Clear u) →
      ∃ cs, tsCookieBuild (jarAfter hs) u max = cookieText cs ∧ ∀ c ∈ cs, ∃ h ∈ hs, Scoped h c u) ∧
    ∀ before h after, hs = before ++ h :: after →
      ∀ (i : ℕ) (c : Cookie), (jarAfter before)[i]? = some c →
        (jarAfter (before ++ [h]))[i]? ≠ some c → InDomain h.host c.domain := by
  refine ⟨fun u max hclear => ?_, fun before h after heq i c hc hne => ?_⟩
  · obtain ⟨cs, hall, htext⟩ := tsCookieBuild_eq (jarAfter hs) u max
    refine ⟨cs, htext, fun c hc => ?_⟩
    obtain ⟨hjar, hgoes⟩ := hall c hc
    obtain ⟨hdomain, hpath, hsecure⟩ := Cookie.goesTo_iff.mp hgoes
    obtain ⟨h, hh, hcookie⟩ := jarAfter_source hs hjar
    obtain ⟨hlabel, honly, hunder⟩ := hclear h hh
    obtain ⟨⟨d, hd, hcd, hhost⟩, p, hp, hcp⟩ := h.cookie_given hcookie
    rw [hcd] at hdomain
    rw [hcp] at hpath
    refine ⟨h, hh, hcookie, hcd ▸ hhonest h hh d hd, hcd ▸ hlabel d hd hdomain, fun hno => ?_,
      hcp ▸ hunder p hp hpath, hsecure⟩
    exact honly hno (hhost hno ▸ hdomain)
  · rw [jarAfter_concat, tsCookieParse] at hne
    cases hcookie : cookieOf h.value h.host with
    | none =>
      rw [hcookie] at hne
      exact absurd hc hne
    | some d =>
      rw [hcookie] at hne
      obtain ⟨h', -, hc'⟩ := jarAfter_source before (mem_of_getElem? hc)
      have hsame := Cookie.same_domain (cookie_domain_length hcookie) (cookie_domain_length hc')
        (store_replaces hc hne)
      obtain ⟨⟨s, hs, hds, -⟩, -⟩ := h.cookie_given hcookie
      have hown := hhonest h (by simp [heq]) s hs
      rw [InDomain, fold_cons] at hown ⊢
      rw [hsame, hds]
      exact hown

def shared : Header :=
  ⟨ofString "id=1; Domain=.example.com; Path=/a/; Secure", ofString "www.example.com"⟩

theorem cookies_scoped_shared : ∃ cs, cookieText cs = ofString "id=1" ∧ ∀ c ∈ cs, ∃ h ∈ [shared],
      Scoped h c ⟨ofString "https", ofString "mail.example.com", ofString "/a/b"⟩ := by
  have hhonest : ∀ h ∈ [shared], h.Honest := by
    unfold Header.Honest
    decide +kernel
  have hclear : ∀ h ∈ [shared],
      h.Clear ⟨ofString "https", ofString "mail.example.com", ofString "/a/b"⟩ := by
    unfold Header.Clear
    decide +kernel
  obtain ⟨cs, htext, hcs⟩ := (cookies_scoped [shared] hhonest).1 _ 2048 hclear
  refine ⟨cs, htext.symm.trans ?_, hcs⟩
  decide

def foreign : Header := ⟨ofString "id=1; Domain=bank.com", ofString "evil.com"⟩

/-- The other site gets the cookie. -/
theorem foreign_sent :
    tsCookieBuild (jarAfter [foreign]) ⟨ofString "https", ofString "bank.com", ofString "/"⟩ 2048 =
      ofString "id=1" ∧
    jarAfter [foreign] = [⟨ofString "id", ofString "1", ofString "bank.com", ofString "/", false⟩] ∧
    ¬ InDomain foreign.host (ofString "bank.com") := by
  decide

end TaterTOS.Http
