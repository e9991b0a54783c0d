-- SUMMARY: The HTTP allowlist, and exactly when it checks the host that is contacted.
import FruitClawApps.FruitClaw.Config
import FruitClawApps.Netutils.ParseUrl

/-!
# The HTTP allowlist

`fc_url_host_allowed` cuts the host out of a URL with a scanner of its own, and the HTTP client with
`netlib_parseurl`. They stop at different characters, so the host that is checked may be another
one.
-/

namespace FruitClaw

open Netutils

/-! ## The check -/

/-- The characters at which `fc_parse_url_host` ends the host. -/
def isUrlHostStop (c : Char) : Bool := c == '/' || c == ':' || c == '?' || c == '#'

/-- `fc_parse_url_host` of `core/fc_config.c`. -/
def fcParseUrlHost (url : Option CStr) (hostLen : Nat) : Option CStr :=
  match url with
  | none => none
  | some url =>
    if hostLen = 0 then none
    else
      match strstrAfter "://".toList url with
      | none => none
      | some p =>
        let host := p.takeWhile (!isUrlHostStop ·)
        if host.length = 0 ∨ host.length ≥ hostLen then none else some host

/-- The size of the host buffer of `fc_url_host_allowed`. -/
def urlHostLen : Nat := 96

/-- The host is an entry of the allowlist file of the data root. -/
def hostAllowed (root : DataRoot) (fs : FileStore) (host : CStr) : Bool :=
  fileLists root fs "http_allowlist.txt".toList 127 host

/-- `fc_url_host_allowed` of `core/fc_config.c`. -/
def fcUrlHostAllowed (root : DataRoot) (fs : FileStore) (url : Option CStr) : Bool :=
  match fcParseUrlHost url urlHostLen with
  | none => false
  | some host => hostAllowed root fs host

/-! ## The two scanners -/

variable {hl sl port pl : Nat} {u : Url} {url : CStr}

/-- Both scanners find the same place to start at. -/
theorem strstrAfter_authority (h : netlibParseurl sl hl pl port url = .ok u) :
    strstrAfter "://".toList url = some (authority url) := by
  obtain ⟨hsplit, -⟩ := netlibParseurl_ok h
  have hscheme : ':' ∉ url.takeWhile (!isSchemeStop ·) := fun hmem => by
    have hstop := List.mem_takeWhile_imp hmem
    simp [isSchemeStop] at hstop
  have hfind := strstrAfter_append ['/', '/'] hscheme (authority url)
  have hsep : "://".toList = [':', '/', '/'] := rfl
  rw [hsep] at hsplit ⊢
  rw [← hsplit] at hfind
  exact hfind

/-- The first character behind the scheme separator that ends the host for one of
the scanners. -/
def firstStop (url : CStr) : Option Char :=
  (authority url).find? fun c => isUrlHostStop c || isHostStop c

/-- A character at which both scanners stop. -/
def CommonStop (c : Char) : Prop := c = '/' ∨ c = ':'

theorem commonStop_iff {c : Char} : CommonStop c ↔ isUrlHostStop c = true ∧ isHostStop c = true := by
  constructor
  · rintro (rfl | rfl) <;> decide
  rintro ⟨h1, h2⟩
  simp only [isUrlHostStop, isHostStop, Bool.or_eq_true, beq_iff_eq] at h1 h2
  rcases h2 with (rfl | rfl) | rfl
  · exact Or.inl rfl
  · simp at h1
  · exact Or.inr rfl

/-! ## Agreement -/

/-- Whenever the allowlist accepts a URL and `netlib_parseurl` accepts it for
fields of the given sizes, both have the same host in hand, up to letter case. -/
def ParsersAgree (root : DataRoot) (fs : FileStore) (sl hl pl : Nat) (url : CStr) : Prop :=
  ∀ host u, fcUrlHostAllowed root fs (some url) = true →
    fcParseUrlHost (some url) urlHostLen = some host → netlibParseurl sl hl pl 0 url = .ok u →
    u.host.map tolower = host.map tolower

/-- The host ends at a slash, at a colon or at the end of the URL. -/
def HostDelimited (url : CStr) : Prop := ∀ c, firstStop url = some c → CommonStop c

theorem fcParseUrlHost_eq {host : CStr} (h : fcParseUrlHost (some url) urlHostLen = some host)
    (hnet : netlibParseurl sl hl pl port url = .ok u) : host = (authority url).takeWhile (!isUrlHostStop ·) := by
  simp only [fcParseUrlHost, strstrAfter_authority hnet] at h
  split_ifs at h
  · cases h
    rfl

/-- The hosts that the two scanners extract agree exactly if the host is
delimited by a character that ends it for both. -/
theorem hosts_eq_iff {host : CStr} (h : fcParseUrlHost (some url) urlHostLen = some host)
    (hnet : netlibParseurl sl hl pl port url = .ok u) : u.host.map tolower = host.map tolower ↔ HostDelimited url := by
  -- Both hosts are cut from the same text, so only the stop characters matter.
  rw [fcParseUrlHost_eq h hnet, (netlibParseurl_ok hnet).2, eq_comm, takeWhile_map_eq_iff, takeWhile_eq_iff]
  simp only [HostDelimited, firstStop, commonStop_iff]

/-- The allowlist and the URL parser agree about a URL exactly if one of them
refuses it or its host is delimited. -/
theorem parsersAgree_iff (root : DataRoot) (fs : FileStore) (sl hl pl : Nat) (url : CStr) :
    ParsersAgree root fs sl hl pl url ↔
      (fcUrlHostAllowed root fs (some url) = true → (∃ u, netlibParseurl sl hl pl 0 url = .ok u) →
        HostDelimited url) := by
  constructor
  · rintro hagree hallowed ⟨u, hnet⟩
    obtain ⟨host, hhost⟩ : ∃ host, fcParseUrlHost (some url) urlHostLen = some host := by
      cases hparse : fcParseUrlHost (some url) urlHostLen with
      | none => simp [fcUrlHostAllowed, hparse] at hallowed
      | some host => exact ⟨host, rfl⟩
    exact (hosts_eq_iff hhost hnet).mp (hagree host u hallowed hhost hnet)
  · intro hdelim host u hallowed hhost hnet
    exact (hosts_eq_iff hhost hnet).mpr (hdelim hallowed ⟨u, hnet⟩)

/-- A store whose allowlist names one host. -/
def telegramAllowlist : FileStore := fun path =>
  if path = "/data/fruitclaw/http_allowlist.txt".toList then some "api.telegram.org\n".toList else none

/-- A question mark ends the host that is checked, not the host that is contacted. -/
theorem parsersAgree_question : ¬ ParsersAgree (fcDataDir false) telegramAllowlist 7 40 100
    "http://api.telegram.org?.evil.com/".toList := by
  intro h
  have heq := h "api.telegram.org".toList
    ⟨"http".toList, "api.telegram.org?.evil.com".toList, 0, "/".toList⟩
    (by decide) (by decide) (by rfl)
  exact absurd heq (by decide)

end FruitClaw
