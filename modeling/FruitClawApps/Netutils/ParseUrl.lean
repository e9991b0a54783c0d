-- SUMMARY: netlib_parseurl: how a URL is cut into parts, and what is accepted.
import FruitClawApps.Lib.CLib

/-!
# URL parsing

`netutils/netlib/netlib_parseurl.c` cuts a URL into fields of fixed size. A field that does not fit
is reported at the end, so a URL is accepted only if every field is complete.
-/

namespace Netutils

open List

/-! ## The parser -/

/-- The fields of `struct url_s` that the parser fills in. -/
structure Url where
  scheme : CStr
  host : CStr
  port : Nat
  path : CStr
deriving DecidableEq

/-- The copy loop for the scheme and the host: it runs to the first stop
character and copies while `bytesleft` leaves room for the terminator. The result
is the field, whether something was left out, and the rest of the text. -/
def copyField (stop : Char → Bool) : Nat → CStr → CStr × Bool × CStr
  | _, [] => ([], false, [])
  | bytesleft, c :: src =>
    if stop c then ([], false, c :: src)
    else if bytesleft > 1 then
      let (dest, big, rest) := copyField stop (bytesleft - 1) src
      (c :: dest, big, rest)
    else
      -- the loop runs on to the stop character without copying
      let (_, _, rest) := copyField stop bytesleft src
      ([], true, rest)

def isSchemeStop (c : Char) : Bool := c == ':'

def isHostStop (c : Char) : Bool := c == '/' || c == ' ' || c == ':'

/-- The port loop. The accumulator is a `uint16_t`. -/
def scanPort (accum : Nat) : CStr → Nat × CStr
  | [] => (accum, [])
  | c :: src =>
    if '0' ≤ c ∧ c ≤ '9' then scanPort ((10 * accum + (c.toNat - '0'.toNat)) % 65536) src
    else (accum, c :: src)

/-- The port, if the host is followed by one. -/
def scanPortField (port : Nat) : CStr → Nat × CStr
  | ':' :: src => scanPort 0 src
  | src => (port, src)

/-- `netlib_parseurl` for fields of the given sizes. `port` is the value that the
caller put into the structure. -/
def netlibParseurl (schemelen hostlen pathlen port : Nat) (str : CStr) : Except Errno Url :=
  if schemelen = 0 ∨ hostlen = 0 ∨ pathlen = 0 then .error .einval
  else
    let (scheme, schemeBig, src) := copyField isSchemeStop schemelen str
    match src with
    | ':' :: '/' :: '/' :: src =>
      let (host, hostBig, src) := copyField isHostStop hostlen src
      let (port, src) := scanPortField port src
      -- leading slashes are dropped, and a single one is put back
      let path := src.dropWhile (· == '/')
      let pathBig := decide (pathlen - 1 < path.length + 1)
      if schemeBig || hostBig || pathBig then .error .e2big
      else .ok ⟨scheme, host, port, '/' :: path⟩
    | _ => .error .einval

/-! ## Accepted URLs -/

theorem copyField_rest (stop : Char → Bool) (n : Nat) (s : CStr) :
    (copyField stop n s).2.2 = s.dropWhile (!stop ·) := by
  induction s generalizing n with
  | nil => rfl
  | cons c s ih =>
    unfold copyField
    by_cases hc : stop c = true
    · simp [hc]
    · by_cases hn : n > 1
      all_goals simp [hc, hn, ih]

theorem copyField_whole {stop : Char → Bool} {n : Nat} {s : CStr}
    (h : (copyField stop n s).2.1 = false) : (copyField stop n s).1 = s.takeWhile (!stop ·) := by
  induction s generalizing n with
  | nil => rfl
  | cons c s ih =>
    unfold copyField at h ⊢
    by_cases hc : stop c = true
    · simp [hc]
    by_cases hn : n > 1
    · simp only [hc, hn, if_true, if_false, Bool.false_eq_true] at h ⊢
      simp [hc, ih h]
    · simp [hc, hn] at h

/-- The text that follows the scheme separator of a URL. -/
def authority (str : CStr) : CStr := (str.dropWhile (!isSchemeStop ·)).drop 3

theorem netlibParseurl_ok {sl hl pl port : Nat} {str : CStr} {u : Url}
    (h : netlibParseurl sl hl pl port str = .ok u) :
    str = str.takeWhile (!isSchemeStop ·) ++ "://".toList ++ authority str ∧
      u.host = (authority str).takeWhile (!isHostStop ·) := by
  simp only [netlibParseurl] at h
  split at h
  · cases h
  split at h
  · rename_i src hsrc
    rw [copyField_rest] at hsrc
    have hauth : authority str = src := by rw [authority, hsrc]; rfl
    rw [hauth]
    split at h
    · cases h
    rename_i hbig
    cases h
    simp only [Bool.or_eq_true, not_or, Bool.not_eq_true] at hbig
    refine ⟨?_, copyField_whole hbig.1.2⟩
    have hsplit := takeWhile_append_dropWhile (p := (!isSchemeStop ·)) (l := str)
    rw [hsrc] at hsplit
    rw [append_assoc]
    exact hsplit.symm
  · cases h

/-! ## Parts and ports -/

theorem copyField_append {stop : Char → Bool} {n : Nat} {s rest : CStr} (hs : ∀ c ∈ s, stop c = false)
    (hrest : ∀ c ∈ rest.head?, stop c = true) (hn : s.length < n) :
    copyField stop n (s ++ rest) = (s, false, rest) := by
  induction s generalizing n with
  | nil =>
    cases rest with
    | nil => rfl
    | cons c rest => rw [nil_append, copyField, if_pos (hrest c rfl)]
  | cons c s ih =>
    rw [length_cons] at hn
    rw [cons_append, copyField, if_neg (by simp [hs c mem_cons_self]), if_pos (by omega),
      ih (fun x hx => hs x (mem_cons_of_mem c hx)) (by omega)]

/-- The accumulator keeps the number modulo 2^16. -/
theorem scanPort_append {digits rest : CStr} (a : Nat) (hdigits : ∀ c ∈ digits, c.isDigit = true)
    (hrest : ∀ c ∈ rest.head?, c.isDigit = false) :
    scanPort (a % 65536) (digits ++ rest) = (Nat.ofDigitChars 10 digits a % 65536, rest) := by
  have hiff (c : Char) : '0' ≤ c ∧ c ≤ '9' ↔ c.isDigit = true := by
    rw [Char.isDigit, Bool.and_eq_true, decide_eq_true_eq, decide_eq_true_eq]
    rfl
  induction digits generalizing a with
  | nil =>
    cases rest with
    | nil => rfl
    | cons c rest =>
      rw [nil_append, scanPort, if_neg (by rw [hiff, hrest c rfl]; exact Bool.false_ne_true)]
      rfl
  | cons c digits ih =>
    have hstep : (10 * (a % 65536) + (c.toNat - '0'.toNat)) % 65536 = (10 * a + (c.toNat - '0'.toNat)) % 65536 := by
      omega
    rw [cons_append, scanPort, if_pos ((hiff c).mpr (hdigits c mem_cons_self)), hstep,
      ih _ fun x hx => hdigits x (mem_cons_of_mem c hx)]
    rfl

/-- The parts of a URL. A port is a text of digits, and a path is empty or starts with a slash. -/
structure UrlText where
  scheme : CStr
  host : CStr
  port : Option CStr
  path : CStr
  scheme_plain : ∀ c ∈ scheme, isSchemeStop c = false
  host_plain : ∀ c ∈ host, isHostStop c = false
  port_digits : ∀ digits ∈ port, ∀ c ∈ digits, c.isDigit = true
  path_slash : ∀ c ∈ path.head?, c = '/'

namespace UrlText

variable (t : UrlText)

def text : CStr := t.scheme ++ "://".toList ++ t.host ++ t.port.elim [] (':' :: ·) ++ t.path

/-- The number of the digits, or what the caller has put there. -/
def portValue (port : Nat) : Nat := t.port.elim port fun digits => Nat.ofDigitChars 10 digits 0

/-- The parts fit in buffers of these sizes. -/
def Fits (schemelen hostlen pathlen : Nat) : Prop :=
  t.scheme.length < schemelen ∧ t.host.length < hostlen ∧ t.path.length < pathlen ∧ 1 < pathlen

/-- Exactly the parts, and an error for a number that is no port. -/
def Exact (port : Nat) (r : Except Errno Url) : Prop :=
  if t.portValue port ≤ 65535 then r = .ok ⟨t.scheme, t.host, t.portValue port, t.path⟩ else ∃ e, r = .error e

end UrlText

theorem netlibParseurl_text (t : UrlText) {sl hl pl port : Nat} (hport : port < 65536) (hfits : t.Fits sl hl pl) :
    netlibParseurl sl hl pl port t.text =
      .ok ⟨t.scheme, t.host, t.portValue port % 65536, '/' :: t.path.dropWhile (· == '/')⟩ := by
  obtain ⟨hscheme, hhost, hpath, hroom⟩ := hfits
  have htext : t.text = t.scheme ++ (':' :: '/' :: '/' :: (t.host ++ (t.port.elim [] (':' :: ·) ++ t.path))) := by
    simp [UrlText.text]
  have hnext : ∀ c ∈ (t.port.elim [] (':' :: ·) ++ t.path).head?, isHostStop c = true := by
    cases t.port with
    | none =>
      intro c hc
      rw [t.path_slash c hc]
      rfl
    | some digits =>
      rintro c ⟨⟩
      rfl
  have hscan : scanPortField port (t.port.elim [] (':' :: ·) ++ t.path) = (t.portValue port % 65536, t.path) := by
    rw [UrlText.portValue]
    cases hdigits : t.port with
    | none =>
      cases hp : t.path with
      | nil => simp [scanPortField, Nat.mod_eq_of_lt hport]
      | cons c path =>
        obtain rfl : c = '/' := t.path_slash c (by rw [hp]; rfl)
        simp [scanPortField, Nat.mod_eq_of_lt hport]
    | some digits =>
      refine scanPort_append 0 (t.port_digits digits hdigits) fun c hc => ?_
      rw [t.path_slash c hc]
      rfl
  have hdrop : (t.path.dropWhile (· == '/')).length + 1 < pl := by
    cases hp : t.path with
    | nil => exact hroom
    | cons c path =>
      obtain rfl : c = '/' := t.path_slash c (by rw [hp]; rfl)
      rw [hp] at hpath
      rw [dropWhile_cons_of_pos (by decide)]
      exact Nat.lt_of_le_of_lt (Nat.succ_le_succ (dropWhile_sublist _).length_le) hpath
  rw [netlibParseurl, if_neg (by omega), htext, copyField_append t.scheme_plain (by rintro _ ⟨⟩; rfl) hscheme]
  simp only [copyField_append t.host_plain hnext hhost, hscan]
  rw [if_neg (by simp; omega)]

/-- The parts are exact if and only if the number is a port and the path has one slash in front. -/
theorem netlibParseurl_exact_iff (t : UrlText) {sl hl pl port : Nat} (hport : port < 65536) (hfits : t.Fits sl hl pl) :
    t.Exact port (netlibParseurl sl hl pl port t.text) ↔
      t.portValue port ≤ 65535 ∧ '/' :: t.path.dropWhile (· == '/') = t.path := by
  rw [netlibParseurl_text t hport hfits, UrlText.Exact]
  split_ifs with hvalue
  · rw [Nat.mod_eq_of_lt (by omega)]
    simp [hvalue]
  · simp [hvalue]

/-- A URL with a port. -/
def sampleUrl (port path : String) (hport : ∀ c ∈ port.toList, c.isDigit = true)
    (hpath : ∀ c ∈ path.toList.head?, c = '/') :
    UrlText where
  scheme := "http".toList
  host := "host".toList
  port := some port.toList
  path := path.toList
  scheme_plain := by simp [isSchemeStop]
  host_plain := by simp [isHostStop]
  port_digits := by
    rintro _ ⟨⟩
    exact hport
  path_slash := hpath

theorem netlibParseurl_exact_iff_plain :
    (sampleUrl "8080" "/a" (by simp) (by simp)).Exact 80 (netlibParseurl 8 8 8 80 "http://host:8080/a".toList) :=
  (netlibParseurl_exact_iff (sampleUrl "8080" "/a" (by simp) (by simp)) (by decide)
    ⟨by decide, by decide, by decide, by decide⟩).mpr ⟨by decide, by decide⟩

/-- The port 65616 is taken for 80, and a path without a slash gets one. -/
theorem not_netlibParseurl_exact :
    netlibParseurl 8 8 8 0 "http://host:65616/a".toList = .ok ⟨"http".toList, "host".toList, 80, "/a".toList⟩ ∧
      netlibParseurl 8 8 8 0 "http://host:80".toList = .ok ⟨"http".toList, "host".toList, 80, "/".toList⟩ := by
  decide

end Netutils
