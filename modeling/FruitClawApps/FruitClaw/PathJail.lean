-- SUMMARY: The four resolvers of path arguments, and the jail each keeps.
import FruitClawApps.FruitClaw.Config

/-!
# The path jail

Four functions turn text from a model, a script or a chat into the name of a file. They test the raw
text for prefixes and substrings. What they promise is about the components of the path.
-/

namespace FruitClaw

open LexicalPath

/-! ## The resolvers -/

/-- The test for an absolute argument, which the file capabilities and the
script runner share: the text starts with `dir`, and what follows is the end of
the text or a slash. -/
def startsAtRoot (dir input : CStr) : Bool :=
  startsWith input dir && ((input.drop dir.length).head?.all (· == '/'))

variable (root : DataRoot)

/-- `fc_resolve_safe_data_path` of `caps/fc_caps_builtin.c`. A missing JSON
string arrives as `none`. -/
def fcResolveSafeDataPath (input : Option CStr) (pathLen : Nat) (forWrite : Bool) : Except Errno CStr :=
  match input with
  | none => .error .einval
  | some input =>
    if input = [] ∨ fcPathHasParentRef input then .error .einval
    else if input.head? = some '/' then
      -- The absolute branch does not look at `for_write`.
      if !startsAtRoot root.dir input || fcPathIsSecret input then .error .eacces
      else fcStrlcpy input pathLen
    else if forWrite && !startsWith input "scripts/".toList &&
        !startsWith input "notes/".toList then
      .error .eacces
    else
      match fcDataPath root input fcPathLen with
      | .error _ => .error .eacces
      | .ok tmp => if fcPathIsSecret tmp then .error .eacces else fcStrlcpy tmp pathLen

/-- `fc_berry_resolve_path` of `script/fc_berry.c`. -/
def fcBerryResolvePath (path : Option CStr) (fullLen : Nat) :
    Except Errno CStr :=
  match path with
  | none => .error .einval
  | some path =>
    if path = [] ∨ fcPathHasParentRef path ∨ fullLen = 0 then .error .einval
    else
      match fcDataPath root "scripts".toList fcPathLen with
      | .error _ => .error .einval
      | .ok scriptsRoot =>
        if path.head? = some '/' then
          if startsAtRoot scriptsRoot path then fcStrlcpy path fullLen else .error .eacces
        else if startsWith path "scripts/".toList then fcDataPath root path fullLen
        else
          let full := scriptsRoot ++ '/' :: path
          if full.length ≥ fullLen then .error .enametoolong else .ok full

/-- The loop of `fc_session_safe_filename`: `off` characters are already in the
buffer of `outLen` bytes. -/
def fcSessionSafeChars (outLen : Nat) : Nat → CStr → Except Errno CStr
  | _, [] => .ok []
  | off, ch :: rest =>
    if off + 1 ≥ outLen then .error .enospc
    else if isalnum ch ∨ ch = '-' ∨ ch = '_' then
      (ch :: ·) <$> fcSessionSafeChars outLen (off + 1) rest
    else if ch = ':' ∨ ch = '/' ∨ ch = '.' then
      ('_' :: ·) <$> fcSessionSafeChars outLen (off + 1) rest
    else .error .einval

/-- `fc_session_safe_filename` of `storage/fc_memory.c`. -/
def fcSessionSafeFilename (sessionId : Option CStr) (outLen : Nat) : Except Errno CStr :=
  match sessionId with
  | none => .error .einval
  | some sessionId =>
    if outLen = 0 ∨ fcPathHasParentRef sessionId then .error .einval
    else
      match fcSessionSafeChars outLen 0 sessionId with
      | .error e => .error e
      | .ok safe => if safe = [] then .error .einval else .ok safe

/-- `FC_SESSION_ID_LEN`. -/
def fcSessionIdLen : Nat := 64

/-- `fc_session_path` of `storage/fc_memory.c`. -/
def fcSessionPath (sessionId : Option CStr) (outLen : Nat) :
    Except Errno CStr :=
  match fcSessionSafeFilename sessionId (fcSessionIdLen + 8) with
  | .error _ => .error .einval
  | .ok safe =>
    let leaf := "sessions/".toList ++ safe ++ ".jsonl".toList
    if leaf.length ≥ fcPathLen then .error .enametoolong else fcDataPath root leaf outLen

/-! ## What each resolver promises -/

/-- A path that a resolver hands out: `full` is the text that was meant, `p` is
that text uncut in a buffer of `len` bytes, and its normal form starts with the
components of `dir`. -/
structure Jailed (dir : List (List Char)) (full : CStr) (len : Nat) (p : CStr) : Prop where
  whole : p = full
  fits : p.length < len
  below : Below dir p

/-- The directory in which scripts live. -/
def scriptsDir : List (List Char) := normalise root.dir ++ ["scripts".toList]

variable {input p : CStr} {root : DataRoot} {n : Nat}

theorem startsAtRoot_below {dir : CStr} (h : startsAtRoot dir input = true) (href : fcPathHasParentRef input = false) :
    Below (normalise dir) input := by
  simp only [startsAtRoot, Bool.and_eq_true, startsWith_iff] at h
  obtain ⟨⟨rest, rfl⟩, hnext⟩ := h
  have hcomp := no_parent_component href
  cases rest with
  | nil => simpa using below_self dir
  | cons c rest =>
    have hc : c = '/' := by simpa using hnext
    subst hc
    rw [components_join] at hcomp
    exact below_join (below_self dir) fun hmem => hcomp (List.mem_append_right _ hmem)

theorem fcDataPath_jailed {leaf : CStr} (h : fcDataPath root leaf n = .ok p) :
    Jailed (normalise root.dir) (root.dir ++ '/' :: leaf) n p where
  whole := (fcDataPath_ok h).1
  fits := (fcDataPath_ok h).2.1
  below := fcDataPath_below h

/-- The text a relative or an absolute argument of the file tools stands for. -/
def fullDataPath (root : DataRoot) (input : CStr) : CStr :=
  if input.head? = some '/' then input else root.dir ++ '/' :: input

/-- What a path has passed that the resolver of the file capabilities hands out. -/
theorem fcResolveSafeDataPath_cases {w : Bool} (h : fcResolveSafeDataPath root (some input) n w = .ok p) :
    fcPathHasParentRef input = false ∧ fcPathIsSecret p = false ∧ p.length < n ∧
      ((input.head? = some '/' ∧ startsAtRoot root.dir input = true ∧ p = input) ∨
        (input.head? ≠ some '/' ∧ fcDataPath root input fcPathLen = .ok p ∧
          (w = true → startsWith input "scripts/".toList = true ∨ startsWith input "notes/".toList = true))) := by
  simp only [fcResolveSafeDataPath] at h
  split at h
  · cases h
  rename_i hin
  have href : fcPathHasParentRef input = false := by simpa using (not_or.mp hin).2
  split at h
  · rename_i habs
    split at h
    · cases h
    rename_i hroot
    have hroot' : startsAtRoot root.dir input = true ∧ fcPathIsSecret input = false := by
      simpa using hroot
    obtain ⟨rfl, hlen⟩ := fcStrlcpy_ok h
    exact ⟨href, hroot'.2, hlen, .inl ⟨habs, hroot'.1, rfl⟩⟩
  rename_i hrel
  split at h
  · cases h
  rename_i hdirs
  split at h
  · cases h
  rename_i tmp htmp
  split at h
  · cases h
  rename_i hsecret
  obtain ⟨rfl, hlen⟩ := fcStrlcpy_ok h
  refine ⟨href, by simpa using hsecret, hlen, .inr ⟨hrel, htmp, ?_⟩⟩
  rintro rfl
  by_contra hno
  -- Without either start the test for writing would have refused the path.
  rw [not_or, Bool.not_eq_true, Bool.not_eq_true] at hno
  rw [hno.1, hno.2] at hdirs
  exact hdirs rfl

theorem fcResolveSafeDataPath_jailed {w : Bool} (h : fcResolveSafeDataPath root (some input) n w = .ok p) :
    Jailed (normalise root.dir) (fullDataPath root input) n p ∧ ¬ SecretBelow p := by
  obtain ⟨href, hsecret, hlen, ⟨habs, hroot, rfl⟩ | ⟨hrel, hdata, -⟩⟩ := fcResolveSafeDataPath_cases h
  · exact ⟨⟨by simp [fullDataPath, habs], hlen, startsAtRoot_below hroot href⟩, not_secretBelow habs hsecret⟩
  have hjail := fcDataPath_jailed hdata
  refine ⟨⟨by simp [fullDataPath, hrel, hjail.whole], hlen, hjail.below⟩, not_secretBelow ?_ hsecret⟩
  rw [hjail.whole]
  exact root.head?_append _

private theorem normalise_scripts (root : DataRoot) :
    normalise (root.dir ++ '/' :: "scripts".toList) = scriptsDir root :=
  normalise_join_name _ (by decide)

/-- The text a path argument of the script runner stands for. -/
def fullScriptPath (root : DataRoot) (path : CStr) : CStr :=
  if path.head? = some '/' then path
  else if startsWith path "scripts/".toList then root.dir ++ '/' :: path
  else root.dir ++ '/' :: "scripts".toList ++ '/' :: path

theorem fcBerryResolvePath_jailed {path : CStr} (h : fcBerryResolvePath root (some path) n = .ok p) :
    Jailed (scriptsDir root) (fullScriptPath root path) n p := by
  simp only [fcBerryResolvePath] at h
  split at h
  · cases h
  rename_i hin
  push Not at hin
  have href : fcPathHasParentRef path = false := by simpa using hin.2.1
  split at h
  · cases h
  rename_i scriptsRoot hscripts
  obtain ⟨hroot, -, -⟩ := fcDataPath_ok hscripts
  have hdir : normalise scriptsRoot = scriptsDir root := by
    rw [hroot, normalise_scripts]
  split at h
  · rename_i habs
    split at h
    · rename_i hstart
      obtain ⟨rfl, hlen⟩ := fcStrlcpy_ok h
      exact ⟨by simp [fullScriptPath, habs], hlen, hdir ▸ startsAtRoot_below hstart href⟩
    · cases h
  rename_i hrel
  split at h
  · rename_i hpre
    have hjail := fcDataPath_jailed h
    refine ⟨by rw [fullScriptPath, if_neg hrel, if_pos hpre, hjail.whole], hjail.fits, ?_⟩
    -- The argument names the directory itself, so the jail is one step deeper.
    obtain ⟨rest, rfl⟩ := startsWith_iff.mp hpre
    have hsplit : root.dir ++ '/' :: ("scripts/".toList ++ rest) =
        root.dir ++ '/' :: "scripts".toList ++ '/' :: rest := by simp
    have hrest : ['.', '.'] ∉ components rest := by
      have hcomp := no_parent_component href
      have hpath : "scripts/".toList ++ rest = "scripts".toList ++ '/' :: rest := by simp
      rw [hpath, components_join] at hcomp
      exact fun hmem => hcomp (List.mem_append_right _ hmem)
    rw [hjail.whole, hsplit, ← normalise_scripts]
    exact below_join (below_self _) hrest
  · rename_i hpre
    split at h
    · cases h
    cases h
    refine ⟨by rw [fullScriptPath, if_neg hrel, if_neg hpre, hroot], by omega, ?_⟩
    rw [← hdir]
    exact below_join (below_self _) (no_parent_component href)

theorem fcSessionSafeChars_length {outLen off : Nat} {id safe : CStr}
    (h : fcSessionSafeChars outLen off id = .ok safe) : safe.length = id.length := by
  induction id generalizing off safe with
  | nil => cases h; rfl
  | cons ch rest ih =>
    simp only [fcSessionSafeChars] at h
    -- Both branches that go on write one character for the one they read.
    have hmap : ∀ c, (c :: ·) <$> fcSessionSafeChars outLen (off + 1) rest = .ok safe →
        safe.length = rest.length + 1 := by
      intro c hc
      cases hrest : fcSessionSafeChars outLen (off + 1) rest with
      | error e => rw [hrest] at hc; cases hc
      | ok tail =>
        rw [hrest] at hc
        cases hc
        simp [ih hrest]
    split at h
    · cases h
    split at h
    · exact hmap ch h
    split at h
    · exact hmap '_' h
    · cases h

/-- The file that holds a session whose sanitised name is `safe`. -/
def fullSessionPath (root : DataRoot) (safe : CStr) : CStr :=
  root.dir ++ '/' :: ("sessions/".toList ++ safe ++ ".jsonl".toList)

theorem fcSessionPath_jailed {id : CStr} (h : fcSessionPath root (some id) n = .ok p) :
    ∃ safe, safe.length = id.length ∧
      Jailed (normalise root.dir) (fullSessionPath root safe) n p := by
  simp only [fcSessionPath, fcSessionSafeFilename] at h
  split at h
  · cases h
  rename_i safe hsafe
  split at hsafe
  · cases hsafe
  split at hsafe
  · cases hsafe
  rename_i chars hchars
  split at hsafe
  · cases hsafe
  cases hsafe
  split at h
  · cases h
  exact ⟨safe, fcSessionSafeChars_length hchars, fcDataPath_jailed h⟩

/-- Every path that one of the four resolvers hands out is the uncut path that
was asked for, and it stays below the data root, for scripts below the scripts
directory. The file capabilities never reach anything below a component named
`secrets`. -/
theorem resolvers_jailed (root : DataRoot) :
    (∀ leaf n p, fcDataPath root leaf n = .ok p →
      Jailed (normalise root.dir) (root.dir ++ '/' :: leaf) n p) ∧
    (∀ input n w p, fcResolveSafeDataPath root (some input) n w = .ok p →
      Jailed (normalise root.dir) (fullDataPath root input) n p ∧ ¬ SecretBelow p) ∧
    (∀ path n p, fcBerryResolvePath root (some path) n = .ok p →
      Jailed (scriptsDir root) (fullScriptPath root path) n p) ∧
    (∀ id n p, fcSessionPath root (some id) n = .ok p →
      ∃ safe, safe.length = id.length ∧
        Jailed (normalise root.dir) (fullSessionPath root safe) n p) :=
  ⟨fun _ _ _ => fcDataPath_jailed, fun _ _ _ _ => fcResolveSafeDataPath_jailed,
    fun _ _ _ => fcBerryResolvePath_jailed, fun _ _ _ => fcSessionPath_jailed⟩

/-- The four resolvers at work on the default data root. -/
theorem resolvers_jailed_default :
    Jailed (normalise (fcDataDir false).dir) "/data/fruitclaw/system.md".toList fcPathLen
      "/data/fruitclaw/system.md".toList ∧
    ¬ SecretBelow "/data/fruitclaw//notes/./a".toList ∧
    Below (scriptsDir (fcDataDir false)) "/data/fruitclaw/scripts/a.be".toList ∧
    Below (normalise (fcDataDir false).dir) "/data/fruitclaw/sessions/cli_1.jsonl".toList := by
  have hjail := resolvers_jailed (fcDataDir false)
  refine ⟨?_, ?_, ?_, ?_⟩
  · exact hjail.1 "system.md".toList fcPathLen _ rfl
  · exact (hjail.2.1 "/data/fruitclaw//notes/./a".toList fcPathLen false _ rfl).2
  · exact (hjail.2.2.1 "a.be".toList fcPathLen _ rfl).below
  · obtain ⟨_, _, h⟩ := hjail.2.2.2 "cli:1".toList fcPathLen _ rfl
    exact h.below

end FruitClaw
