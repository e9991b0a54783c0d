-- SUMMARY: The file-write capability, and exactly when it stays in its directories.
import FruitClawApps.FruitClaw.PathJail
import FruitClawApps.Lib.JsonText

/-!
# Writing files

`cap_file_write_limited` is described as writing under `scripts/` or `notes/`. The resolver tests
for these if the path is relative. If it is absolute, it only tests for the data root.
-/

namespace FruitClaw

open LexicalPath List

/-! ## The capability -/

/-- The JSON object that a tool leaves in `out`. -/
structure ToolReply where
  ok : Bool
  error : Option CStr
  code : Option Errno
deriving DecidableEq

/-- `fc_json_out_error` and the replies of the same form. -/
def ToolReply.failed (error : CStr) : ToolReply := ⟨false, some error, none⟩

/-- What a tool call returns, replies and does to the files. -/
structure ToolResult where
  ret : Ret
  reply : ToolReply
  ops : List FileOp

/-- `fc_tool_guard_arm`: a context that is guarded already does not arm the
watchdog again. -/
def fcToolGuardArm (guarded : Bool) (armed : Ret) : Ret := if guarded then .ok () else armed

/-- `cap_file_write_limited` of `caps/fc_caps_builtin.c`. `guarded` is read from
the tool context, `armed` is the answer of `fc_guard_arm`. -/
def capFileWriteLimited (cj : CJson) (root : DataRoot) (guarded : Bool) (armed : Ret)
    (env : WriteOutcome) (argsJson : Option CStr) : ToolResult :=
  match cj.parse (argsJson.getD "\x7b\x7d".toList) with
  | none => ⟨.error .einval, .failed "invalid JSON".toList, []⟩
  | some args =>
    match args.stringMember "text".toList with
    | none => ⟨.error .einval, .failed "missing text".toList, []⟩
    | some text =>
      match fcResolveSafeDataPath root (args.stringMember "path".toList) fcPathLen true with
      | .error e => ⟨.error e, .failed "path denied".toList, []⟩
      | .ok path =>
        match fcToolGuardArm guarded armed with
        | .error e => ⟨.error e, ⟨false, some "file guard unavailable".toList, some e⟩, []⟩
        | .ok () =>
          match fcWriteTextFileAtomic env path text with
          | (.ok (), ops) => ⟨.ok (), ⟨true, none, none⟩, ops⟩
          | (.error e, ops) => ⟨.error e, ⟨false, some "write failed".toList, some e⟩, ops⟩

/-! ## The writable directories -/

/-- The two directories that a tool may write to. -/
def writableDirs (root : DataRoot) : List (List (List Char)) :=
  [normalise root.dir ++ ["scripts".toList], normalise root.dir ++ ["notes".toList]]

/-- The path lies below one of the writable directories. -/
def Writable (root : DataRoot) (p : CStr) : Prop := ∃ dir ∈ writableDirs root, Below dir p

instance (root : DataRoot) (p : CStr) : Decidable (Writable root p) :=
  inferInstanceAs (Decidable (∃ dir ∈ _, _))

/-- Whatever the guard and the system calls answer, a call touches files below
the writable directories only, and so leaves every other file as it is. -/
def WriteJail (cj : CJson) (root : DataRoot) (argsJson : Option CStr) : Prop :=
  ∀ guarded armed env,
    (∀ p ∈ FileStore.touched (capFileWriteLimited cj root guarded armed env argsJson).ops,
      Writable root p) ∧
    ∀ fs p, ¬ Writable root p →
      FileStore.run fs (capFileWriteLimited cj root guarded armed env argsJson).ops p = fs p

/-- The absolute paths that the resolver lets through. -/
def acceptedAbsolute (root : DataRoot) (input : CStr) : Bool :=
  input.head? == some '/' && !fcPathHasParentRef input && startsAtRoot root.dir input &&
    !fcPathIsSecret input && decide (input.length < fcPathLen)

/-- Every absolute path that a call with a text can name is refused by the
resolver or names a file whose directory is writable. -/
def AbsoluteConfined (cj : CJson) (root : DataRoot) (argsJson : Option CStr) : Prop :=
  ∀ args input text, cj.parse (argsJson.getD "\x7b\x7d".toList) = some args →
    args.stringMember "text".toList = some text → args.stringMember "path".toList = some input →
    acceptedAbsolute root input = true → Writable root (parent input)

variable {a b : Path} {root : DataRoot} {input path : CStr}

theorem below_of_parent {dir : List (List Char)} (ha : Below dir a) (hb : b ≠ ['.', '.']) (hslash : '/' ∉ b) :
    Below dir (a ++ '/' :: b) := by
  refine below_join ha ?_
  rw [components_of_not_mem hslash, mem_singleton]
  exact fun h => hb h.symm

theorem isName_tmp {b : List Char} (hslash : '/' ∉ b) : IsName (b ++ ".tmp".toList) := by
  have hlen : 4 ≤ (b ++ ".tmp".toList).length := by simp
  refine ⟨?_, ?_, ?_, ?_⟩
  · rw [mem_append, not_or]
    exact ⟨hslash, by decide⟩
  -- The other three are shorter than the suffix.
  all_goals
    intro h
    rw [h] at hlen
    simp at hlen

/-- The temporary file lies below a directory whose name does not end in
`.tmp` only if the directory of the file does. -/
theorem below_tmp_iff {base : List (List Char)} {name : List Char} (hname : ¬ ".tmp".toList <:+ name)
    (hslash : '/' ∉ b) :
    Below (base ++ [name]) (a ++ '/' :: (b ++ ".tmp".toList)) ↔ Below (base ++ [name]) a := by
  unfold Below
  rw [normalise_join_name a (isName_tmp hslash), prefix_concat_iff]
  constructor
  · rintro (heq | hpre)
    · have hlast := (append_inj' heq rfl).2
      exact absurd ⟨b, (singleton_inj.mp hlast).symm⟩ hname
    · exact hpre
  · exact Or.inr

/-! ## What the resolver lets through -/

theorem acceptedAbsolute_resolves (h : acceptedAbsolute root input = true) (forWrite : Bool) :
    fcResolveSafeDataPath root (some input) fcPathLen forWrite = .ok input := by
  simp only [acceptedAbsolute, Bool.and_eq_true, beq_iff_eq, Bool.not_eq_true', decide_eq_true_eq] at h
  obtain ⟨⟨⟨⟨habs, href⟩, hroot⟩, hsecret⟩, hlen⟩ := h
  have hne : input ≠ [] := by
    rintro rfl
    cases habs
  have hpos : fcPathLen ≠ 0 := by decide
  simp [fcResolveSafeDataPath, hne, href, habs, hroot, hsecret, fcStrlcpy, hlen, hpos]

/-- A relative path below one of the two directory names ends up in that
directory. -/
private theorem relative_writable {name : CStr} (hname : IsName name)
    (hdir : normalise root.dir ++ [name] ∈ writableDirs root) (hstart : startsWith input (name ++ ['/']) = true)
    (href : ['.', '.'] ∉ components input) : Writable root (parent (root.dir ++ '/' :: input)) := by
  obtain ⟨leaf, rfl⟩ := startsWith_iff.mp hstart
  have hleaf : name ++ ['/'] ++ leaf = name ++ '/' :: leaf := by simp
  have hassoc : root.dir ++ '/' :: (name ++ '/' :: leaf) = (root.dir ++ '/' :: name) ++ '/' :: leaf := by
    simp
  rw [hleaf, components_join] at href
  rw [hleaf, hassoc]
  refine ⟨_, hdir, ?_⟩
  rw [← normalise_join_name root.dir hname]
  exact below_parent_join (below_self _) fun hmem => href (mem_append_right _ hmem)

theorem fcResolveSafeDataPath_write (h : fcResolveSafeDataPath root (some input) fcPathLen true = .ok path) :
    (acceptedAbsolute root input = true ∧ path = input) ∨ Writable root (parent path) := by
  obtain ⟨href, hsecret, hlen, ⟨habs, hroot, rfl⟩ | ⟨-, hdata, hdirs⟩⟩ := fcResolveSafeDataPath_cases h
  · left
    simp [acceptedAbsolute, habs, href, hroot, hsecret, hlen]
  right
  obtain ⟨rfl, -, hcomp⟩ := fcDataPath_ok hdata
  rcases hdirs rfl with hstart | hstart
  · exact relative_writable (by decide) mem_cons_self hstart hcomp
  · exact relative_writable (by decide) (mem_cons_of_mem _ mem_cons_self) hstart hcomp

/-! ## The write jail -/

theorem resolved_split {w : Bool} (h : fcResolveSafeDataPath root (some input) fcPathLen w = .ok path) :
    ∃ b, path = parent path ++ '/' :: b ∧ '/' ∉ b ∧ b ≠ ['.', '.'] := by
  have hwhole := (fcResolveSafeDataPath_jailed h).1.whole
  have hslash : '/' ∈ path := by
    rw [hwhole, fullDataPath]
    split
    · rename_i habs
      exact mem_of_mem_head? habs
    · simp
  obtain ⟨b, hsplit, hb⟩ := exists_split_parent hslash
  refine ⟨b, hsplit, hb, ?_⟩
  rintro rfl
  -- The last component of the path is the last component of the argument.
  have hlast : (components path).getLast? = (components input).getLast? := by
    rw [hwhole, fullDataPath]
    split
    · rfl
    · rw [components_join, getLast?_append_of_ne_nil _ (components_ne_nil input)]
  rw [hsplit, components_join, components_of_not_mem hb, getLast?_append_of_ne_nil _ (by simp)] at hlast
  exact no_parent_component (fcResolveSafeDataPath_cases h).1 (mem_of_getLast? hlast.symm)

/-- What a call touches, if it touches anything: the resolved file and its
temporary companion. -/
theorem capFileWriteLimited_touched {cj : CJson} {guarded : Bool} {armed : Ret} {env : WriteOutcome}
    {argsJson : Option CStr} {p : CStr}
    (h : p ∈ FileStore.touched (capFileWriteLimited cj root guarded armed env argsJson).ops) :
    ∃ args text input path, cj.parse (argsJson.getD "\x7b\x7d".toList) = some args ∧
      args.stringMember "text".toList = some text ∧ args.stringMember "path".toList = some input ∧
      fcResolveSafeDataPath root (some input) fcPathLen true = .ok path ∧
      (p = path ∨ p = path ++ ".tmp".toList) := by
  simp only [capFileWriteLimited] at h
  split at h
  · cases h
  rename_i args hargs
  split at h
  · cases h
  rename_i text htext
  split at h
  · cases h
  rename_i path hpath
  obtain ⟨input, hinput⟩ : ∃ input, args.stringMember "path".toList = some input := by
    cases hmem : args.stringMember "path".toList with
    | none => rw [hmem] at hpath; cases hpath
    | some input => exact ⟨input, rfl⟩
  rw [hinput] at hpath
  refine ⟨args, text, input, path, hargs, htext, hinput, hpath, ?_⟩
  split at h
  · cases h
  split at h
  · rename_i ops hops
    exact @fcWriteTextFileAtomic_touched env _ text _ (by rw [hops]; exact h)
  · rename_i e ops hops
    exact @fcWriteTextFileAtomic_touched env _ text _ (by rw [hops]; exact h)

/-- The call writes its temporary file first, whatever comes later. -/
theorem capFileWriteLimited_writes {cj : CJson} {argsJson : Option CStr} {args : Json} {text : CStr}
    (hargs : cj.parse (argsJson.getD "\x7b\x7d".toList) = some args)
    (htext : args.stringMember "text".toList = some text) (hinput : args.stringMember "path".toList = some input)
    (hpath : fcResolveSafeDataPath root (some input) fcPathLen true = .ok path) :
    path ++ ".tmp".toList ∈ FileStore.touched
      (capFileWriteLimited cj root true (.ok ()) .success argsJson).ops := by
  have hlen : ¬ (path ++ ".tmp".toList).length ≥ fcPathLen + 8 := by
    have hfits := (fcResolveSafeDataPath_jailed hpath).1.fits
    have htmp : ".tmp".toList.length = 4 := rfl
    rw [length_append, htmp]
    omega
  simp only [capFileWriteLimited, hargs, htext, hinput, hpath, fcToolGuardArm, if_true,
    fcWriteTextFileAtomic, WriteOutcome.success]
  rw [if_neg hlen]
  simp

theorem writable_tmp_iff (hslash : '/' ∉ b) : Writable root (a ++ '/' :: (b ++ ".tmp".toList)) ↔ Writable root a := by
  have hscripts : ¬ ".tmp".toList <:+ "scripts".toList := by decide
  have hnotes : ¬ ".tmp".toList <:+ "notes".toList := by decide
  simp only [Writable, writableDirs, mem_cons, not_mem_nil, or_false, exists_eq_or_imp,
    exists_eq_left, below_tmp_iff hscripts hslash, below_tmp_iff hnotes hslash]

/-- The jail holds exactly for the calls whose absolute paths are confined. -/
theorem writeJail_iff (cj : CJson) (root : DataRoot) (argsJson : Option CStr) :
    WriteJail cj root argsJson ↔ AbsoluteConfined cj root argsJson := by
  constructor
  · intro hjail args input text hargs htext hinput hacc
    -- When every call succeeds the temporary file is written, so its directory must be writable.
    have hpath := acceptedAbsolute_resolves hacc true
    have htouched := capFileWriteLimited_writes hargs htext hinput hpath
    have htmp := (hjail true (.ok ()) .success).1 _ htouched
    obtain ⟨b, hsplit, hb, -⟩ := resolved_split hpath
    rw [hsplit, append_assoc, cons_append, writable_tmp_iff hb] at htmp
    exact htmp
  intro hconf guarded armed env
  have hfiles : ∀ p ∈ FileStore.touched (capFileWriteLimited cj root guarded armed env argsJson).ops,
      Writable root p := by
    intro p hp
    obtain ⟨args, text, input, path, hargs, htext, hinput, hpath, hp⟩ := capFileWriteLimited_touched hp
    have hparent : Writable root (parent path) := by
      rcases fcResolveSafeDataPath_write hpath with ⟨hacc, rfl⟩ | hdir
      · exact hconf args path text hargs htext hinput hacc
      · exact hdir
    obtain ⟨b, hsplit, hb, hdots⟩ := resolved_split hpath
    rcases hp with rfl | rfl
    · obtain ⟨dir, hdir, hbelow⟩ := hparent
      rw [hsplit]
      exact ⟨dir, hdir, below_of_parent hbelow hdots hb⟩
    · rw [hsplit, append_assoc, cons_append, writable_tmp_iff hb]
      exact hparent
  exact ⟨hfiles, fun fs p hp => FileStore.run_frame fun hmem => hp (hfiles p hmem)⟩

/-- A call with an absolute path replaces the schedule file. -/
theorem writeJail_schedules : ¬ WriteJail JsonText.reference (fcDataDir false)
    (some "\x7b\"path\":\"/data/fruitclaw/schedules.json\",\"text\":\"[]\"\x7d".toList) := by
  intro h
  have hfile := (h true (.ok ()) .success).1 "/data/fruitclaw/schedules.json".toList
    (by decide +kernel)
  exact absurd hfile (by decide +kernel)

end FruitClaw
