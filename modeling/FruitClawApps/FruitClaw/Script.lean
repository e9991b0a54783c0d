-- SUMMARY: Generated scripts: their paths, and that a job runs the scheduled one.
import FruitClawApps.FruitClaw.Agent
import FruitClawApps.FruitClaw.FileWrite
import FruitClawApps.FruitClaw.Scheduler.Life

/-!
# Generated scripts

Scripts of a model live in `scripts/generated`. A tool call names one by its leaf or by a path.
`script.run` runs it at once, and `script.schedule` stores a job whose prompt is a `script.run`
call.
-/

namespace FruitClaw.Script

open LexicalPath Agent Scheduler List

/-! ## Names and kinds -/

/-- `FC_SCRIPT_NAME_MAX`. -/
def nameMax : Nat := 64

/-- `FC_SCRIPT_GENERATED_DIR`. -/
def generatedDir : CStr := "scripts/generated".toList

/-- `FC_SCRIPT_GENERATED_PRE`. -/
def generatedPre : CStr := "scripts/generated/".toList

/-- `fc_script_kind_t`. -/
inductive Kind where
  | auto | berry | shell
deriving DecidableEq

/-- The kind of a name without an extension. -/
def Kind.orBerry : Kind → Kind
  | .auto => .berry
  | kind => kind

def fcScriptLeafOk (leaf : CStr) : Bool :=
  !leaf.isEmpty && leaf.head? != some '.' && !leaf.contains '/' && !leaf.contains '\\' &&
    !strstr leaf "..".toList && decide (leaf.length ≤ nameMax) &&
    leaf.all fun c => isalnum c || c == '_' || c == '-' || c == '.'

def fcScriptKindName : Kind → CStr
  | .shell => "shell".toList
  | _ => "berry".toList

def fcScriptKindExt : Kind → CStr
  | .shell => ".nsh".toList
  | _ => ".be".toList

def fcScriptKindFromArg : Option CStr → Except Errno Kind
  | none => .ok .auto
  | some kind =>
    if kind = [] ∨ kind = "auto".toList then .ok .auto
    else if kind = "berry".toList ∨ kind = "be".toList then .ok .berry
    else if kind = "shell".toList ∨ kind = "nsh".toList ∨ kind = "sh".toList then .ok .shell
    else .error .einval

def fcScriptKindFromLeaf (leaf : CStr) : Option Kind :=
  if ".be".toList <:+ leaf then some .berry
  else if ".nsh".toList <:+ leaf then some .shell
  else none

/-! ## Paths -/

/-- The results of `fc_script_make_paths_kind`. -/
structure Paths where
  leaf : CStr
  rel : CStr
  full : CStr
  kind : Kind
deriving DecidableEq

/-- The leaf that a name or a path stands for. -/
def sourceLeaf (given : CStr) : Except Errno CStr :=
  if startsWith given generatedPre then .ok (given.drop generatedPre.length)
  else if startsWith given "generated/".toList then .ok (given.drop 10)
  else if startsWith given "scripts/".toList ∨ given.head? = some '/' then .error .eacces
  else .ok given

/-- The leaf with its extension, and its kind. The kind that is asked for must be the one of
the extension, or it gives the extension. -/
def nameAndKind (src : CStr) (requested : Kind) : Except Errno (CStr × Kind) :=
  match fcScriptKindFromLeaf src with
  | some found =>
    if requested ≠ .auto ∧ requested ≠ found then .error .einval
    else
      match fcStrlcpy src (nameMax + 4) with
      | .error e => .error e
      | .ok name => .ok (name, found)
  | none =>
    if '.' ∈ src then .error .einval
    else
      let name := src ++ fcScriptKindExt requested.orBerry
      if nameMax + 4 ≤ name.length then .error .enospc else .ok (name, requested.orBerry)

/-- The second half of `fc_script_make_paths_kind`: the directory is made, and the leaf is
put below it. -/
def placeLeaf (root : DataRoot) (mkdir : CStr → Ret) (name : CStr) (kind : Kind) : Except Errno Paths := do
  let dir ← fcDataPath root generatedDir fcPathLen
  mkdir dir
  let rel := generatedPre ++ name
  if fcPathLen ≤ rel.length then .error .enametoolong
  else
    let full ← fcDataPath root rel fcPathLen
    let leaf ← fcStrlcpy name (nameMax + 4)
    .ok ⟨leaf, rel, full, kind⟩

/-- `fc_script_make_paths_kind` with the buffers of its callers. `mkdir` answers
`fc_mkdir_p`. -/
def fcScriptMakePathsKind (root : DataRoot) (mkdir : CStr → Ret) (nameOrPath : Option CStr) (requested : Kind) :
    Except Errno Paths :=
  match nameOrPath with
  | none => .error .einval
  | some given =>
    match sourceLeaf given with
    | .error e => .error e
    | .ok src =>
      if fcScriptLeafOk src = false then .error .einval
      else
        match nameAndKind src requested with
        | .error e => .error e
        | .ok (name, kind) =>
          if fcScriptLeafOk name = false then .error .einval else placeLeaf root mkdir name kind

theorem nameAndKind_ok {src name : CStr} {requested kind : Kind} (h : nameAndKind src requested = .ok (name, kind)) :
    fcScriptKindFromLeaf name = some kind := by
  have hbe : ∀ s : CStr, fcScriptKindFromLeaf (s ++ ".be".toList) = some .berry := fun s => by
    rw [fcScriptKindFromLeaf, if_pos (suffix_append s _)]
  have hnsh : ∀ s : CStr, fcScriptKindFromLeaf (s ++ ".nsh".toList) = some .shell := fun s => by
    have hno : ¬ ".be".toList <:+ s ++ ".nsh".toList := by
      rintro ⟨before, heq⟩
      have hrev := congrArg List.reverse heq
      simp at hrev
    rw [fcScriptKindFromLeaf, if_neg hno, if_pos (suffix_append s _)]
  unfold nameAndKind at h
  split at h
  · rename_i found hfound
    split at h
    · cases h
    split at h
    · cases h
    rename_i copied hcopy
    cases h
    rw [(fcStrlcpy_ok hcopy).1]
    exact hfound
  split at h
  · cases h
  dsimp only at h
  split at h
  · cases h
  cases h
  cases requested with
  | auto | berry => exact hbe src
  | shell => exact hnsh src

/-- What an accepted name leads to. -/
structure Placed (root : DataRoot) (mkdir : CStr → Ret) (paths : Paths) : Prop where
  leafOk : fcScriptLeafOk paths.leaf = true
  kind : fcScriptKindFromLeaf paths.leaf = some paths.kind
  rel : paths.rel = generatedPre ++ paths.leaf
  full : fcDataPath root paths.rel fcPathLen = .ok paths.full
  dir : ∃ dir, fcDataPath root generatedDir fcPathLen = .ok dir ∧ mkdir dir = .ok ()

section

variable {root : DataRoot} {mkdir : CStr → Ret} {paths : Paths}

theorem placeLeaf_ok {name : CStr} {kind : Kind} (h : placeLeaf root mkdir name kind = .ok paths) :
    paths.leaf = name ∧ paths.kind = kind ∧ paths.rel = generatedPre ++ name ∧
      fcDataPath root paths.rel fcPathLen = .ok paths.full ∧
      ∃ dir, fcDataPath root generatedDir fcPathLen = .ok dir ∧ mkdir dir = .ok () := by
  unfold placeLeaf at h
  obtain ⟨dir, hdir, h⟩ := Except.bind_eq_ok_iff.mp h
  obtain ⟨⟨⟩, hmkdir, h⟩ := Except.bind_eq_ok_iff.mp h
  dsimp only at h
  split at h
  · cases h
  obtain ⟨full, hfull, h⟩ := Except.bind_eq_ok_iff.mp h
  obtain ⟨leaf, hleaf, h⟩ := Except.bind_eq_ok_iff.mp h
  cases h
  exact ⟨(fcStrlcpy_ok hleaf).1, rfl, rfl, hfull, dir, hdir, hmkdir⟩

theorem fcScriptMakePathsKind_ok {nameOrPath : Option CStr} {requested : Kind}
    (h : fcScriptMakePathsKind root mkdir nameOrPath requested = .ok paths) : Placed root mkdir paths := by
  unfold fcScriptMakePathsKind at h
  split at h
  · cases h
  split at h
  · cases h
  split at h
  · cases h
  split at h
  · cases h
  rename_i name kind hname
  split at h
  · cases h
  rename_i hleaf
  obtain ⟨rfl, rfl, hrel, hfull, hdir⟩ := placeLeaf_ok h
  exact ⟨by simpa using hleaf, nameAndKind_ok hname, hrel, hfull, hdir⟩

theorem leafOk_length {leaf : CStr} (h : fcScriptLeafOk leaf = true) : leaf.length ≤ nameMax := by
  simp only [fcScriptLeafOk, Bool.and_eq_true, decide_eq_true_eq] at h
  exact h.1.2

theorem leafOk_isName {leaf : CStr} (h : fcScriptLeafOk leaf = true) : IsName leaf := by
  simp only [fcScriptLeafOk, Bool.and_eq_true, Bool.not_eq_true', isEmpty_eq_false_iff, bne_iff_ne,
    contains_eq_mem, decide_eq_false_iff_not] at h
  obtain ⟨⟨⟨⟨⟨⟨hne, hdot⟩, hslash⟩, -⟩, -⟩, -⟩, -⟩ := h
  refine ⟨hslash, hne, ?_, ?_⟩
  all_goals
    rintro rfl
    exact hdot rfl

/-- The relative path of a script leads back to the script. -/
theorem fcScriptMakePathsKind_rel (h : Placed root mkdir paths) {requested : Kind}
    (hkind : requested = .auto ∨ requested = paths.kind) :
    fcScriptMakePathsKind root mkdir (some paths.rel) requested = .ok paths := by
  have hsource : sourceLeaf paths.rel = .ok paths.leaf := by
    rw [h.rel, sourceLeaf, if_pos (startsWith_iff.mpr (prefix_append _ _)), drop_left]
  have hlen := leafOk_length h.leafOk
  have hcopy : fcStrlcpy paths.leaf (nameMax + 4) = .ok paths.leaf := by
    rw [fcStrlcpy, if_neg (by omega), if_pos (by omega)]
  have hname : nameAndKind paths.leaf requested = .ok (paths.leaf, paths.kind) := by
    have hagree : ¬ (requested ≠ .auto ∧ requested ≠ paths.kind) := by
      rintro ⟨hauto, hother⟩
      exact hkind.elim hauto hother
    rw [nameAndKind, h.kind]
    dsimp only
    rw [if_neg hagree, hcopy]
  have hplace : placeLeaf root mkdir paths.leaf paths.kind = .ok paths := by
    obtain ⟨dir, hdir, hmkdir⟩ := h.dir
    have hrelLen : ¬ fcPathLen ≤ (generatedPre ++ paths.leaf).length := by
      have hpre : generatedPre.length = 18 := by decide
      rw [length_append, hpre]
      unfold fcPathLen nameMax at *
      omega
    have hfull := h.full
    rw [h.rel] at hfull
    simp only [placeLeaf, hdir, hmkdir, hfull, hcopy, if_neg hrelLen, bind, Except.bind]
    rw [← h.rel]
  simp only [fcScriptMakePathsKind, hsource, hname, hplace, h.leafOk, Bool.true_eq_false, if_false]

/-- The components of the directory of the generated scripts. -/
def generatedComponents (root : DataRoot) : List (List Char) :=
  normalise root.dir ++ ["scripts".toList, "generated".toList]

theorem normalise_full (h : Placed root mkdir paths) :
    normalise paths.full = generatedComponents root ++ [paths.leaf] := by
  have hpath : paths.full =
      ((root.dir ++ '/' :: "scripts".toList) ++ '/' :: "generated".toList) ++ '/' :: paths.leaf := by
    have hpre : generatedPre = "scripts".toList ++ '/' :: "generated".toList ++ ['/'] := by decide
    rw [(fcDataPath_ok h.full).1, h.rel, hpre]
    simp only [append_assoc, cons_append, nil_append]
  rw [hpath, normalise_join_name _ (leafOk_isName h.leafOk), normalise_join_name _ (by decide),
    normalise_join_name _ (by decide), generatedComponents]
  simp only [append_assoc, cons_append, nil_append]

theorem ext_suffix {leaf : CStr} {kind : Kind} (h : fcScriptKindFromLeaf leaf = some kind) :
    kind ≠ .auto ∧ fcScriptKindExt kind <:+ leaf := by
  unfold fcScriptKindFromLeaf at h
  split at h
  · cases h
    exact ⟨nofun, ‹_›⟩
  split at h
  · cases h
    exact ⟨nofun, ‹_›⟩
  · cases h

end

/-! ## Arguments -/

/-- `{"ok":false,"error":"…"}`. -/
def errorReply (error : String) : CStr := "\x7b\"ok\":false,\"error\":\"".toList ++ error.toList ++ "\"\x7d".toList

/-- What `script.run` and `script.schedule` read from their arguments. -/
structure Request where
  name : Option CStr
  kindArg : Option CStr
  args : CStr

def request (doc : Json) : Request where
  name := (doc.stringMember "name".toList).or (doc.stringMember "path".toList)
  kindArg := doc.stringMember "kind".toList
  args := (doc.stringMember "args_json".toList).getD noArgs

variable (cj : CJson) (root : DataRoot) (env : FsEnv)

/-- `fc_script_validate_args_json`: the error and the reply if the arguments are refused. -/
def fcScriptValidateArgsJson (args : CStr) : Except (Errno × CStr) Unit :=
  if args = [] then .ok ()
  else if 512 < args.length then .error (.enospc, errorReply "script args too large")
  else
    match cj.parse args with
    | none => .error (.einval, errorReply "script args invalid JSON")
    | some _ => .ok ()

/-- The file system as a call meets it: `fc_mkdir_p` and `access`. -/
structure FsEnv where
  mkdir : CStr → Ret
  present : CStr → Bool

def resolve (req : Request) : Except Errno Paths :=
  match fcScriptKindFromArg req.kindArg with
  | .error e => .error e
  | .ok requested => fcScriptMakePathsKind root env.mkdir req.name requested

/-- `fc_ctx_owner`. -/
def fcCtxOwner (ctx : Option ToolCallContext) : Bool := ctx.any (·.ownerMode)

/-! ## Running a script -/

/-- `cap_script_run` up to the run: the script and its arguments, or the error and the
reply. -/
def scriptCall (ctx : Option ToolCallContext) (argsJson : Option CStr) : Except (Errno × CStr) (Paths × CStr) :=
  if fcCtxOwner ctx = false then .error (.eacces, errorReply "owner required")
  else
    match cj.parse (argsJson.getD noArgs) with
    | none => .error (.einval, errorReply "invalid JSON")
    | some doc =>
      match fcScriptValidateArgsJson cj (request doc).args with
      | .error refused => .error refused
      | .ok () =>
        match resolve root env (request doc) with
        | .error e => .error (e, errorReply "script denied")
        | .ok paths =>
          if env.present paths.full then .ok (paths, (request doc).args)
          else .error (.enoent, errorReply "script missing")

/-- What a tool leaves in its output buffer, and its return value if the text is cut. -/
def reported (outLen : Nat) (ret : Ret) (text : CStr) : Ret × CStr :=
  match fcStrlcpy text outLen with
  | .ok _ => (ret, text)
  | .error _ => (.error .enospc, cut outLen text)

/-- The members of a reply that only a failure has. -/
def failureMembers (error : String) : Ret → List (CStr × Json)
  | .ok () => []
  | .error e => [("error".toList, .str error.toList), ("code".toList, .num (-(e.number : Int)))]

/-- `cap_script_run`. The function answers `fc_script_run_generated` for the script and its
arguments. -/
def capScriptRun (run : Paths → CStr → Ret × CStr)
    (ctx : Option ToolCallContext) (argsJson : Option CStr) (outLen : Nat) : Ret × CStr :=
  match scriptCall cj root env ctx argsJson with
  | .error (e, reply) => (.error e, cut outLen reply)
  | .ok (paths, args) =>
    let (ret, output) := run paths args
    let result :=
      match cj.parse output with
      | some doc => ("result".toList, doc)
      | none => ("output".toList, .str output)
    let reply : Json :=
      .obj
        ([("ok".toList, .bool (ret == .ok ())), ("name".toList, .str paths.leaf), ("path".toList, .str paths.rel),
          ("kind".toList, .str (fcScriptKindName paths.kind)), result] ++ failureMembers "script run failed" ret)
    reported outLen ret (cj.print reply)

/-! ## Scheduling a script -/

/-- What `script.schedule` meets. -/
structure Env extends FsEnv where
  /-- The clock and the counter of `fc_make_id`. -/
  idMs : Int
  seq : Nat
  /-- The clock when a delay is added to it. -/
  timeMs : Int64
  /-- The answer of `fc_guard_arm`. -/
  armed : Ret
  op : OpEnv

/-- What `script.schedule` returns, replies, and leaves behind. -/
structure Result where
  ret : Ret
  reply : CStr
  table : JobTable
  ops : List FileOp

/-- The id of the job: the one that was given, or a new one. -/
def jobId (env : Env) (doc : Json) : CStr :=
  match doc.stringMember "id".toList with
  | none | some [] =>
    (CBuf.copy 48 ("script".toList ++ '-' :: formatInt env.idMs ++ '-' :: Nat.toDigits 10 env.seq)).str
  | some id => id

/-- The arguments of the `script.run` call that the job makes. -/
def runArgs (paths : Paths) (args : CStr) : Json :=
  .obj
    [("path".toList, .str paths.rel), ("kind".toList, .str (fcScriptKindName paths.kind)),
      ("args_json".toList, .str args)]

/-- The time of a one-shot job, zero if there is none. -/
def onceEpoch (env : Env) (doc : Json) : Int64 :=
  match doc.numberMember "at_epoch".toList, doc.numberMember "after_sec".toList with
  | some v, _ => .ofInt (Json.int64OfDouble v)
  | none, some v => if 0 < v then env.timeMs / 1000 + .ofInt (Json.int64OfDouble v) else 0
  | none, none => 0

/-- The call into the scheduler for the type of the schedule. -/
def scheduleOp (env : Env) (doc : Json) (type id prompt : CStr) (ctx : Option ToolContext) : Except Errno Op :=
  if type = "interval".toList then
    match doc.numberMember "every_sec".toList with
    | none => .error .einval
    | some v => if 0 < v then .ok (.addInterval (some id) (uint32OfDouble v) (some prompt) ctx) else .error .einval
  else if type = "cron".toList then
    match doc.stringMember "expr".toList with
    | none => .error .einval
    | some expr => .ok (.addCron (some id) (some expr) (some prompt) ctx)
  else if type = "once".toList then
    if onceEpoch env doc > 0 then .ok (.addOnce (some id) (onceEpoch env doc) (some prompt) ctx)
    else .error .einval
  else if type = "boot".toList then .ok (.addBoot (some id) (some prompt) ctx)
  else .error .einval

/-- The prompt of the job. -/
def runPrompt (paths : Paths) (args : CStr) : CStr :=
  toolPrompt "script.run".toList (cj.print (runArgs paths args))

section

variable (cj : CJson) (root : DataRoot) (env : Env) (ctx : Option ToolCallContext) (t : JobTable)

/-- `cap_script_schedule` up to the call into the scheduler: the script, its arguments and
the job, or the error and the reply. -/
def schedulePlan (argsJson : Option CStr) : Except (Errno × CStr) (Json × CStr × Paths) :=
  if fcCtxOwner ctx = false then .error (.eacces, errorReply "owner required")
  else
    match cj.parse (argsJson.getD noArgs) with
    | none => .error (.einval, errorReply "invalid JSON")
    | some doc =>
      match doc.stringMember "type".toList with
      | none => .error (.einval, errorReply "missing type")
      | some type =>
        match fcScriptValidateArgsJson cj (request doc).args with
        | .error refused => .error refused
        | .ok () =>
          match resolve root env.toFsEnv (request doc) with
          | .error e => .error (e, errorReply "script missing")
          | .ok paths =>
            if env.present paths.full = false then .error (.enoent, errorReply "script missing")
            else if fcMaxEventText ≤ (runPrompt cj paths (request doc).args).length then
              .error (.enospc, errorReply "schedule prompt too large")
            else
              match fcToolGuardArm (ctx.any (·.guarded)) env.armed with
              | .error e =>
                .error (e, "\x7b\"ok\":false,\"error\":\"scheduler guard unavailable\",\"code\":".toList ++
                  formatInt (-e.number) ++ "\x7d".toList)
              | .ok () => .ok (doc, type, paths)

/-- The call into the scheduler. A schedule that is not complete fails without one. -/
def storeJob (doc : Json) (type : CStr) (paths : Paths) : OpResult :=
  match scheduleOp env doc type (jobId env doc) (runPrompt cj paths (request doc).args)
      (ctx.map (·.toToolContext)) with
  | .error e => ⟨.error e, t, []⟩
  | .ok op => op.exec cj root env.op t

/-- `cap_script_schedule`. -/
def capScriptSchedule (argsJson : Option CStr) (outLen : Nat) : Result :=
  match schedulePlan cj root env ctx argsJson with
  | .error (e, reply) => ⟨.error e, cut outLen reply, t, []⟩
  | .ok (doc, type, paths) =>
    let r := storeJob cj root env ctx t doc type paths
    let reply : Json :=
      .obj
        ([("ok".toList, .bool (r.ret == .ok ())), ("id".toList, .str (CBuf.copy 48 (jobId env doc)).str),
          ("script".toList, .str paths.rel), ("kind".toList, .str (fcScriptKindName paths.kind)),
          ("type".toList, .str (type.take 15))] ++ failureMembers "script schedule failed" r.ret)
    let (ret, text) := reported outLen r.ret (cj.print reply)
    ⟨ret, text, r.table, r.ops⟩

end

/-! ## The call that a job makes -/

section

variable {cj : CJson} {root : DataRoot} {env : Env} {ctx : Option ToolCallContext} {t : JobTable}

theorem scheduleOp_ok {doc : Json} {type id prompt : CStr} {ctx : Option ToolContext} {op : Op}
    (h : scheduleOp env doc type id prompt ctx = .ok op) :
    op.added = some id ∧ op.prompt = some prompt ∧ op.ownerMode = ctx.any (·.ownerMode) := by
  unfold scheduleOp at h
  repeat' split at h
  all_goals cases h
  all_goals exact ⟨rfl, rfl, rfl⟩

theorem schedulePlan_ok {argsJson : Option CStr} {doc : Json} {type : CStr} {paths : Paths}
    (h : schedulePlan cj root env ctx argsJson = .ok (doc, type, paths)) :
    fcCtxOwner ctx = true ∧ cj.parse (argsJson.getD noArgs) = some doc ∧
      fcScriptValidateArgsJson cj (request doc).args = .ok () ∧
      resolve root env.toFsEnv (request doc) = .ok paths ∧
      (runPrompt cj paths (request doc).args).length < fcMaxEventText := by
  unfold schedulePlan at h
  split at h
  · cases h
  rename_i howner
  split at h
  · cases h
  rename_i doc' hdoc
  split at h
  · cases h
  split at h
  · cases h
  rename_i hargs
  split at h
  · cases h
  rename_i paths' hpaths
  split_ifs at h
  split at h
  · cases h
  cases h
  exact ⟨by simpa using howner, hdoc, hargs, hpaths, by omega⟩

theorem reported_ok {outLen : Nat} {ret : Ret} {text : CStr} (h : (reported outLen ret text).1 = .ok ()) :
    ret = .ok () := by
  unfold reported at h
  split at h
  · exact h
  · cases h

/-- A schedule that is accepted stores a job whose prompt is the `script.run` call. -/
theorem capScriptSchedule_ok {argsJson : Option CStr} {outLen : Nat}
    (h : (capScriptSchedule cj root env ctx t argsJson outLen).ret = .ok ()) :
    ∃ doc type paths, schedulePlan cj root env ctx argsJson = .ok (doc, type, paths) ∧
      Stores t (capScriptSchedule cj root env ctx t argsJson outLen).table (jobId env doc)
        (runPrompt cj paths (request doc).args) true ∧
      Written cj root (capScriptSchedule cj root env ctx t argsJson outLen).table
        (capScriptSchedule cj root env ctx t argsJson outLen).ops := by
  unfold capScriptSchedule at h ⊢
  split at h
  · cases h
  rename_i doc type paths hplan
  have hok := reported_ok h
  refine ⟨doc, type, paths, hplan, ?_⟩
  unfold storeJob at hok ⊢
  split at hok
  · cases hok
  rename_i op hop
  obtain ⟨hid, hprompt, howner⟩ := scheduleOp_ok hop
  obtain ⟨⟨prompt, hp, hstores⟩, hwritten⟩ := exec_stores hid hok
  rw [hprompt] at hp
  cases hp
  have htrue : op.ownerMode = true := by
    have hctx := (schedulePlan_ok hplan).1
    cases ctx with
    | none => cases hctx
    | some ctx => exact howner.trans hctx
  rw [htrue] at hstores
  exact ⟨hstores, hwritten⟩

end

/-- The directory of the scripts can be made, and the script is there. -/
structure Ready (root : DataRoot) (env : FsEnv) (paths : Paths) : Prop where
  mkdir : ∀ dir, fcDataPath root generatedDir fcPathLen = .ok dir → env.mkdir dir = .ok ()
  present : env.present paths.full = true

/-- The event makes the agent call `script.run`, the call is allowed, and it runs the script
with the arguments. -/
structure Fires (cj : CJson) (root : DataRoot) (paths : Paths) (args : CStr) (ev : Event) : Prop where
  turn : ∀ agent iterations replyLen, replyLen ≠ 0 →
    ⟨"tool".toList, some "script.run".toList,
      (fcCapExecuteCtx agent.caps (agent.execute 0) (some (scheduledContext ev)) "script.run".toList
        (some (cj.print (runArgs paths args)))).2⟩ ∈ (fcAgentHandleEvent cj agent iterations ev replyLen).session
  allowed : ∀ caps cap, fcCapFind caps "script.run".toList = some cap →
    fcCapAccess caps (some (scheduledContext ev)) "script.run".toList (some (cj.print (runArgs paths args))) =
      .ok (cap, cj.print (runArgs paths args))
  call : ∀ env, Ready root env paths →
    scriptCall cj root env (some (scheduledContext ev)) (some (cj.print (runArgs paths args))) = .ok (paths, args)

theorem kindFromArg_kindName {kind : Kind} (h : kind ≠ .auto) :
    fcScriptKindFromArg (some (fcScriptKindName kind)) = .ok kind := by
  cases kind with
  | auto => exact absurd rfl h
  | berry | shell => decide

section

variable {cj : CJson} {root : DataRoot} {paths : Paths} {args : CStr}

theorem request_runArgs (paths : Paths) (args : CStr) :
    request (runArgs paths args) = ⟨some paths.rel, some (fcScriptKindName paths.kind), args⟩ := rfl

/-- The call that the job keeps leads to the script that was resolved when it was stored. -/
theorem scriptCall_runArgs {mkdir : CStr → Ret} (hplaced : Placed root mkdir paths)
    (hargs : fcScriptValidateArgsJson cj args = .ok ()) {ctx : ToolCallContext} (howner : ctx.ownerMode = true)
    {env : FsEnv} (hready : Ready root env paths) :
    scriptCall cj root env (some ctx) (some (cj.print (runArgs paths args))) = .ok (paths, args) := by
  have hparse : cj.parse (cj.print (runArgs paths args)) = some (runArgs paths args) := by
    refine cj.parse_print _ ?_
    simp [runArgs, Json.Whole, Json.WholeMembers]
  have hagain : Placed root env.mkdir paths := by
    obtain ⟨dir, hdir, -⟩ := hplaced.dir
    exact ⟨hplaced.leafOk, hplaced.kind, hplaced.rel, hplaced.full, dir, hdir, hready.mkdir dir hdir⟩
  have hresolve : resolve root env ⟨some paths.rel, some (fcScriptKindName paths.kind), args⟩ = .ok paths := by
    simp only [resolve, kindFromArg_kindName (ext_suffix hplaced.kind).1]
    exact fcScriptMakePathsKind_rel hagain (.inr rfl)
  have hctx : fcCtxOwner (some ctx) = true := howner
  simp only [scriptCall, hctx, Option.getD_some, hparse, request_runArgs, hargs, hresolve, hready.present,
    Bool.true_eq_false, if_false, if_true]

theorem resolve_placed {env : FsEnv} {req : Request} (h : resolve root env req = .ok paths) :
    Placed root env.mkdir paths := by
  unfold resolve at h
  split at h
  · cases h
  · exact fcScriptMakePathsKind_ok h

end

section

variable (cj : CJsonUnformatted) (root : DataRoot)

/-- The prompt stands for the call that it was made from. -/
theorem directTool_runPrompt (paths : Paths) (args : CStr) :
    directTool (runPrompt cj.toCJson paths args) = some ("script.run".toList, cj.print (runArgs paths args)) := by
  obtain ⟨rest, hprint⟩ := cj.print_obj
    [("path".toList, .str paths.rel), ("kind".toList, .str (fcScriptKindName paths.kind)),
      ("args_json".toList, .str args)]
  have hskip : skipSpace (cj.print (runArgs paths args)) = cj.print (runArgs paths args) := by
    rw [runArgs, hprint]
    exact skipSpace_cons (by decide) rest
  have hne : skipSpace (cj.print (runArgs paths args)) ≠ [] := by
    rw [hskip, runArgs, hprint]
    exact cons_ne_nil _ _
  rw [runPrompt, directTool_toolPrompt (by decide) (isspace_of_any (by decide)) (by decide) hne, hskip]

/-- An event that carries the prompt of a job with owner rights makes the call. -/
theorem fires_of_prompt {mkdir : CStr → Ret} {paths : Paths} {args : CStr} (hplaced : Placed root mkdir paths)
    (hargs : fcScriptValidateArgsJson cj.toCJson args = .ok ()) {ev : Event} (hfire : isTimerFire ev = true)
    (htext : ev.text.str = runPrompt cj.toCJson paths args) (howner : ev.ownerMode = true) :
    Fires cj.toCJson root paths args ev := by
  have htool := htext ▸ directTool_runPrompt cj paths args
  have hctx : (scheduledContext ev).ownerMode = true := howner
  refine ⟨fun agent iterations replyLen hlen => ?_, fun caps cap hfind => ?_, fun env hready => ?_⟩
  · exact handleEvent_runs cj.toCJson agent iterations hfire htool (by decide) hlen
  · rw [fcCapAccess, hfind]
    simp [hctx]
  · exact scriptCall_runArgs hplaced hargs hctx hready

/-- The scheduler after a call of `script.schedule` and after what happened then. -/
def later (env : Env) (ctx : Option ToolCallContext) (t : JobTable) (argsJson : Option CStr) (outLen : Nat)
    (files : FileStore) (ls : List Happening) : State :=
  let r := capScriptSchedule cj.toCJson root env ctx t argsJson outLen
  Transition.run (happen cj.toCJson root) (.start r.table (FileStore.run files r.ops)) ls

/-- A call has stored a job in the table and in the file. Its prompt is parsed to the `script.run`
call with the path and the arguments, and every later event of the job runs the script that the call
resolved with them. -/
def RunsAsScheduled (env : Env) (ctx : Option ToolCallContext) (t : JobTable) (argsJson : Option CStr)
    (outLen : Nat) : Prop :=
  let r := capScriptSchedule cj.toCJson root env ctx t argsJson outLen
  ∃ doc paths prompt, cj.parse (argsJson.getD noArgs) = some doc ∧
    resolve root env.toFsEnv (request doc) = .ok paths ∧
    Stores t r.table (jobId env doc) prompt true ∧ Written cj.toCJson root r.table r.ops ∧
    directTool (CBuf.copy 1024 prompt).str =
      some ("script.run".toList, cj.print (runArgs paths (request doc).args)) ∧
    ∀ files ls e, (∀ l ∈ ls, l.Elsewhere (.copy 48 (jobId env doc))) →
      e ∈ (later cj root env ctx t argsJson outLen files ls).emitted → e.Names (.copy 48 (jobId env doc)) →
      Fires cj.toCJson root paths (request doc).args e.event ∨
        FromElder t r.table (jobId env doc) e

/-- The script lies in the directory of the generated scripts with the extension of its kind,
and its relative path stands for the same script again. -/
structure WellPlaced (mkdir : CStr → Ret) (paths : Paths) : Prop where
  below : normalise paths.full = generatedComponents root ++ [paths.leaf]
  ext : paths.kind ≠ .auto ∧ fcScriptKindExt paths.kind <:+ paths.full
  again : ∀ requested, requested = .auto ∨ requested = paths.kind →
    fcScriptMakePathsKind root mkdir (some paths.rel) requested = .ok paths

/-- An accepted schedule runs what was scheduled, and every accepted name is well placed. -/
theorem schedule_round_trip :
    (∀ env ctx t argsJson outLen, (capScriptSchedule cj.toCJson root env ctx t argsJson outLen).ret = .ok () →
      RunsAsScheduled cj root env ctx t argsJson outLen) ∧
    ∀ mkdir nameOrPath requested paths, fcScriptMakePathsKind root mkdir nameOrPath requested = .ok paths →
      WellPlaced root mkdir paths := by
  refine ⟨fun env ctx t argsJson outLen hok => ?_, fun mkdir nameOrPath requested paths hpaths => ?_⟩
  · obtain ⟨doc, type, paths, hplan, hstores, hwritten⟩ := capScriptSchedule_ok hok
    obtain ⟨-, hdoc, hargs, hresolve, hlen⟩ := schedulePlan_ok hplan
    have hfits := CBuf.copy_str_of_lt (n := 1024) hlen
    refine ⟨doc, paths, _, hdoc, hresolve, hstores, hwritten, ?_, fun files ls e hls he hnames => ?_⟩
    · rw [hfits]
      exact directTool_runPrompt cj paths _
    rcases events_of_stored hstores hwritten files hls he hnames with ⟨slot, job, hevent, hprompt, howner⟩ | hold
    · left
      have htext : e.event.text.str = runPrompt cj.toCJson paths (request doc).args := by
        rw [hevent, ← hfits, ← hprompt]
        rfl
      have hfire : isTimerFire e.event = true := by
        rw [hevent]
        rfl
      have hmode : e.event.ownerMode = true := by
        rw [hevent]
        exact howner
      exact fires_of_prompt cj root (resolve_placed hresolve) hargs hfire htext hmode
    · exact .inr hold
  · have hplaced := fcScriptMakePathsKind_ok hpaths
    obtain ⟨hkind, hext⟩ := ext_suffix hplaced.kind
    refine ⟨normalise_full hplaced, ⟨hkind, hext.trans ?_⟩, fun requested => fcScriptMakePathsKind_rel hplaced⟩
    rw [(fcDataPath_ok hplaced.full).1, hplaced.rel]
    exact ⟨root.dir ++ '/' :: generatedPre, by simp⟩

end

/-- The arguments that schedule the script `ui` at every start of the board. -/
def uiDoc : Json :=
  .obj [("name".toList, .str "ui".toList), ("type".toList, .str "boot".toList), ("id".toList, .str "ui".toList)]

/-- A board where nothing fails and every file is there. -/
def quietEnv : Env := ⟨⟨fun _ => .ok (), fun _ => true⟩, 0, 0, 0, .ok (), fineEnv⟩

/-- The event that the job fires at the next start. -/
def uiEvent : Emission :=
  fcEmitSchedule 0 none idleSlot
    { Job.fresh with
      type := .boot
      id := .copy 48 "ui".toList
      prompt := .copy 1024 ("tool:script.run \x7b\"path\":\"scripts/generated/ui.be\",\"kind\":\"berry\"," ++
        "\"args_json\":\"\x7b\x7d\"\x7d").toList
      channel := .copy 24 "cli".toList
      sessionId := .copy 64 "cli".toList
      ownerMode := true }

theorem schedule_round_trip_ui :
    ∃ paths, Fires JsonText.reference (fcDataDir false) paths noArgs uiEvent.event := by
  let ctx := some (fcToolContextLocal true)
  let argsJson := some (JsonText.print uiDoc)
  have hok : (capScriptSchedule JsonText.reference (fcDataDir false) quietEnv ctx .empty argsJson 8192).ret =
      .ok () := by
    decide +kernel
  obtain ⟨doc, paths, -, hdoc, -, -, -, -, hfires⟩ :=
    (schedule_round_trip JsonText.unformatted (fcDataDir false)).1 quietEnv ctx .empty argsJson 8192 hok
  have hwhole : uiDoc.Whole := by simp [uiDoc, Json.Whole, Json.WholeMembers]
  have hparse : JsonText.unformatted.parse (argsJson.getD noArgs) = some uiDoc :=
    JsonText.reference.parse_print uiDoc hwhole
  cases hdoc.symm.trans hparse
  have hargs : (request uiDoc).args = noArgs := by decide
  have hstart : uiEvent ∈ (later JsonText.unformatted (fcDataDir false) quietEnv ctx .empty argsJson 8192
      (fun _ => none) [.reset, .load none 0, .boot (.ok ()) fun _ => idleSlot]).emitted := by
    decide +kernel
  rcases hfires (fun _ => none) _ uiEvent (by simp [Happening.Elsewhere]) hstart (by decide) with
    hfire | ⟨hcut, -⟩
  · exact ⟨paths, hfire⟩
  · exact absurd hcut (by decide)

theorem scriptCall_ok {cj : CJson} {root : DataRoot} {env : FsEnv} {ctx : Option ToolCallContext}
    {argsJson : Option CStr} {paths : Paths} {args : CStr}
    (h : scriptCall cj root env ctx argsJson = .ok (paths, args)) :
    fcCtxOwner ctx = true ∧ ∃ req, resolve root env req = .ok paths ∧ env.present paths.full = true := by
  unfold scriptCall at h
  split at h
  · cases h
  rename_i howner
  split at h
  · cases h
  split at h
  · cases h
  split at h
  · cases h
  rename_i doc _ _ _ paths' hresolve
  split at h
  · rename_i hpresent
    cases h
    exact ⟨by simpa using howner, _, hresolve, hpresent⟩
  · cases h

/-- A script is run only for an owner, and only from the directory of the generated scripts. -/
theorem capScriptRun_inside (cj : CJson) (root : DataRoot) (env : FsEnv) (run other : Paths → CStr → Ret × CStr)
    (ctx : Option ToolCallContext) (argsJson : Option CStr) (outLen : Nat) :
    capScriptRun cj root env run ctx argsJson outLen = capScriptRun cj root env (fun paths args =>
      if fcCtxOwner ctx ∧ normalise paths.full = generatedComponents root ++ [paths.leaf] ∧ env.present paths.full
      then run paths args else other paths args) ctx argsJson outLen := by
  rw [capScriptRun, capScriptRun]
  split
  · rfl
  · rename_i paths args hcall
    obtain ⟨howner, req, hresolve, hpresent⟩ := scriptCall_ok hcall
    rw [if_pos ⟨howner, normalise_full (resolve_placed hresolve), hpresent⟩]

end FruitClaw.Script
