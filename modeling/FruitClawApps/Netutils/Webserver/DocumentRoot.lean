-- SUMMARY: Exactly when the web server opens a file inside its root.
import FruitClawApps.Lib.LexicalPath
import FruitClawApps.Netutils.Webserver.Handler

/-!
# The document root

The path of a file is the root and the name of the request. Nothing looks at the name, so it can
lead out of the root, and without a slash in front it is the rest of the last component. The names
of indices and error pages are cut. A path that is too long is refused, unless it is too long by
one.
-/

namespace Netutils.Webserver

open Bytes LexicalPath Socket List

section

variable (cfg : Config) (site : Site)

/-- The name of what is looked for, however long it is. -/
def wantedName (name : CStr) : Route → CStr
  | .name => withoutSlash name
  | .index => withoutSlash name ++ '/' :: cfg.index.getD []

/-- The file that is opened to answer a request, with its name. -/
def Reply.opened (target : CStr) : Reply → Option (CStr × File)
  | .cgi _ => none
  | .script route found => some (wantedName cfg target route, found)
  | .file route found => some (wantedName cfg target route, found)
  | .errorPage status page => page.map fun found => (wantedName cfg (errorName site status) found.1, found.2)
  | .undefined => none

end

variable {cfg : Config} {site : Site} {n : Nat} {buffer : List Char} {filename name path : CStr} {c : Conn Char}
  {e : Exchange} {route : Route} {file : File}

/-! ## Opening a file -/

theorem rooted_ok (h : rooted site name = .ok path) :
    path = (site.root ++ name).take (site.pathMax - 1) ∧ (site.root ++ name).length ≤ site.pathMax := by
  unfold rooted at h
  split at h
  · cases h
  rename_i hlength
  cases h
  exact ⟨rfl, Nat.le_of_not_lt hlength⟩

theorem httpdOpen_path (h : httpdOpen cfg site name = .ok file) (hpath : file.path = some path) :
    path = (site.root ++ name).take (site.pathMax - 1) ∧ (site.root ++ name).length ≤ site.pathMax := by
  unfold httpdOpen at h
  split at h
  · unfold httpdFsOpen at h
    split at h
    · cases h
      cases hpath
    · cases h
  · unfold httpdMmapOpen at h
    split at h
    · cases h
    rename_i hrooted
    split at h
    · cases h
    split_ifs at h
    cases h
    cases hpath
    exact rooted_ok hrooted
  · unfold httpdSendfileOpen at h
    split at h
    · cases h
    rename_i hrooted
    split at h
    · cases h
    split_ifs at h
    cases h
    cases hpath
    exact rooted_ok hrooted

theorem length_withoutSlash (name : CStr) : (withoutSlash name).length ≤ name.length := by
  unfold withoutSlash
  split
  · rw [length_dropLast]
    omega
  · exact Nat.le_refl _

theorem withoutSlash_errorName (site : Site) (status : Nat) :
    withoutSlash (errorName site status) = errorName site status := by
  have hlast : (errorName site status).getLast? = some 'l' := by
    rw [errorName, getLast?_append]
    rfl
  rw [withoutSlash, if_neg]
  rw [hlast]
  decide

/-- What a name is opened for: itself, if it fits. -/
def OpenedFor (cfg : Config) (site : Site) (name : CStr) (file : File) : Prop :=
  ∃ given, httpdOpen cfg site given = .ok file ∧ given.length < cfg.maxFilename ∧
    (name.length < cfg.maxFilename → given = name)

theorem httpdOpenindex_opened (hlength : filename.length < cfg.maxFilename)
    (h : (httpdOpenindex cfg site filename).1 = .ok (route, file)) :
    OpenedFor cfg site (wantedName cfg filename route) file := by
  unfold httpdOpenindex at h
  dsimp only at h
  split at h
  · rename_i index _ hindex
    cases hopen : httpdOpen cfg site ((withoutSlash filename ++ '/' :: index).take (cfg.maxFilename - 1)) with
    | error e =>
      rw [hopen] at h
      cases h
    | ok found =>
      rw [hopen] at h
      cases h
      refine ⟨_, hopen, ?_, fun hfit => ?_⟩
      · rw [length_take]
        omega
      · rw [wantedName, hindex, Option.getD_some] at hfit ⊢
        exact take_of_length_le (by omega)
  · cases hopen : httpdOpen cfg site (withoutSlash filename) with
    | error e =>
      rw [hopen] at h
      cases h
    | ok found =>
      rw [hopen] at h
      cases h
      exact ⟨_, hopen, Nat.lt_of_le_of_lt (length_withoutSlash filename) hlength, fun _ => rfl⟩

/-- An error page has a name that may be cut before it is looked for. -/
theorem httpdSenderror_opened {target : CStr} {status : Nat} {keepalive : Bool} (hpos : 0 < cfg.maxFilename)
    (h : (httpdSenderror cfg site status keepalive).reply.opened cfg site target = some (name, file)) :
    OpenedFor cfg site name file := by
  unfold httpdSenderror at h
  dsimp only [Reply.opened] at h
  generalize (if status < 400 ∨ status ≥ 600 then 500 else status) = status at h
  cases hpage : (httpdOpenindex cfg site ((errorName site status).take (cfg.maxFilename - 1))).1 with
  | error e =>
    rw [hpage] at h
    cases h
  | ok found =>
    rw [hpage] at h
    cases h
    obtain ⟨given, hopen, hlength, hgiven⟩ := httpdOpenindex_opened (by rw [length_take]; omega) hpage
    refine ⟨given, hopen, hlength, fun hfit => ?_⟩
    have hle : (errorName site status).length ≤ (wantedName cfg (errorName site status) found.1).length := by
      cases found.1 with
      | name => rw [wantedName, withoutSlash_errorName]
      | index =>
        rw [wantedName, withoutSlash_errorName, length_append]
        exact Nat.le_add_right _ _
    rw [take_of_length_le (by omega)] at hgiven
    exact hgiven hfit

theorem httpdSendfile_opened {keepalive : Bool} (hlength : filename.length < cfg.maxFilename)
    (h : (httpdSendfile cfg site filename keepalive).reply.opened cfg site filename = some (name, file)) :
    OpenedFor cfg site name file := by
  unfold httpdSendfile at h
  split at h
  · cases h
  split at h
  · exact httpdSenderror_opened (Nat.zero_lt_of_lt hlength) h
  rename_i hopen
  have hfound := httpdOpenindex_opened hlength (congrArg Prod.fst hopen)
  split_ifs at h
  all_goals
    cases h
    exact hfound

/-! ## Containment -/

theorem httpdParse_filename {p : Parsed} (h : httpdParse cfg buffer filename c = p) (hstatus : p.status = .http 200) :
    p.request.filename.length < cfg.maxFilename := by
  obtain ⟨received, rest, r, hscan, hbody⟩ := httpdParse_accepted h hstatus
  obtain ⟨hpending, -⟩ := finished_of_scan (by decide) hscan
  exact (bodyResult_ok (hpending (pending_fresh filename)) hbody).1

theorem answer_accepted {p : Parsed} (h : p.status = .http 200) :
    answer cfg site p = httpdSendfile cfg site p.request.filename p.request.keepalive := by
  rw [answer, h]
  rfl

/-- The path of a file that answers a request is inside the root and whole, exactly if the name
leads to a file inside it and fits. -/
theorem httpdHandler_contained (he : e ∈ httpdHandler cfg site n buffer filename c) (haccepted : e.status = .http 200)
    (hopened : e.reply.opened cfg site e.request.filename = some (name, file)) (hpath : file.path = some path) :
    (Below (normalise site.root) path ∧ path = site.root ++ name) ↔
      Below (normalise site.root) (site.root ++ name) ∧ (site.root ++ name).length < site.pathMax ∧
        name.length < cfg.maxFilename := by
  obtain ⟨buffer, filename, c, rfl⟩ := exchange_of_mem he
  have hlength := httpdParse_filename rfl haccepted
  rw [exchange, answer_accepted haccepted] at hopened
  obtain ⟨given, hopen, hgiven, hfit⟩ := httpdSendfile_opened hlength hopened
  obtain ⟨rfl, hmax⟩ := httpdOpen_path hopen hpath
  have hpos := site.pathMax_pos
  constructor
  · rintro ⟨hbelow, hwhole⟩
    have hcut := congrArg List.length hwhole
    rw [length_take, length_append, length_append] at hcut
    rw [hwhole] at hbelow
    rw [length_append]
    exact ⟨hbelow, by omega, by omega⟩
  · rintro ⟨hbelow, hroot, hname⟩
    obtain rfl := hfit hname
    rw [take_of_length_le (by omega)]
    exact ⟨hbelow, rfl⟩

theorem httpdHandler_contained_kept :
    ∃ e ∈ keptRun, e.reply.opened keptConfig sampleSite e.request.filename =
      some ("/a".toList, ⟨some "/mnt/a".toList, 5⟩) ∧
      Below (normalise sampleSite.root) "/mnt/a".toList := by
  have hrun : ∃ e ∈ keptRun, e.status = .http 200 ∧
      e.reply.opened keptConfig sampleSite e.request.filename = some ("/a".toList, ⟨some "/mnt/a".toList, 5⟩) := by
    decide +kernel
  obtain ⟨e, he, hstatus, hopened⟩ := hrun
  have hcontained := httpdHandler_contained he hstatus hopened rfl
  exact ⟨e, he, hopened, (hcontained.mpr (by decide)).1⟩

/-- Two files, one outside of the root and one with a name of 255 characters. -/
def openSite : Site :=
  { sampleSite with
    cgiPath := false
    stat := fun path =>
      if path = "/mnt/../etc/passwd".toList ∨ path = "/mnt/".toList ++ replicate 250 'a' then some ⟨.regular, 5⟩
      else none }

def requestFor (target : CStr) : Conn Char := ⟨["GET ".toList ++ target ++ " HTTP/1.0\r\n\r\n".toList], .closed⟩

def openRun (target : CStr) : List Exchange :=
  httpdHandler { sampleConfig with maxFilename := 256 } openSite 1 (replicate 512 '\x00') [] (requestFor target)

/-- The first path leads out of the root, and the second one lacks the last character. -/
theorem not_contained_openRun :
    (∃ e ∈ openRun "/../etc/passwd".toList, e.status = .http 200 ∧
        e.reply = .file .name ⟨some "/mnt/../etc/passwd".toList, 5⟩ ∧
        ¬ Below (normalise openSite.root) "/mnt/../etc/passwd".toList) ∧
      ∃ e ∈ openRun ('/' :: replicate 251 'a'), e.status = .http 200 ∧
        e.reply = .file .name ⟨some ("/mnt/".toList ++ replicate 250 'a'), 5⟩ := by
  decide +kernel

end Netutils.Webserver
