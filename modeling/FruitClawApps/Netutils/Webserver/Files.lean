-- SUMMARY: Which file the web server opens for a name, and what it answers a request with.
import FruitClawApps.Netutils.Webserver.Request

/-!
# Files of the web server

`httpd_sendfile` calls the function that is registered for the name of a request, or opens the file
of that name. What a function or a script sends is left out, and so is a connection that breaks
while the answer is sent.
-/

namespace Netutils.Webserver

/-! ## The file system -/

inductive Kind where
  | regular | directory | other
deriving DecidableEq

structure Stat where
  kind : Kind
  size : Nat
deriving DecidableEq

/-- What a server is set up with, and the files it finds. -/
structure Site where
  /-- `CONFIG_NETUTILS_HTTPD_PATH`. -/
  root : CStr
  /-- `CONFIG_NETUTILS_HTTPD_ERRPATH`. -/
  errPath : CStr
  /-- `PATH_MAX`. -/
  pathMax : Nat
  pathMax_pos : 0 < pathMax
  /-- `CONFIG_NETUTILS_HTTPD_DIRLIST`, for `sendfile` only. -/
  dirlist : Bool
  /-- Scripts are not disabled. -/
  script : Bool
  /-- `CONFIG_NETUTILS_HTTPD_CGIPATH`. -/
  cgiPath : Bool
  /-- `cgi_calls`, the last one registered first. -/
  cgiCalls : List CStr
  /-- `g_httpdfs_root`: names and lengths. -/
  table : List (CStr × Nat)
  stat : CStr → Option Stat
  /-- `open` succeeds, and `mmap` if it is used. -/
  canOpen : CStr → Bool

/-- `errno`, as far as it is looked at. -/
inductive Errno where
  | isDir | other
deriving DecidableEq

/-- `struct httpd_fs_file`. A file of the table has no path. -/
structure File where
  path : Option CStr
  len : Nat
deriving DecidableEq

abbrev intMax : Nat := 2 ^ 31 - 1

section

variable (cfg : Config) (site : Site)

/-- Whether `httpd_fs_strcmp` returns 0. The name in the table may be shorter. -/
def httpdFsStrcmp : CStr → CStr → Bool
  | _, [] => true
  | [], _ :: _ => false
  | c :: str1, d :: str2 => if c = '\r' ∨ c = '\n' then true else if c ≠ d then false else httpdFsStrcmp str1 str2

variable (name : CStr) (filename : CStr)

def httpdFsOpen : Except Errno File :=
  match site.table.find? fun f => httpdFsStrcmp name f.1 with
  | some f => .ok ⟨none, f.2⟩
  | none => .error .other

/-- `snprintf` into `path`. A path of `PATH_MAX` characters passes the check behind it, but not
whole. -/
def rooted : Except Errno CStr :=
  if site.pathMax < (site.root ++ name).length then .error .other
  else .ok ((site.root ++ name).take (site.pathMax - 1))

def httpdSendfileOpen : Except Errno File :=
  match rooted site name with
  | .error e => .error e
  | .ok path =>
    match site.stat path with
    | none => .error .other
    | some st =>
      if !site.dirlist ∧ st.kind = .directory then .error .isDir
      else if !site.dirlist ∧ st.kind ≠ .regular then .error .other
      else if st.size > intMax then .error .other
      -- with directory listings, what cannot be opened is taken to be a directory
      else if !site.dirlist ∧ !site.canOpen path then .error .other
      else .ok ⟨some path, st.size⟩

def httpdMmapOpen : Except Errno File :=
  match rooted site name with
  | .error e => .error e
  | .ok path =>
    match site.stat path with
    | none => .error .other
    | some st =>
      if st.kind = .directory then .error .isDir
      else if st.kind ≠ .regular then .error .other
      else if st.size > intMax then .error .other
      else if st.size ≠ 0 ∧ !site.canOpen path then .error .other
      else .ok ⟨some path, st.size⟩

def httpdOpen : Except Errno File :=
  match cfg.files with
  | .classic => httpdFsOpen site name
  | .mmap => httpdMmapOpen site name
  | .sendfile => httpdSendfileOpen site name

/-- A file is found under the name that is asked for, or as the index of it. -/
inductive Route where
  | name | index
deriving DecidableEq

/-- A name without the slash at its end. -/
def withoutSlash : CStr := if name.getLast? = some '/' then name.dropLast else name

/-- The file, and what is left in `ht_filename`. -/
def httpdOpenindex : Except Errno (Route × File) × CStr :=
  let name := withoutSlash filename
  match httpdOpen cfg site name, cfg.index with
  | .error .isDir, some index =>
    let name := (name ++ '/' :: index).take (cfg.maxFilename - 1)
    ((httpdOpen cfg site name).map (.index, ·), name)
  | answer, _ => (answer.map (.name, ·), name)

/-! ## Answers -/

/-- What a request is answered with. -/
inductive Reply where
  | cgi (call : CStr)
  | script (route : Route) (file : File)
  | file (route : Route) (file : File)
  /-- With a page, or with a short message. -/
  | errorPage (status : Nat) (page : Option (Route × File))
  /-- The request has not been read as the language allows. -/
  | undefined
deriving DecidableEq

/-- An answer, with what is left in `ht_filename` and `ht_keepalive`. -/
structure Answer where
  reply : Reply
  filename : CStr
  keepalive : Bool
deriving DecidableEq

def httpdCgi : Option CStr := site.cgiCalls.find? fun call => startsWith name call

/-- The name of an error page. -/
def errorName (status : Nat) : CStr := site.errPath ++ '/' :: formatInt status ++ ".html".toList

def httpdSenderror (status : Nat) (keepalive : Bool) : Answer :=
  let status := if status < 400 ∨ status ≥ 600 then 500 else status
  let (page, filename) := httpdOpenindex cfg site ((errorName site status).take (cfg.maxFilename - 1))
  ⟨.errorPage status page.toOption, filename, keepalive && status == 404⟩

def isScript : Bool := startsWith (filename.dropWhile (· ≠ '.')) ".shtml".toList

def httpdSendfile (keepalive : Bool) : Answer :=
  match if site.cgiPath then httpdCgi site filename else none with
  | some call => ⟨.cgi call, filename, false⟩
  | none =>
    match httpdOpenindex cfg site filename with
    | (.error _, _) => httpdSenderror cfg site 404 keepalive
    | (.ok (route, file), filename) =>
      if site.script ∧ isScript filename then ⟨.script route file, filename, false⟩
      else ⟨.file route file, filename, keepalive && !site.dirlist⟩

end

end Netutils.Webserver
