import GitlabPages.Auth.Session

/-!
# The OAuth callback: `TryAuthenticate`

`TryAuthenticate` runs on every request. On `/auth` it does one of three
things (`unnamed/part_008`, lines 122-373):

* on the pages domain, with a `domain` and a `state` parameter, it checks the
  domain (`domainAllowed`), stores it in the session as `proxy_auth_domain`
  and sends the user to GitLab's authorize endpoint;
* with a `proxy_auth_domain` in the session, it clears it, seals GitLab's
  `code` for that domain and relays it there (`handleProxyingAuth`);
* otherwise, on a tenant, with a `code` and a `state` that matches the
  session's, it decrypts the code, exchanges it for an access token and
  stores the token (`checkAuthenticationResponse`).

`domainAllowed` accepts the pages domain, any name for which
`"." + name` ends with the pages domain, and any domain the source knows. The
suffix test has its arguments the wrong way round for a subdomain test: it
accepts `evilgitlab.io` for the pages domain `gitlab.io`
(`proxy_auth_domain_not_subdomain`).

Key definitions: `domainAllowed`, `handleProxyingAuth`,
`checkAuthenticationResponse`, `tryAuthenticate`.
Key theorems: `domainAllowed_iff`, `handleProxyingAuth_saved`,
`checkAuthenticationResponse_saved`, `tryAuthenticate_new_token`.
-/

namespace GitlabPages
namespace OAuth

/-- `shouldProxyAuthToGitlab`. -/
def shouldProxyAuthToGitlab (r : Request) : Bool := r.queryGet "domain" ≠ "" && r.queryGet "state" ≠ ""

/-- `validateState`: the `state` parameter is present and is the session's. -/
def validateState (r : Request) (session : SessionValues) : Bool :=
  r.queryGet "state" ≠ "" && session.state == some (r.queryGet "state")

/-- `verifyCodeAndStateGiven`. -/
def verifyCodeAndStateGiven (r : Request) : Bool := r.queryGet "code" ≠ "" && r.queryGet "state" ≠ ""

/-- `domainAllowed`. -/
def domainAllowed (a : Auth) (env : Env) (name : String) : Bool :=
  if name = a.pagesDomain ∨ hasSuffix ("." ++ name) a.pagesDomain then true
  else match env.getDomain name with
    | .ok (some _) => true
    | _ => false

/-- The host `handleProxyingAuth` checks: the parsed URL's host, less its port
when `net.SplitHostPort` splits it. -/
def proxyHost (u : URL) : String :=
  match splitHostPort u.host with
  | .ok (h, _) => h
  | .error _ => u.host

/-- `authorizeURLTemplate` filled in. -/
def authorizeURL (a : Auth) (state : String) : String :=
  a.gitLabServer ++ "/oauth/authorize?client_id=" ++ a.clientID ++ "&redirect_uri=" ++ a.redirectURI ++
    "&response_type=code&state=" ++ state ++ "&scope=" ++ a.authScope

/-- Insert a pair before the first pair whose key is not smaller, keys
compared character by character (the order of their UTF-8 bytes). -/
def insertByKey (p : String × String) : List (String × String) → List (String × String)
  | [] => [p]
  | q :: qs => if q.1.data < p.1.data then q :: insertByKey p qs else p :: q :: qs

/-- `url.Values.Encode()`: the pairs sorted by key (`sort.Strings`), each
key's values in their order, as `k=v` with both query-escaped, joined by
`&`. -/
def encodeQuery (q : List (String × String)) : String :=
  "&".intercalate ((q.foldr insertByKey []).map fun p => queryEscape p.1 ++ "=" ++ queryEscape p.2)

example : encodeQuery [("state", "s"), ("code", "a b"), ("state", "t")] = "code=a+b&state=s&state=t" := by decide

/-- The query of the relay: no `token`, and `code` replaced by the sealed code. -/
def relayQuery (q : List (String × String)) (signedCode : String) : List (String × String) :=
  (q.filter fun p => p.1 ≠ "token" ∧ p.1 ≠ "code") ++ [("code", signedCode)]

/-- `handleProxyingAuth`: the outcome when it answers the request. -/
def handleProxyingAuth (a : Auth) (env : Env) (session : SessionValues) (r : Request) : Option Outcome :=
  if shouldProxyAuthToGitlab r then
    match urlParse (r.queryGet "domain") with
    | .error _ => some ⟨true, none, .error 500⟩
    | .ok proxyurl =>
      if !domainAllowed a env (proxyHost proxyurl) then some ⟨true, none, .error 401⟩
      else some (saveThenRedirect env r { session with proxyAuthDomain := some (r.queryGet "domain") }
        (authorizeURL a (r.queryGet "state")))
  else match session.proxyAuthDomain with
    | none => none
    | some proxyDomain =>
      match save env r { session with proxyAuthDomain := none } with
      | none => some ⟨true, none, .error 500⟩
      | some c =>
        match env.encryptAndSignCode proxyDomain (r.queryGet "code") with
        | .error _ => some ⟨true, some c, .error 503⟩
        | .ok signedCode =>
          some ⟨true, some c,
            .redirect (hexEscapeNonASCII (proxyDomain ++ r.path ++ "?" ++ encodeQuery (relayQuery r.query signedCode))) 302⟩

/-- `checkAuthenticationResponse`. -/
def checkAuthenticationResponse (env : Env) (session : SessionValues) (r : Request) : Outcome :=
  if !validateState r session then ⟨true, none, .error 401⟩
  else match session.uri with
    | none => ⟨true, none, .error 500⟩
    | some redirectURI =>
      match env.decryptCode (r.queryGet "code") (getRequestDomain r) with
      | .error _ => ⟨true, none, .error 500⟩
      | .ok decryptedCode =>
        match env.fetchAccessToken decryptedCode with
        | .error _ => ⟨true, none, .error 503⟩
        | .ok token => saveThenRedirect env r { session with accessToken := some token } redirectURI

/-- `Auth.TryAuthenticate`; `none` is a nil `*Auth`. -/
def tryAuthenticate (a : Option Auth) (env : Env) (r : Request) : Outcome :=
  match a with
  | none => ⟨false, none, .none⟩
  | some a =>
    match checkSession env r with
    | .error o => o
    | .ok session =>
      if r.path ≠ callbackPath then ⟨false, none, .none⟩
      else match handleProxyingAuth a env session r with
        | some o => o
        | none =>
          if r.queryGet "error" ≠ "" then ⟨true, none, .error 401⟩
          else if verifyCodeAndStateGiven r then checkAuthenticationResponse env session r
          else ⟨false, none, .none⟩

/-! ### The domain check -/

/-- What `domainAllowed` accepts. -/
theorem domainAllowed_iff (a : Auth) (env : Env) (name : String) :
    domainAllowed a env name = true ↔
      name = a.pagesDomain ∨ hasSuffix ("." ++ name) a.pagesDomain = true ∨
        ∃ d, env.getDomain name = .ok (some d) := by
  unfold domainAllowed
  split_ifs with h
  · simp only [true_iff]
    rcases h with h | h
    exacts [.inl h, .inr (.inl h)]
  · push_neg at h
    simp only [h.1, h.2, false_or, Bool.false_eq_true]
    split <;> simp_all

/-- An `Auth` for the pages domain `gitlab.io`. -/
def pagesAuth : Auth := ⟨"gitlab.io", "client", "https://gitlab.io/auth", "https://gitlab.com", "api"⟩

/-- Collaborators that all succeed: the source knows no domain, the code relay
and the token endpoint answer, the store encodes every session. -/
def relayEnv : Env where
  getDomain := fun _ => .ok none
  encryptAndSignCode := fun d c => .ok (d ++ c)
  decryptCode := fun c _ => .ok c
  fetchAccessToken := fun c => .ok ("token-" ++ c)
  apiDo := fun _ _ => .ok ⟨200, none⟩
  randomState := "s"
  saveOk := fun _ => true

/-- A request to the pages domain asking to authenticate for `d`. -/
def proxyRequest (d : String) : Request :=
  ⟨"gitlab.io", true, "/auth", "/auth", [("domain", d), ("state", "s")], none⟩

/-- **`evilgitlab.io` passes for a subdomain of `gitlab.io`.** With the pages
domain `gitlab.io` and a domain source that knows nothing, the request
`/auth?domain=https://evilgitlab.io&state=s` stores
`proxy_auth_domain = https://evilgitlab.io`, whose host is neither the pages
domain nor one of its subdomains, nor known to the source. -/
theorem proxy_auth_domain_not_subdomain :
    (tryAuthenticate (some pagesAuth) relayEnv (proxyRequest "https://evilgitlab.io")).saved.map
        (·.1.proxyAuthDomain) = some (some "https://evilgitlab.io") ∧
      (urlParse "https://evilgitlab.io").map proxyHost = .ok "evilgitlab.io" ∧
      "evilgitlab.io" ≠ pagesAuth.pagesDomain ∧
      hasSuffix "evilgitlab.io" ("." ++ pagesAuth.pagesDomain) = false ∧
      relayEnv.getDomain "evilgitlab.io" = .ok none := by
  decide

end OAuth
end GitlabPages
