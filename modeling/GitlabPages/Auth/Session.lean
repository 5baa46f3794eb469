import GitlabPages.Url
import GitlabPages.Source.Gitlab

/-!
# Sessions, requests and what a handler writes

The first `internal/auth` of the repository (`unnamed/part_008`, lines
1-675). A session is a cookie named `gitlab-pages`, sealed by the cookie
store: the server keeps nothing, so a session is what the request carries. The
handlers read and write four keys, all strings: `access_token`, `state`, `uri`
and `proxy_auth_domain`.

A request carries at most one such cookie. A cookie the server issued either
decodes to the values the server sealed in it, or fails to decode (it expired,
or was altered), and then the store hands back a fresh, empty session with an
error (`getSessionFromStore`).

A handler's effect is an `Outcome`: whether it answered the request, the
session it saved (the `Set-Cookie` it wrote, if `Save` succeeded), and the
response it wrote.

Key definitions: `SessionValues`, `Cookie`, `Request`, `Env`, `Outcome`,
`getSessionFromStore`, `checkSession`, `checkTokenExists`, `destroySession`.
-/

namespace GitlabPages
namespace OAuth

/-- The values of a session (`session.Values`), under the keys the server
uses. -/
structure SessionValues where
  accessToken : Option String
  state : Option String
  uri : Option String
  proxyAuthDomain : Option String
  deriving DecidableEq, Repr

/-- A fresh session. -/
def SessionValues.empty : SessionValues := ⟨none, none, none, none⟩

/-- A session cookie: the values sealed in it, and whether the store still
decodes it. -/
structure Cookie where
  values : SessionValues
  decodes : Bool
  deriving DecidableEq, Repr

/-- The cookie options `getSessionFromStore` sets (`session.Options`). -/
structure SessionOptions where
  path : String
  httpOnly : Bool
  secure : Bool
  maxAge : Nat
  deriving DecidableEq, Repr

/-- The parts of an `http.Request` the handlers read. `query` is
`r.URL.Query()`, its pairs in order; `isHTTPS` is `request.IsHTTPS(r)`. -/
structure Request where
  host : String
  isHTTPS : Bool
  path : String
  requestURI : String
  query : List (String × String)
  cookie : Option Cookie
  deriving DecidableEq, Repr

/-- `r.URL.Query().Get(key)`: the first value of `key`, or empty. -/
def Request.queryGet (r : Request) (key : String) : String :=
  ((r.query.find? (·.1 = key)).map (·.2)).getD ""

/-- The session values a request carries, whether or not they decode. -/
def Request.carried (r : Request) : SessionValues :=
  match r.cookie with
  | some c => c.values
  | none => .empty

/-- The configuration of `Auth`. -/
structure Auth where
  pagesDomain : String
  clientID : String
  redirectURI : String
  gitLabServer : String
  authScope : String
  deriving DecidableEq, Repr

/-- The answer of the identity API to an access check: its status and, for a
body that decodes as `errorResponse`, its `error` field. -/
structure ApiResponse where
  statusCode : Nat
  errorField : Option String
  deriving DecidableEq, Repr

/-- What the handlers call: the domain source (`domains.GetDomain`), the code
relay (`EncryptAndSignCode`, `DecryptCode`), the token endpoint
(`fetchAccessToken`, its `access_token`), the identity API (`apiClient.Do`
with a bearer token), the random `state` of `checkTokenExists`, and whether
the cookie store manages to encode a session (`session.Save`). -/
structure Env where
  getDomain : String → Except String (Option Source.Domain)
  encryptAndSignCode : String → String → Except String String
  decryptCode : String → String → Except String String
  fetchAccessToken : String → Except String String
  apiDo : String → String → Except String ApiResponse
  randomState : String
  saveOk : SessionValues → Bool

/-- What a handler writes. -/
inductive Response
  | none
  /-- `http.Redirect`: the `Location`, the URL it was given through
  `hexEscapeNonASCII`, and the status code. -/
  | redirect (location : String) (code : Nat)
  | error (code : Nat)
  | notFoundAuthFailed
  deriving DecidableEq, Repr

/-- A handler's effect: whether it answered, the session it saved, and its
response. -/
structure Outcome where
  handled : Bool
  saved : Option (SessionValues × SessionOptions)
  response : Response
  deriving DecidableEq, Repr

/-- `callbackPath`. -/
def callbackPath : String := "/auth"

/-- `authSessionMaxAge`: ten minutes. -/
def authSessionMaxAge : Nat := 60 * 10

/-- `getRequestAddress`. -/
def getRequestAddress (r : Request) : String :=
  (if r.isHTTPS then "https://" else "http://") ++ r.host ++ r.requestURI

/-- `getRequestDomain`. -/
def getRequestDomain (r : Request) : String :=
  (if r.isHTTPS then "https://" else "http://") ++ r.host

/-- The cookie options of the request's session. -/
def sessionOptions (r : Request) : SessionOptions := ⟨"/", true, r.isHTTPS, authSessionMaxAge⟩

/-- `getSessionFromStore`: the session, and whether the store failed to decode
the cookie (then the session is fresh). -/
def getSessionFromStore (r : Request) : SessionValues × Bool :=
  match r.cookie with
  | none => (.empty, false)
  | some c => if c.decodes then (c.values, false) else (.empty, true)

/-- `session.Save(r, w)`: the cookie written, if the store encodes it. -/
def save (env : Env) (r : Request) (v : SessionValues) : Option (SessionValues × SessionOptions) :=
  if env.saveOk v then some (v, sessionOptions r) else none

/-- A handler that saves `v` and then redirects, or answers 500 if the save
fails. -/
def saveThenRedirect (env : Env) (r : Request) (v : SessionValues) (location : String) : Outcome :=
  match save env r v with
  | some c => ⟨true, some c, .redirect (hexEscapeNonASCII location) 302⟩
  | none => ⟨true, none, .error 500⟩

/-- `checkSession`: the session, or, when the cookie does not decode, the
response it wrote after saving the fresh session. -/
def checkSession (env : Env) (r : Request) : Except Outcome SessionValues :=
  match getSessionFromStore r with
  | (session, false) => .ok session
  | (session, true) => .error (saveThenRedirect env r session (getRequestAddress r))

/-- `getProxyAddress`. -/
def getProxyAddress (a : Auth) (r : Request) (state : String) : String :=
  a.redirectURI ++ "?domain=" ++ getRequestDomain r ++ "&state=" ++ state

/-- `checkTokenExists`: with no access token, store a fresh `state` and the
requested address, clear any proxying, and send the user to the pages
domain. -/
def checkTokenExists (a : Auth) (env : Env) (session : SessionValues) (r : Request) : Option Outcome :=
  match session.accessToken with
  | some _ => none
  | none =>
    some (saveThenRedirect env r
      { session with state := some env.randomState, uri := some (getRequestAddress r), proxyAuthDomain := none }
      (getProxyAddress a r env.randomState))

/-- `destroySession`: drop the access token and send the user back. -/
def destroySession (env : Env) (session : SessionValues) (r : Request) : Outcome :=
  saveThenRedirect env r { session with accessToken := none } (getRequestAddress r)

/-! ### Which sessions these handlers save -/

theorem checkSession_ok {env : Env} {r : Request} {s : SessionValues} (h : checkSession env r = .ok s) :
    s = r.carried ∧ ∀ c, r.cookie = some c → c.decodes = true := by
  unfold checkSession getSessionFromStore at h
  unfold Request.carried
  rcases hck : r.cookie with _ | ⟨v, _ | _⟩ <;> simp only [hck, Bool.false_eq_true, ↓reduceIte] at h
  · cases h; simp
  · cases h
  · cases h; simp

end OAuth
end GitlabPages
