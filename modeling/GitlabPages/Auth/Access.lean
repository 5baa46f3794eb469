import GitlabPages.Auth.Session

/-!
# The access check: `CheckAuthentication`

A domain with access control asks `Auth` before it serves a file
(`unnamed/part_008`, lines 410-616). `checkAuthentication` takes the session
(`checkSessionIsValid`: it decodes, and it holds an access token), asks the
identity API with that token (`/api/v4/projects/:id/pages_access` for a
project, `/api/v4/user` otherwise), and lets the caller serve only when the
API answers `200`. A `401` whose body names `invalid_token` ends the session
(`checkResponseForInvalidToken`); any other failure calls the domain's
`ServeNotFoundAuthFailed`.

For a configured `Auth` the check fails closed: it returns `false`, and
writes nothing, exactly when the session decoded, holds a token, and the API
request made with it answered `200`; otherwise it returns `true` after a
redirect, the domain's 404 or a 500 (`checkAuthentication_fails_closed`).
Without an `Auth`, `CheckAuthentication` answers 500, but
`CheckAuthenticationWithoutProject` lets the caller serve, whatever the
session (`checkAuthenticationWithoutProject_serves_anonymous`).

Key definitions: `checkSessionIsValid`, `apiURL`, `checkResponseForInvalidToken`,
`checkAuthentication`, `checkAuthenticationWithoutProject`, `CheckAuthentication`.
Key theorems: `checkAuthentication_cases`, `checkAuthentication_fails_closed`.
-/

namespace GitlabPages
namespace OAuth

/-- `checkSessionIsValid`: the session, or what `checkSession` or
`checkTokenExists` wrote when there is none to go on with. -/
def checkSessionIsValid (a : Auth) (env : Env) (r : Request) : Except Outcome SessionValues :=
  match checkSession env r with
  | .error o => .error o
  | .ok session =>
    match checkTokenExists a env session r with
    | some o => .error o
    | none => .ok session

/-- `apiURLProjectTemplate` for a project, `apiURLUserTemplate` otherwise. -/
def apiURL (a : Auth) (projectID : UInt64) : String :=
  if projectID > 0 then a.gitLabServer ++ "/api/v4/projects/" ++ toString projectID ++ "/pages_access"
  else a.gitLabServer ++ "/api/v4/user"

/-- `checkResponseForInvalidToken`: for a `401` whose body decodes with the
error `invalid_token`, what `destroySession` wrote. -/
def checkResponseForInvalidToken (env : Env) (resp : ApiResponse) (session : SessionValues) (r : Request) :
    Option Outcome :=
  if resp.statusCode = 401 then
    match resp.errorField with
    | some e => if e = "invalid_token" then some (destroySession env session r) else none
    | none => none
  else none

/-- `checkAuthentication`, for the domain's `GetProjectID(r)`. `http.NewRequest`
fails only when `url.Parse` does. The bearer token is the session's access
token, which `checkSessionIsValid` has found (`checkSessionIsValid_ok`). -/
def checkAuthentication (a : Auth) (env : Env) (projectID : UInt64) (r : Request) : Outcome :=
  match checkSessionIsValid a env r with
  | .error o => o
  | .ok session =>
    match urlParse (apiURL a projectID) with
    | .error _ => ⟨true, none, .error 500⟩
    | .ok _ =>
      match env.apiDo (apiURL a projectID) (session.accessToken.getD "") with
      | .error _ => ⟨true, none, .notFoundAuthFailed⟩
      | .ok resp =>
        match checkResponseForInvalidToken env resp session r with
        | some o => o
        | none => if resp.statusCode ≠ 200 then ⟨true, none, .notFoundAuthFailed⟩ else ⟨false, none, .none⟩

/-- `CheckAuthenticationWithoutProject`; `none` is a nil `Auth`. -/
def checkAuthenticationWithoutProject (a : Option Auth) (env : Env) (projectID : UInt64) (r : Request) :
    Outcome :=
  match a with
  | none => ⟨false, none, .none⟩
  | some a => checkAuthentication a env projectID r

/-- The exported `CheckAuthentication`; `none` is a nil `Auth`. The name keeps
the source's capital, which is all that tells it from `checkAuthentication`. -/
def CheckAuthentication (a : Option Auth) (env : Env) (projectID : UInt64) (r : Request) : Outcome :=
  match a with
  | none => ⟨true, none, .error 500⟩
  | some a => checkAuthentication a env projectID r

/-- An outcome that ends the request: `true`, after a redirect, the domain's
404 or a 500. -/
def Outcome.ends (o : Outcome) : Prop :=
  o.handled = true ∧ ((∃ loc, o.response = .redirect loc 302) ∨ o.response = .notFoundAuthFailed ∨
    o.response = .error 500)

theorem saveThenRedirect_ends (env : Env) (r : Request) (v : SessionValues) (loc : String) :
    (saveThenRedirect env r v loc).ends := by
  unfold saveThenRedirect
  split
  · exact ⟨rfl, .inl ⟨_, rfl⟩⟩
  · exact ⟨rfl, .inr (.inr rfl)⟩

/-! ### One lemma per stage -/

theorem checkSession_error_ends {env : Env} {r : Request} {o : Outcome} (h : checkSession env r = .error o) :
    o.ends := by
  unfold checkSession getSessionFromStore at h
  rcases hck : r.cookie with _ | ⟨v, _ | _⟩ <;> simp only [hck, Bool.false_eq_true, ↓reduceIte] at h
  · cases h
  · cases h; exact saveThenRedirect_ends _ _ _ _
  · cases h

theorem checkTokenExists_ends {a : Auth} {env : Env} {s : SessionValues} {r : Request} {o : Outcome}
    (h : checkTokenExists a env s r = some o) : o.ends := by
  unfold checkTokenExists at h
  split at h
  · cases h
  · cases h; exact saveThenRedirect_ends _ _ _ _

/-- `checkSessionIsValid` goes on exactly with the carried session, when it
decoded and holds an access token. -/
theorem checkSessionIsValid_ok {a : Auth} {env : Env} {r : Request} {s : SessionValues} :
    checkSessionIsValid a env r = .ok s ↔
      (∀ c, r.cookie = some c → c.decodes = true) ∧ s = r.carried ∧ s.accessToken.isSome := by
  unfold checkSessionIsValid
  constructor
  · intro h
    cases hs : checkSession env r with
    | error o => simp [hs] at h
    | ok session =>
      obtain ⟨rfl, hdec⟩ := checkSession_ok hs
      cases ht : r.carried.accessToken with
      | none => simp [hs, checkTokenExists, ht] at h
      | some t =>
        simp only [hs, checkTokenExists, ht, Except.ok.injEq] at h
        exact ⟨hdec, h.symm, by rw [← h, ht]; rfl⟩
  · rintro ⟨hdec, rfl, ht⟩
    have hs : checkSession env r = .ok r.carried := by
      unfold checkSession getSessionFromStore Request.carried
      rcases hck : r.cookie with _ | ⟨v, _ | _⟩
      · rfl
      · cases hdec _ hck
      · rfl
    obtain ⟨t, ht⟩ := Option.isSome_iff_exists.1 ht
    simp [hs, checkTokenExists, ht]

theorem checkSessionIsValid_error {a : Auth} {env : Env} {r : Request} {o : Outcome}
    (h : checkSessionIsValid a env r = .error o) : o.ends := by
  unfold checkSessionIsValid at h
  cases hs : checkSession env r with
  | error o' =>
    rw [hs] at h
    cases h
    exact checkSession_error_ends hs
  | ok s =>
    cases ht : checkTokenExists a env s r with
    | some o' =>
      simp only [hs, ht, Except.error.injEq] at h
      exact h ▸ checkTokenExists_ends ht
    | none => simp [hs, ht] at h

theorem checkResponseForInvalidToken_some {env : Env} {resp : ApiResponse} {s : SessionValues} {r : Request}
    {o : Outcome} (h : checkResponseForInvalidToken env resp s r = some o) :
    resp.statusCode = 401 ∧ o.ends := by
  unfold checkResponseForInvalidToken at h
  split_ifs at h with h401
  split at h
  · split_ifs at h
    cases h
    exact ⟨h401, saveThenRedirect_ends _ _ _ _⟩
  · cases h

/-! ### The sessions the access check saves -/

/-- **What `checkAuthentication` does, in two cases.** It lets the caller
serve, writing nothing, when the session decoded and holds a token `t`, the
API URL parses and the API answers `200` to the request with `t`; or it ends
the request. -/
theorem checkAuthentication_cases (a : Auth) (env : Env) (projectID : UInt64) (r : Request) :
    (checkAuthentication a env projectID r = ⟨false, none, .none⟩ ∧
        (∀ c, r.cookie = some c → c.decodes = true) ∧
        ∃ t resp, r.carried.accessToken = some t ∧ (∃ u, urlParse (apiURL a projectID) = .ok u) ∧
          env.apiDo (apiURL a projectID) t = .ok resp ∧ resp.statusCode = 200) ∨
      (checkAuthentication a env projectID r).ends := by
  unfold checkAuthentication
  split
  · rename_i o hv
    exact .inr (checkSessionIsValid_error hv)
  · rename_i s hv
    obtain ⟨hdec, rfl, ht⟩ := checkSessionIsValid_ok.1 hv
    obtain ⟨t, ht⟩ := Option.isSome_iff_exists.1 ht
    rw [ht, Option.getD_some]
    split
    · exact .inr ⟨rfl, .inr (.inr rfl)⟩
    · rename_i u hu
      split
      · exact .inr ⟨rfl, .inr (.inl rfl)⟩
      · rename_i resp hd
        split
        · rename_i o hc
          exact .inr (checkResponseForInvalidToken_some hc).2
        · by_cases h200 : resp.statusCode = 200
          · exact .inl ⟨by simp [h200], hdec, t, resp, rfl, ⟨u, hu⟩, hd, h200⟩
          · exact .inr ⟨by simp [h200], .inr (.inl (by simp [h200]))⟩

/-- A session that decoded and holds a token the API accepts lets the caller
serve. -/
theorem checkAuthentication_of_granted {a : Auth} {env : Env} {projectID : UInt64} {r : Request}
    (hdec : ∀ c, r.cookie = some c → c.decodes = true) {t : String} {resp : ApiResponse}
    (ht : r.carried.accessToken = some t) (hu : ∃ u, urlParse (apiURL a projectID) = .ok u)
    (hd : env.apiDo (apiURL a projectID) t = .ok resp) (h200 : resp.statusCode = 200) :
    checkAuthentication a env projectID r = ⟨false, none, .none⟩ := by
  obtain ⟨u, hu⟩ := hu
  have hv : checkSessionIsValid a env r = .ok r.carried := checkSessionIsValid_ok.2 ⟨hdec, rfl, by simp [ht]⟩
  have hc : checkResponseForInvalidToken env resp r.carried r = none := by
    simp [checkResponseForInvalidToken, h200]
  simp [checkAuthentication, hv, hu, ht, hd, hc, h200]

/-- **The access check fails closed, for a configured `Auth`.** Whatever the
cookie and whatever the identity API answers, `CheckAuthentication` returns
`false` exactly when the session decoded, holds an access token `t`, and the
API request made with `t` answered `200`; it then writes nothing. Otherwise it
returns `true` after a redirect, the domain's 404 or a 500.
`CheckAuthenticationWithoutProject` does the same; without an `Auth`, the
first answers 500 and the second lets the caller serve. -/
theorem checkAuthentication_fails_closed (a : Auth) (env : Env) (projectID : UInt64) (r : Request) :
    ((CheckAuthentication (some a) env projectID r).handled = false ↔
        (∀ c, r.cookie = some c → c.decodes = true) ∧
          ∃ t resp, r.carried.accessToken = some t ∧ (∃ u, urlParse (apiURL a projectID) = .ok u) ∧
            env.apiDo (apiURL a projectID) t = .ok resp ∧ resp.statusCode = 200) ∧
      ((CheckAuthentication (some a) env projectID r).handled = false →
        (CheckAuthentication (some a) env projectID r).response = .none) ∧
      ((CheckAuthentication (some a) env projectID r).handled = true →
        (CheckAuthentication (some a) env projectID r).ends) ∧
      checkAuthenticationWithoutProject (some a) env projectID r = CheckAuthentication (some a) env projectID r ∧
      (CheckAuthentication none env projectID r).ends ∧
      checkAuthenticationWithoutProject none env projectID r = ⟨false, none, .none⟩ := by
  have cases := checkAuthentication_cases a env projectID r
  refine ⟨⟨fun h => ?_, ?_⟩, fun h => ?_, fun h => ?_, rfl, ⟨rfl, .inr (.inr rfl)⟩, rfl⟩
  · rcases cases with ⟨-, hgrant⟩ | hends
    · exact hgrant
    · exact absurd (hends.1.symm.trans h) Bool.noConfusion
  · rintro ⟨hdec, t, resp, ht, hu, hd, h200⟩
    exact congrArg Outcome.handled (checkAuthentication_of_granted hdec ht hu hd h200)
  · rcases cases with ⟨heq, -⟩ | hends
    · exact congrArg Outcome.response heq
    · exact absurd (hends.1.symm.trans h) Bool.noConfusion
  · rcases cases with ⟨heq, -⟩ | hends
    · exact absurd ((congrArg Outcome.handled heq).symm.trans h) Bool.noConfusion
    · exact hends

/-- A request with no session cookie. -/
def anonymousRequest : Request := ⟨"group.gitlab.io", true, "/private/index.html", "/private/index.html", [], none⟩

/-- An identity API that refuses every token (`403`), and a cookie store that
saves every session. -/
def denyingEnv : Env where
  getDomain := fun _ => .ok none
  encryptAndSignCode := fun _ code => .ok code
  decryptCode := fun _ code => .ok code
  fetchAccessToken := fun _ => .error "no token endpoint"
  apiDo := fun _ _ => .ok ⟨403, none⟩
  randomState := "state"
  saveOk := fun _ => true

/-- **Without an `Auth`, `CheckAuthenticationWithoutProject` lets the caller
serve a request that carries no session, and writes nothing.** -/
theorem checkAuthenticationWithoutProject_serves_anonymous :
    checkAuthenticationWithoutProject none denyingEnv 0 anonymousRequest = ⟨false, none, .none⟩ ∧
      anonymousRequest.carried.accessToken = none :=
  ⟨rfl, rfl⟩

end OAuth
end GitlabPages
