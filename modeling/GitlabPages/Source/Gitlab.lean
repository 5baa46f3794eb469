import GitlabPages.Path

/-!
# The GitLab domain source: resolving a request to a lookup path

`internal/source/gitlab/gitlab.go`. `Resolve` asks the GitLab API for the
request host's virtual domain and walks its lookup paths in the order the API
sends them, answering with the first whose prefix occurs in the request path
(`strings.Contains`), and the request path with that prefix trimmed from its
front.

An error of the API is `Resolve`'s error. Otherwise the answer is the first
match in the API's order, not the longest match: the longest is found only
when the API sends the lookup paths longest prefix first
(`first_match_longest`). The match is a containment test, so it is the
first prefix that is a prefix of the request path only as long as no prefix
before that one occurs inside the path (`PrefixesAtFront`,
`resolve_first_match`). A nil response with a nil error is not checked, as
`GetDomain` checks it, and dereferencing it panics.

Key definitions: `VirtualDomain`, `LookupPath`, `getDomain`, `resolve`, `PrefixesAtFront`.
Key theorems: `resolveLookups_eq_find`, `resolveLookups_ok_iff`,
`resolveLookups_error_iff`, `resolve_first_match`, `resolve_not_longest_prefix`.
-/

namespace GitlabPages
namespace Source

/-- The source of a lookup path (`api.Source`). -/
structure LookupSource where
  type : String
  path : String
  deriving DecidableEq, Repr

/-- A lookup path as the API sends it (`api.LookupPath`); its `Prefix` is
`pathPrefix`. -/
structure ApiLookupPath where
  projectID : Int
  accessControl : Bool
  httpsOnly : Bool
  pathPrefix : String
  source : LookupSource
  deriving DecidableEq, Repr

/-- The API's answer for a host (`api.VirtualDomain`). -/
structure VirtualDomain where
  certificate : String
  key : String
  lookupPaths : List ApiLookupPath
  deriving DecidableEq, Repr

/-- A domain as `GetDomain` builds it (`domain.Domain`, without its resolver). -/
structure Domain where
  name : String
  certificateCert : String
  certificateKey : String
  deriving DecidableEq, Repr

/-- The lookup path handed to the serving layer (`serving.LookupPath`). -/
structure LookupPath where
  pathPrefix : String
  path : String
  isNamespaceProject : Bool
  isHTTPSOnly : Bool
  hasAccessControl : Bool
  projectID : Nat
  deriving DecidableEq, Repr

/-- What `client.GetVirtualDomain(host)` returns: an error, or a response that
may be nil. -/
abbrev Client := String → Except String (Option VirtualDomain)

/-- `Gitlab.GetDomain`. -/
def getDomain (client : Client) (name : String) : Except String Domain :=
  match client name with
  | .error e => .error e
  | .ok none => .error "could not fetch a domain information"
  | .ok (some response) => .ok ⟨name, response.certificate, response.key⟩

/-- What `Resolve` does: panic, fail, or answer a lookup path and the request
path. -/
inductive Resolved
  | panic
  | error (msg : String)
  | ok (lookupPath : LookupPath) (requestPath : String)
  deriving DecidableEq, Repr

/-- The `serving.LookupPath` that `Resolve` builds from an API lookup path. -/
def toLookupPath (response : VirtualDomain) (lookup : ApiLookupPath) : LookupPath where
  pathPrefix := lookup.pathPrefix
  path := trimPrefix lookup.source.path "/"
  isNamespaceProject := lookup.pathPrefix == "/" && decide (response.lookupPaths.length > 1)
  isHTTPSOnly := lookup.httpsOnly
  hasAccessControl := lookup.accessControl
  projectID := (lookup.projectID % 2 ^ 64).toNat

/-- The lookup of `Resolve`: the first lookup path whose prefix occurs in the
request path. -/
def resolveLookups (response : VirtualDomain) (path : String) : List ApiLookupPath → Resolved
  | [] => .error "could not match lookup path"
  | lookup :: rest =>
    if contains path lookup.pathPrefix then
      .ok (toLookupPath response lookup) (trimPrefix path lookup.pathPrefix)
    else resolveLookups response path rest

/-- `Gitlab.Resolve` for a request to `host` with URL path `path`. -/
def resolve (client : Client) (host path : String) : Resolved :=
  match client host with
  | .error e => .error e
  | .ok none => .panic
  | .ok (some response) => resolveLookups response path response.lookupPaths

/-! ### What `Resolve` answers -/

section Lookups

variable (response : VirtualDomain) (path : String)

/-- Up to the first lookup path whose prefix is a prefix of the request path,
every prefix that occurs in the request path occurs at its front. -/
def PrefixesAtFront (lookups : List ApiLookupPath) : Prop :=
  ∀ pre l post, lookups = pre ++ l :: post → (∀ l' ∈ pre, hasPrefix path l'.pathPrefix = false) →
    contains path l.pathPrefix = true → hasPrefix path l.pathPrefix = true

theorem PrefixesAtFront.head {path : String} {l : ApiLookupPath} {ls : List ApiLookupPath}
    (hf : PrefixesAtFront path (l :: ls))
    (hc : contains path l.pathPrefix = true) : hasPrefix path l.pathPrefix = true :=
  hf [] l ls rfl (fun _ h => by cases h) hc

theorem PrefixesAtFront.tail {path : String} {l : ApiLookupPath} {ls : List ApiLookupPath}
    (hf : PrefixesAtFront path (l :: ls))
    (hl : hasPrefix path l.pathPrefix = false) : PrefixesAtFront path ls := fun pre l' post e hpre =>
  hf (l :: pre) l' post (by rw [e]; rfl) fun l'' h => (List.mem_cons.1 h).elim (· ▸ hl) (hpre l'')

theorem resolveLookups_ne_panic : ∀ lookups, resolveLookups response path lookups ≠ .panic
  | [] => by simp [resolveLookups]
  | l :: ls => by
    unfold resolveLookups; split_ifs
    · simp
    · exact resolveLookups_ne_panic ls

/-- Where every prefix that occurs before the first match occurs at the front,
the lookup is the first lookup path whose prefix is a prefix of the request
path. -/
theorem resolveLookups_eq_find : ∀ lookups, PrefixesAtFront path lookups →
    resolveLookups response path lookups =
      match lookups.find? fun l => hasPrefix path l.pathPrefix with
      | some l => .ok (toLookupPath response l) (trimPrefix path l.pathPrefix)
      | none => .error "could not match lookup path"
  | [], _ => rfl
  | l :: ls, hf => by
    by_cases hc : contains path l.pathPrefix = true
    · simp [resolveLookups, hc, hf.head hc]
    · have hp : hasPrefix path l.pathPrefix = false := by
        by_contra h
        exact hc (contains_of_hasPrefix (by simpa using h))
      simp only [resolveLookups, hc, Bool.false_eq_true, ↓reduceIte, List.find?_cons, hp]
      exact resolveLookups_eq_find ls (hf.tail hp)

/-- The answer is the first lookup path, in the API's order, whose prefix is a
prefix of the request path, with that prefix trimmed. -/
theorem resolveLookups_ok_iff (lookups : List ApiLookupPath) (hf : PrefixesAtFront path lookups) (lp : LookupPath)
    (rp : String) : resolveLookups response path lookups = .ok lp rp ↔
      ∃ pre l post, lookups = pre ++ l :: post ∧ hasPrefix path l.pathPrefix = true ∧
        (∀ l' ∈ pre, hasPrefix path l'.pathPrefix = false) ∧
        lp = toLookupPath response l ∧ path = l.pathPrefix ++ rp := by
  rw [resolveLookups_eq_find response path lookups hf]
  constructor
  · split
    · rename_i l hl
      rintro ⟨⟩
      obtain ⟨hp, pre, post, rfl, hpre⟩ := List.find?_eq_some.1 hl
      exact ⟨pre, l, post, rfl, hp, by simpa using hpre, rfl, (trimPrefix_of_hasPrefix hp).symm⟩
    · rintro ⟨⟩
  · rintro ⟨pre, l, post, rfl, hp, hpre, rfl, hrp⟩
    have hfind : (pre ++ l :: post).find? (fun l => hasPrefix path l.pathPrefix) = some l :=
      List.find?_eq_some.2 ⟨hp, pre, post, rfl, by simpa using hpre⟩
    rw [hfind]
    have := trimPrefix_of_hasPrefix hp
    rw [hrp] at this ⊢
    simpa [String.ext_iff] using this

theorem resolveLookups_error_iff (lookups : List ApiLookupPath) (hf : PrefixesAtFront path lookups) :
    (∃ msg, resolveLookups response path lookups = .error msg) ↔
      ∀ l ∈ lookups, hasPrefix path l.pathPrefix = false := by
  rw [resolveLookups_eq_find response path lookups hf]
  split
  · rename_i l hl
    obtain ⟨hp, -⟩ := List.find?_eq_some.1 hl
    exact iff_of_false (by simp) fun h => by simp [h l (List.mem_of_find?_eq_some hl)] at hp
  · rename_i hl
    simpa using List.find?_eq_none.1 hl

/-- Lookup paths sent longest prefix first. -/
def SortedByPrefixLength (lookups : List ApiLookupPath) : Prop :=
  lookups.Pairwise fun a b => b.pathPrefix.length ≤ a.pathPrefix.length

/-- When the lookup paths come longest prefix first, the first whose prefix is a
prefix of the request path has the longest such prefix. -/
theorem first_match_longest {pre post : List ApiLookupPath} {l : ApiLookupPath}
    (hs : SortedByPrefixLength (pre ++ l :: post)) (hpre : ∀ l' ∈ pre, hasPrefix path l'.pathPrefix = false) :
    ∀ l' ∈ pre ++ l :: post, hasPrefix path l'.pathPrefix = true →
      l'.pathPrefix.length ≤ l.pathPrefix.length := by
  intro l' hl' hp
  obtain ⟨-, hlp, -⟩ := List.pairwise_append.mp hs
  rcases List.mem_append.mp hl' with h | h
  · simp [hpre l' h] at hp
  · rcases List.mem_cons.mp h with rfl | h
    · exact le_refl _
    · exact List.rel_of_pairwise_cons hlp h

end Lookups

/-- **What `Resolve` answers.** An error of the API is `Resolve`'s error. Given
a response, and a request path in which every prefix that occurs, up to the
first lookup path whose prefix is a prefix of it, occurs at its front:
`Resolve` does not panic; it answers the first lookup path, in the API's
order, whose prefix is a prefix of the request path, with the request path
less that prefix; it fails exactly when no prefix is a prefix of the request
path; and when the API sends the lookup paths longest prefix first, the prefix
it answers is the longest that is a prefix of the request path. -/
theorem resolve_first_match (client : Client) (host path : String) :
    (∀ e, client host = .error e → resolve client host path = .error e) ∧
      ∀ response, client host = .ok (some response) → PrefixesAtFront path response.lookupPaths →
        resolve client host path ≠ .panic ∧
          (∀ lp rp, resolve client host path = .ok lp rp ↔
            ∃ pre l post, response.lookupPaths = pre ++ l :: post ∧ hasPrefix path l.pathPrefix = true ∧
              (∀ l' ∈ pre, hasPrefix path l'.pathPrefix = false) ∧
              lp = toLookupPath response l ∧ path = l.pathPrefix ++ rp) ∧
          ((∃ msg, resolve client host path = .error msg) ↔
            ∀ l ∈ response.lookupPaths, hasPrefix path l.pathPrefix = false) ∧
          (SortedByPrefixLength response.lookupPaths → ∀ lp rp, resolve client host path = .ok lp rp →
            ∀ l ∈ response.lookupPaths, hasPrefix path l.pathPrefix = true →
              l.pathPrefix.length ≤ lp.pathPrefix.length) := by
  refine ⟨fun e he => by simp [resolve, he], fun response hresp hfront => ?_⟩
  simp only [resolve, hresp]
  refine ⟨resolveLookups_ne_panic _ _ _, resolveLookups_ok_iff _ _ _ hfront,
    resolveLookups_error_iff _ _ _ hfront, fun hs lp rp h => ?_⟩
  obtain ⟨pre, l, post, heq, -, hpre, rfl, -⟩ := (resolveLookups_ok_iff _ _ _ hfront lp rp).mp h
  rw [heq] at hs ⊢
  exact first_match_longest path hs hpre

/-- A lookup path with a prefix and nothing else. -/
def lookupAt (pre : String) : ApiLookupPath := ⟨0, false, false, pre, ⟨"zip", "/public.zip"⟩⟩

/-- The lookup paths `/foo/`, `/bar/`: the path `/foo/bar/x` resolves to
`/foo/`, although `/bar/` occurs inside it, since `/foo/` comes first. -/
theorem resolve_first_match_before_inner :
    (fun _ => .ok (some ⟨"", "", [lookupAt "/foo/", lookupAt "/bar/"]⟩) : Client) "a.test" =
        .ok (some ⟨"", "", [lookupAt "/foo/", lookupAt "/bar/"]⟩) ∧
      PrefixesAtFront "/foo/bar/x" [lookupAt "/foo/", lookupAt "/bar/"] ∧
      resolve (fun _ => .ok (some ⟨"", "", [lookupAt "/foo/", lookupAt "/bar/"]⟩)) "a.test" "/foo/bar/x" =
        .ok (toLookupPath ⟨"", "", [lookupAt "/foo/", lookupAt "/bar/"]⟩ (lookupAt "/foo/")) "bar/x" :=
  have hf : PrefixesAtFront "/foo/bar/x" [lookupAt "/foo/", lookupAt "/bar/"] := fun pre l post e hpre hc => by
    rcases pre with _ | ⟨l₁, _ | ⟨l₂, pre⟩⟩ <;> simp only [List.cons_append, List.nil_append, List.cons.injEq] at e
    · rw [← e.1]; decide
    · exact absurd (hpre l₁ (List.mem_singleton_self _)) (by rw [← e.1]; decide)
    · simp at e
  have hm : ∃ pre l post, [lookupAt "/foo/", lookupAt "/bar/"] = pre ++ l :: post ∧
      hasPrefix "/foo/bar/x" l.pathPrefix = true ∧ (∀ l' ∈ pre, hasPrefix "/foo/bar/x" l'.pathPrefix = false) ∧
      toLookupPath ⟨"", "", [lookupAt "/foo/", lookupAt "/bar/"]⟩ (lookupAt "/foo/") =
        toLookupPath ⟨"", "", [lookupAt "/foo/", lookupAt "/bar/"]⟩ l ∧ "/foo/bar/x" = l.pathPrefix ++ "bar/x" :=
    ⟨[], lookupAt "/foo/", [lookupAt "/bar/"], rfl, by decide, fun _ h => (by cases h), rfl, by decide⟩
  ⟨rfl, hf, (((resolve_first_match _ "a.test" "/foo/bar/x").2 _ rfl hf).2.1 _ _).2 hm⟩

/-- **`Resolve` is not a longest-prefix match.** Sent in the order `/`, `/foo/`,
the path `/foo/index.html` resolves to `/` although `/foo/` is a longer prefix
of it; a nil response panics; and a prefix that occurs inside the path but
not at its front (`/bar/` in `/foo/bar/`) is answered, with nothing trimmed. -/
theorem resolve_not_longest_prefix :
    resolve (fun _ => .ok (some ⟨"", "", [lookupAt "/", lookupAt "/foo/"]⟩)) "a.test" "/foo/index.html" =
        .ok (toLookupPath ⟨"", "", [lookupAt "/", lookupAt "/foo/"]⟩ (lookupAt "/")) "foo/index.html" ∧
      resolve (fun _ => .ok none) "a.test" "/" = .panic ∧
      resolve (fun _ => .ok (some ⟨"", "", [lookupAt "/bar/", lookupAt "/"]⟩)) "a.test" "/foo/bar/" =
        .ok (toLookupPath ⟨"", "", [lookupAt "/bar/", lookupAt "/"]⟩ (lookupAt "/bar/")) "/foo/bar/" := by
  decide

end Source
end GitlabPages
