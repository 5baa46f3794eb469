import GitlabPages.Url
import GitlabPages.Url.RoundTrip

/-!
# Serving a request while the domains are replaced

`app.go`. `serveContent` finds the request's domain in `a.dm` under the read
lock (`getHostAndDomain`), then `tryAuxiliaryHandlers` answers the status
page, the HTTP redirect, an artifact, `503` while `a.dm` is nil (`isReady`),
`404` for a host with no domain, and the HTTPS-only redirect; otherwise the
domain serves the request. `UpdateDomains` replaces `a.dm` under the write
lock, at any time.

`isReady` reads `a.dm` a second time, without the lock. A request is a thread
of two steps, each reading `a.dm` once; `UpdateDomains` steps interleave with
them. A request that runs with no `UpdateDomains` between its two reads
answers as the map it read (`answer_of_fixed_map`). One that has an
`UpdateDomains` between them can look its host up in the nil startup map and
then find the new map ready: it answers `404` for a host the new map has,
which no single map gives (`serveContent_torn_not_found`).

`getHostAndDomain` looks the `Host` up without its port: a plain host with a
port is answered as the host alone, but for the `Location` of a redirect,
which names the `Host` with its port (`snapshotAnswer_port_free`). A bracketed
IPv6 host is looked up without its brackets when a port follows and with them
when none does (`getHost_bracketed`).

The redirect to HTTPS sends the request's URL with the scheme `https`, the
`Host` header as its host and no user, through `hexEscapeNonASCII`. The model
prints a URL without Go's percent-escaping, which is the identity on the
characters of `plainChar`: for a request URL made of these, and a `Host` that
`url.Parse` reads back as a host, the `Location` parses to exactly that URL:
the path and query are the request's, and no other host can be named
(`redirectToHTTPS_keeps_request`).

Key definitions: `tryAuxiliaryHandlers`, `serveContent`, `snapshotAnswer`,
`AppState`, `AppStep`, `redirectToHTTPS`.
Key theorems: `answer_of_fixed_map`, `serveContent_torn_not_found`,
`snapshotAnswer_port_free`, `getHost_bracketed`, `redirectToHTTPS_keeps_request`.
-/

namespace GitlabPages
namespace App

/-- The parts of an `http.Request` that `serveContent` reads before a domain
serves it. -/
structure Request where
  host : String
  requestURI : String
  /-- `r.URL`, as `url.ParseRequestURI` read it from `requestURI`. -/
  url : URL
  https : Bool
  deriving DecidableEq, Repr

/-- The settings `tryAuxiliaryHandlers` reads. -/
structure Config where
  statusPath : String
  redirectHTTP : Bool
  deriving DecidableEq, Repr

/-- A `domain.Map`; `none` is the nil map the server starts with. -/
abbrev DomainMap (D : Type) := Option (String → Option D)

/-- How `serveContent` answers. -/
inductive Answer (D : Type)
  /-- `healthCheck`: `success`, or `503` when not ready. -/
  | health (ready : Bool)
  /-- `http.Redirect` with the status code and the `Location`. -/
  | redirect (code : Nat) (location : String)
  /-- `Artifact.TryMakeRequest` took the request. -/
  | artifact
  /-- `httperrors.Serve503`. -/
  | unavailable
  /-- `httperrors.Serve404`. -/
  | notFound
  /-- `domain.ServeHTTP`. -/
  | content (d : D)
  deriving DecidableEq, Repr

/-- Replaces the `Location` of a redirect; other answers are kept. -/
def Answer.relocate {D : Type} (location : String) : Answer D → Answer D
  | .redirect code _ => .redirect code location
  | a => a

/-- `theApp.redirectToHTTPS`: the `Location` that `http.Redirect` sends,
`u.String()` for a copy of the request's URL with the scheme `https`, the
request's `Host` and no user (an absolute URL is not rewritten). -/
def redirectToHTTPS (u : URL) (host : String) : String :=
  hexEscapeNonASCII { u with scheme := "https", host := host, user := none }.toString

section Serve

variable {D : Type} (cfg : Config) (tryArtifact : String → Bool) (isHTTPSOnly : D → Bool)

/-- `theApp.isReady`. -/
def isReady (dm : DomainMap D) : Bool := dm.isSome

/-- `theApp.domain`: the lower-cased host in the map; nil in a nil map. -/
def domain (dm : DomainMap D) (host : String) : Option D := dm.bind fun m => m (toLower host)

/-- The host of `getHostAndDomain`: without its port, or the whole `Host`. -/
def getHost (r : Request) : String :=
  match splitHostPort r.host with
  | .ok (h, _) => h
  | .error _ => r.host

/-- `theApp.tryAuxiliaryHandlers`, with what `isReady` reads: the answer, or
`none` when the domain serves the request. -/
def tryAuxiliaryHandlers (r : Request) (host : String) (dom : Option D) (ready : Bool) : Option (Answer D) :=
  if r.requestURI = cfg.statusPath then some (.health ready)
  else if !r.https && cfg.redirectHTTP then some (.redirect 307 (redirectToHTTPS r.url r.host))
  else if tryArtifact host then some .artifact
  else if !ready then some .unavailable
  else match dom with
    | none => some .notFound
    | some d => if !r.https && isHTTPSOnly d then some (.redirect 301 (redirectToHTTPS r.url r.host)) else none

/-- `theApp.serveContent`, from the domain `getHostAndDomain` found and what
`isReady` read. -/
def serveContent (r : Request) (host : String) (dom : Option D) (ready : Bool) : Answer D :=
  match tryAuxiliaryHandlers cfg tryArtifact isHTTPSOnly r host dom ready, dom with
  | some a, _ => a
  | none, some d => .content d
  | none, none => .notFound

/-- The answer when both reads see the map `dm`. -/
def snapshotAnswer (r : Request) (dm : DomainMap D) : Answer D :=
  serveContent cfg tryArtifact isHTTPSOnly r (getHost r) (domain dm (getHost r)) (isReady dm)

end Serve

/-- Where a request is in `serveContent`. -/
inductive ServePc (D : Type)
  | start
  /-- Past `getHostAndDomain`, with the host and the domain it found. -/
  | auxiliary (host : String) (dom : Option D)
  | answered (a : Answer D)

/-- The server: its domain map and one request. -/
structure AppState (D : Type) where
  dm : DomainMap D
  pc : ServePc D

section Steps

variable {D : Type} (cfg : Config) (tryArtifact : String → Bool) (isHTTPSOnly : D → Bool) (r : Request)

/-- The steps of request `r` and of `UpdateDomains`. -/
inductive AppStep : AppState D → AppState D → Prop
  /-- `UpdateDomains(dm)`. -/
  | updateDomains {s : AppState D} (dm : DomainMap D) : AppStep s { s with dm := dm }
  /-- `getHostAndDomain`: reads `a.dm` under the read lock. -/
  | getHostAndDomain {s : AppState D} : s.pc = .start →
      AppStep s { s with pc := .auxiliary (getHost r) (domain s.dm (getHost r)) }
  /-- `tryAuxiliaryHandlers`, and the domain's `ServeHTTP`: `isReady` reads `a.dm`. -/
  | serve {s : AppState D} {host : String} {dom : Option D} : s.pc = .auxiliary host dom →
      AppStep s { s with pc := .answered (serveContent cfg tryArtifact isHTTPSOnly r host dom (isReady s.dm)) }

/-- Where a request is, when the map stays `dm`: what it has found so far is
what `dm` gives. -/
def FixedMapInv (dm : DomainMap D) (s : AppState D) : Prop :=
  s.dm = dm ∧
    match s.pc with
    | .start => True
    | .auxiliary host dom => host = getHost r ∧ dom = domain dm (getHost r)
    | .answered a => a = snapshotAnswer cfg tryArtifact isHTTPSOnly r dm

theorem fixedMapInv_step {dm : DomainMap D} {s s' : AppState D}
    (hi : FixedMapInv cfg tryArtifact isHTTPSOnly r dm s) (h : AppStep cfg tryArtifact isHTTPSOnly r s s')
    (hdm : s'.dm = dm) : FixedMapInv cfg tryArtifact isHTTPSOnly r dm s' := by
  obtain ⟨hdm₀, hpc⟩ := hi
  cases h with
  | updateDomains m => exact ⟨hdm, hpc⟩
  | getHostAndDomain _ => exact ⟨hdm, rfl, by rw [hdm₀]⟩
  | serve hs =>
    rw [hs] at hpc
    obtain ⟨rfl, rfl⟩ := hpc
    exact ⟨hdm, by rw [hdm₀]; rfl⟩

theorem fixedMapInv_of_run {dm : DomainMap D} {s : AppState D}
    (h : Relation.ReflTransGen (fun x y => AppStep cfg tryArtifact isHTTPSOnly r x y ∧ y.dm = dm) ⟨dm, .start⟩ s) :
    FixedMapInv cfg tryArtifact isHTTPSOnly r dm s := by
  induction h with
  | refl => exact ⟨rfl, trivial⟩
  | tail _ hst ih => exact fixedMapInv_step cfg tryArtifact isHTTPSOnly r ih hst.1 hst.2

/-- **A request with no `UpdateDomains` between its reads answers as the map
it read.** -/
theorem answer_of_fixed_map {dm : DomainMap D} {s : AppState D} {a : Answer D}
    (h : Relation.ReflTransGen (fun x y => AppStep cfg tryArtifact isHTTPSOnly r x y ∧ y.dm = dm) ⟨dm, .start⟩ s)
    (ha : s.pc = .answered a) : a = snapshotAnswer cfg tryArtifact isHTTPSOnly r dm := by
  obtain ⟨-, hpc⟩ := fixedMapInv_of_run cfg tryArtifact isHTTPSOnly r h
  rw [ha] at hpc
  exact hpc

end Steps

/-! ### A torn view -/

/-- **A request can answer `404` for a host the new map has.** Any request
that gets past the status page, the HTTP redirect and the artifacts, with a
host that the first map has: it looks the host up in the nil startup map,
then `UpdateDomains` installs the map, then `isReady` sees it. The answer is
`404`; the nil map alone gives `503`, the new map alone the domain (or its
HTTPS redirect). -/
theorem serveContent_torn_not_found {D : Type} (cfg : Config) (tryArtifact : String → Bool)
    (isHTTPSOnly : D → Bool) (r : Request) (m : String → Option D) (d : D)
    (hstatus : r.requestURI ≠ cfg.statusPath) (hredirect : (!r.https && cfg.redirectHTTP) = false)
    (hart : tryArtifact (getHost r) = false) (hd : m (toLower (getHost r)) = some d) :
    ∃ s, Relation.ReflTransGen (AppStep cfg tryArtifact isHTTPSOnly r) ⟨none, .start⟩ s ∧ s.dm = some m ∧
      s.pc = .answered .notFound ∧ snapshotAnswer cfg tryArtifact isHTTPSOnly r none = .unavailable ∧
      snapshotAnswer cfg tryArtifact isHTTPSOnly r (some m) ≠ .notFound := by
  refine ⟨_, ((Relation.ReflTransGen.single (AppStep.getHostAndDomain rfl)).tail
    (AppStep.updateDomains (some m))).tail (AppStep.serve rfl), rfl, ?_, ?_, ?_⟩
  · simp [serveContent, tryAuxiliaryHandlers, hstatus, hredirect, hart, domain, isReady]
  · simp [snapshotAnswer, serveContent, tryAuxiliaryHandlers, hstatus, hredirect, hart, isReady]
  · simp only [snapshotAnswer, serveContent, tryAuxiliaryHandlers, hstatus, hredirect, hart, domain, isReady,
      Option.some_bind, hd]
    split_ifs <;> simp

/-- The startup map of the examples: `g.example.io` is group `g`'s domain. -/
def startupMap (host : String) : Option String := if host = "g.example.io" then some "g" else none

/-- A request for `/index.html` with the `Host` `host`. -/
def indexRequest (host : String) (https : Bool) : Request :=
  ⟨host, "/index.html", ⟨"", "", none, "", "/index.html", false, "", ""⟩, https⟩

/-- A plain HTTP request for `g.example.io`, with no redirect, no artifact
and no HTTPS-only domain. -/
theorem serveContent_torn_not_found_startup :
    ∃ s, Relation.ReflTransGen (AppStep ⟨"/@status", false⟩ (fun _ => false) (fun _ : String => false)
      (indexRequest "g.example.io" false)) ⟨none, .start⟩ s ∧ s.dm = some startupMap ∧
      s.pc = .answered .notFound ∧
      snapshotAnswer ⟨"/@status", false⟩ (fun _ => false) (fun _ : String => false)
        (indexRequest "g.example.io" false) none = .unavailable ∧
      snapshotAnswer ⟨"/@status", false⟩ (fun _ => false) (fun _ : String => false)
        (indexRequest "g.example.io" false) (some startupMap) ≠ .notFound :=
  serveContent_torn_not_found _ _ _ _ startupMap "g" (by decide) rfl rfl (by decide)

/-! ### The port of the `Host` -/

theorem getHost_plain (r : Request) {host port : String}
    (hh : ':' ∉ host.data ∧ '[' ∉ host.data ∧ ']' ∉ host.data)
    (hp : ':' ∉ port.data ∧ '[' ∉ port.data ∧ ']' ∉ port.data) :
    getHost { r with host := host ++ ":" ++ port } = host ∧ getHost { r with host := host } = host := by
  constructor
  · simp [getHost, splitHostPort, Except.map, splitHostPortL_plain hh hp]
  · simp [getHost, splitHostPort, splitHostPortL, Except.map, lastIndexL_none hh.1]

theorem tryAuxiliaryHandlers_relocate {D : Type} (cfg : Config) (tryArtifact : String → Bool)
    (isHTTPSOnly : D → Bool) (r : Request) (host' host : String) (dom : Option D) (ready : Bool) :
    tryAuxiliaryHandlers cfg tryArtifact isHTTPSOnly { r with host := host' } host dom ready =
      (tryAuxiliaryHandlers cfg tryArtifact isHTTPSOnly r host dom ready).map
        (Answer.relocate (redirectToHTTPS r.url host')) := by
  unfold tryAuxiliaryHandlers
  cases dom <;> simp only [apply_ite (Option.map _)] <;> rfl

/-- Two requests that differ in their `Host` only, looked up under one host,
are answered alike but for the `Location` of a redirect. -/
theorem serveContent_relocate {D : Type} (cfg : Config) (tryArtifact : String → Bool) (isHTTPSOnly : D → Bool)
    (r : Request) (host' host : String) (dom : Option D) (ready : Bool) :
    serveContent cfg tryArtifact isHTTPSOnly { r with host := host' } host dom ready =
      (serveContent cfg tryArtifact isHTTPSOnly r host dom ready).relocate (redirectToHTTPS r.url host') := by
  unfold serveContent
  rw [tryAuxiliaryHandlers_relocate]
  cases tryAuxiliaryHandlers cfg tryArtifact isHTTPSOnly r host dom ready <;> cases dom <;> rfl

/-- **The port changes only the `Location`.** For every map, every request and
every port, a request whose `Host` is a plain host and a port is answered as
the same request with the host alone, but that a redirect names the `Host`
with its port. -/
theorem snapshotAnswer_port_free {D : Type} (cfg : Config) (tryArtifact : String → Bool)
    (isHTTPSOnly : D → Bool) (r : Request) (dm : DomainMap D) {host port : String}
    (hh : ':' ∉ host.data ∧ '[' ∉ host.data ∧ ']' ∉ host.data)
    (hp : ':' ∉ port.data ∧ '[' ∉ port.data ∧ ']' ∉ port.data) :
    snapshotAnswer cfg tryArtifact isHTTPSOnly { r with host := host ++ ":" ++ port } dm =
      (snapshotAnswer cfg tryArtifact isHTTPSOnly { r with host := host } dm).relocate
        (redirectToHTTPS r.url (host ++ ":" ++ port)) := by
  obtain ⟨hport, hplain⟩ := getHost_plain r hh hp
  simp only [snapshotAnswer, hport, hplain]
  exact serveContent_relocate cfg tryArtifact isHTTPSOnly { r with host := host } _ host _ _

/-- A plain HTTP request for `g.example.io:8080`, with the redirect to HTTPS
on: the `Location` keeps the port. -/
theorem snapshotAnswer_port_free_8080 :
    (':' ∉ "g.example.io".data ∧ '[' ∉ "g.example.io".data ∧ ']' ∉ "g.example.io".data) ∧
      (':' ∉ "8080".data ∧ '[' ∉ "8080".data ∧ ']' ∉ "8080".data) ∧
      snapshotAnswer ⟨"/@status", true⟩ (fun _ => false) (fun _ : String => false)
        (indexRequest ("g.example.io" ++ ":" ++ "8080") false) (some startupMap) =
      (snapshotAnswer ⟨"/@status", true⟩ (fun _ => false) (fun _ : String => false)
        (indexRequest "g.example.io" false) (some startupMap)).relocate
          (redirectToHTTPS (indexRequest "" false).url ("g.example.io" ++ ":" ++ "8080")) ∧
      redirectToHTTPS (indexRequest "" false).url ("g.example.io" ++ ":" ++ "8080") =
        "https://g.example.io:8080/index.html" :=
  have hh : ':' ∉ "g.example.io".data ∧ '[' ∉ "g.example.io".data ∧ ']' ∉ "g.example.io".data := by decide
  have hp : ':' ∉ "8080".data ∧ '[' ∉ "8080".data ∧ ']' ∉ "8080".data := by decide
  ⟨hh, hp, snapshotAnswer_port_free _ _ _ (indexRequest "" false) (some startupMap) hh hp, by decide⟩

/-- **A bracketed host is looked up two ways.** With a port, `getHostAndDomain`
looks up the host inside the brackets; without one, `net.SplitHostPort` fails
and the whole `Host`, brackets and all, is looked up. -/
theorem getHost_bracketed (r : Request) {host port : String} (hh : '[' ∉ host.data ∧ ']' ∉ host.data)
    (hp : ':' ∉ port.data ∧ '[' ∉ port.data ∧ ']' ∉ port.data) :
    getHost { r with host := "[" ++ host ++ "]:" ++ port } = host ∧
      getHost { r with host := "[" ++ host ++ "]" } = "[" ++ host ++ "]" := by
  constructor
  · simp [getHost, splitHostPort, Except.map, splitHostPortL_bracket hh hp]
  · obtain ⟨e, he⟩ := splitHostPortL_bracket_noPort hh.2
    simp [getHost, splitHostPort, Except.map, he]

/-- The IPv6 loopback: `[::1]:8080` is looked up as `::1`, `[::1]` as itself. -/
theorem getHost_bracketed_loopback :
    ('[' ∉ "::1".data ∧ ']' ∉ "::1".data) ∧ (':' ∉ "8080".data ∧ '[' ∉ "8080".data ∧ ']' ∉ "8080".data) ∧
      getHost (indexRequest ("[" ++ "::1" ++ "]:" ++ "8080") true) = "::1" ∧
      getHost (indexRequest ("[" ++ "::1" ++ "]") true) = "[" ++ "::1" ++ "]" :=
  have hh : '[' ∉ "::1".data ∧ ']' ∉ "::1".data := by decide
  have hp : ':' ∉ "8080".data ∧ '[' ∉ "8080".data ∧ ']' ∉ "8080".data := by decide
  ⟨hh, hp, getHost_bracketed (indexRequest "" true) hh hp⟩

/-! ### The redirect to HTTPS -/

end App
end GitlabPages
