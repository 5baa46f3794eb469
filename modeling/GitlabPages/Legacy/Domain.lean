import GitlabPages.Path

/-!
# Serving a group's sites from disk (the legacy domain)

The legacy `domain` of `unnamed/part_004`: a group's sites live under
`pagesRoot/group/project/public`. `ServeHTTP` takes the project from the
domain's configuration, or, for a group domain, from the first segment of the
URL path (and then from the host); `tryFile` joins the public directory with
the rest of the path, cleans it, keeps it only if it begins with the public
directory's path, and serves it if `os.Lstat` finds a regular file there (or
an `index.html` in a directory).

The check is a string prefix test, so `public-private` passes for `public`
(`serveHTTP_sibling_public`). What `os.Lstat` and `os.Open` reach is decided by
the operating system, which follows symbolic links in every directory of the
path: `resolve` walks a name component by component as POSIX does, following
at most 40 links.

`tryFile` serves a name only after `os.Lstat` found a regular file there, and
`os.Open` follows the links `os.Lstat` followed (they differ only at a link as
the last component), so it opens that same node: whatever links the file
system holds, `ServeHTTP` serves regular files only, each the node `os.Lstat`
found for the full path of one of its `tryFile` calls, or for that path's
`index.html` (`tryFileCalls`, `LstatServes`, `serveHTTP_regular`).

Key definitions: `Node`, `FS`, `resolve`, `lstat`, `filepathJoin`, `tryFilePath`,
`tryFile`, `serveFromGroup`, `serveFromConfig`, `serveHTTP`, `tryFileCalls`.
Key theorems: `serveHTTP_sibling_public`, `walk_followLast`, `resolve_followLast`,
`tryFile_lstat`, `serveHTTP_regular`.
-/

namespace GitlabPages
namespace Legacy

/-- What a name on disk is. -/
inductive Node
  | dir
  | file
  | symlink (target : String)
  deriving DecidableEq, Repr

/-- A file system: the node at each absolute path, by its components. -/
abbrev FS := List String → Option Node

/-- The components of a name, empty ones and `.` included (`strings.Split`). -/
def components (p : String) : List String := (splitSlash p.data).map String.mk

/-- Where a walk over the components of a name ends: at a path, in an error, or
at a symbolic link that has to be followed. -/
inductive Walk
  | done (p : List String)
  | fail
  | follow (dir : List String) (target : String) (rest : List String)

/-- Walk the components `rest` from the resolved directory `cur` until a link
has to be followed. A link as the last component is followed only when
`followLast` is set (`open`, not `lstat`). -/
def walk (fs : FS) (followLast : Bool) (cur : List String) : List String → Walk
  | [] => .done cur
  | c :: cs =>
    if c = "" ∨ c = "." then walk fs followLast cur cs
    else if c = ".." then walk fs followLast cur.dropLast cs
    else match fs (cur ++ [c]) with
      | none => if cs = [] then .done (cur ++ [c]) else .fail
      | some .dir => walk fs followLast (cur ++ [c]) cs
      | some .file => if cs = [] then .done (cur ++ [c]) else .fail
      | some (.symlink t) =>
        if cs = [] ∧ followLast = false then .done (cur ++ [c]) else .follow cur t cs

/-- `maxSymlinks`: the number of links a lookup follows before `ELOOP`. -/
def maxSymlinks : Nat := 40

/-- Path resolution: the absolute path, by components, that a name resolves
to, following at most `fuel` links. -/
def resolve (fs : FS) (followLast : Bool) : Nat → List String → List String → Option (List String)
  | fuel, cur, rest =>
    match walk fs followLast cur rest with
    | .done p => some p
    | .fail => none
    | .follow dir t cs =>
      match fuel with
      | 0 => none
      | n + 1 => resolve fs followLast n (if t.data.head? = some '/' then [] else dir) (components t ++ cs)

/-- `os.Lstat(name)`: the node the name itself is (a last link not followed),
and where it is. -/
def lstat (fs : FS) (name : String) : Option (List String × Node) :=
  (resolve fs false maxSymlinks [] (components name)).bind fun p => (fs p).map fun n => (p, n)

/-- `os.Open(name)`: the file the name leads to, every link followed. -/
def openFile (fs : FS) (name : String) : Option (List String) :=
  (resolve fs true maxSymlinks [] (components name)).bind fun p =>
    if (fs p).isSome then some p else none

/-- `filepath.Join(elem...)`: the elements from the first non-empty one,
joined by `/` and cleaned; empty if all are empty. -/
def filepathJoin (elems : List String) : String :=
  match elems.dropWhile (· = "") with
  | [] => ""
  | es => pathClean ("/".intercalate es)

/-- A legacy domain: its group, and the project of its configuration if it
has one. -/
structure Domain where
  group : String
  project : String
  hasConfig : Bool
  deriving DecidableEq, Repr

/-- The `fullPath` of `tryFile`: the public directory joined with the path,
cleaned. -/
def tryFilePath (pagesRoot : String) (d : Domain) (projectName subPath : String) : String :=
  pathClean (filepathJoin [filepathJoin [pagesRoot, d.group, projectName, "public"], subPath])

/-- `domain.tryFile`: the file it serves, as the operating system resolves it. -/
def tryFile (fs : FS) (pagesRoot : String) (d : Domain) (projectName subPath : String) :
    Option (List String) :=
  let publicPath := filepathJoin [pagesRoot, d.group, projectName, "public"]
  let fullPath := tryFilePath pagesRoot d projectName subPath
  if !hasPrefix fullPath publicPath then none
  else match lstat fs fullPath with
    | none => none
    | some (_, fi) =>
      let fullPath := if fi = .dir then filepathJoin [fullPath, "index.html"] else fullPath
      match (if fi = .dir then lstat fs fullPath else some ([], fi)) with
      | some (_, .file) => openFile fs fullPath
      | _ => none

/-- `domain.serveFromGroup`: the project from the first segment of the path,
then the lower-cased host as the project with the whole path. -/
def serveFromGroup (fs : FS) (pagesRoot : String) (d : Domain) (host path : String) :
    Option (List String) :=
  let split := splitN path '/' 3
  let fromSegment :=
    if split.length ≥ 2 then tryFile fs pagesRoot d (split.getD 1 "") (split.getD 2 "") else none
  match fromSegment with
  | some p => some p
  | none => tryFile fs pagesRoot d (toLower host) path

/-- `domain.serveFromConfig`. -/
def serveFromConfig (fs : FS) (pagesRoot : String) (d : Domain) (path : String) : Option (List String) :=
  tryFile fs pagesRoot d d.project path

/-- `domain.ServeHTTP`: the file served, or `none` for `notFound`. -/
def serveHTTP (fs : FS) (pagesRoot : String) (d : Domain) (host path : String) : Option (List String) :=
  if d.hasConfig then serveFromConfig fs pagesRoot d path else serveFromGroup fs pagesRoot d host path

/-- The calls of `tryFile` that `ServeHTTP` makes, in order, as (project,
path): the configured project with the whole path; or the first segment of
the path with the rest, then the lower-cased host with the whole path. -/
def tryFileCalls (d : Domain) (host path : String) : List (String × String) :=
  if d.hasConfig then [(d.project, path)]
  else
    let split := splitN path '/' 3
    (if split.length ≥ 2 then [(split.getD 1 "", split.getD 2 "")] else []) ++ [(toLower host, path)]

/-- A group `g` with a project `p`: its public directory, and a sibling
directory `public-private` beside it. -/
def siblingFS : FS
  | ["pages"] | ["pages", "g"] | ["pages", "g", "p"] | ["pages", "g", "p", "public"]
  | ["pages", "g", "p", "public-private"] => some .dir
  | ["pages", "g", "p", "public", "index.html"] | ["pages", "g", "p", "public-private", "secret.html"] =>
    some .file
  | _ => none

/-- **A sibling of `public` is served.** The request path
`/p/../public-private/secret.html` to the group domain of `g` serves
`/pages/g/p/public-private/secret.html`, which is inside no project's
`public` directory. -/
theorem serveHTTP_sibling_public :
    serveHTTP siblingFS "/pages" ⟨"g", "", false⟩ "g.example.io" "/p/../public-private/secret.html" =
        some ["pages", "g", "p", "public-private", "secret.html"] ∧
      ∀ q rest, ["pages", "g", "p", "public-private", "secret.html"] ≠ ["pages", "g", q, "public"] ++ rest := by
  refine ⟨by decide, fun q rest h => ?_⟩
  simp at h

/-! ### Regular files only -/

/-- A walk that `lstat` ends at a node that is no link is the walk `open`
takes: the two differ only at a link as the last component. -/
theorem walk_followLast (fs : FS) : ∀ (cur rest : List String),
    (∀ p, walk fs false cur rest = .done p → ∀ t, fs p ≠ some (.symlink t)) →
      walk fs true cur rest = walk fs false cur rest
  | cur, [], _ => rfl
  | cur, c :: cs, h => by
    simp only [walk] at h ⊢
    by_cases h₁ : c = "" ∨ c = "."
    · simp only [if_pos h₁] at h ⊢; exact walk_followLast fs cur cs h
    simp only [if_neg h₁] at h ⊢
    by_cases h₂ : c = ".."
    · simp only [if_pos h₂] at h ⊢; exact walk_followLast fs _ cs h
    simp only [if_neg h₂] at h ⊢
    cases hf : fs (cur ++ [c]) with
    | none => rfl
    | some n =>
      cases n with
      | dir => simp only [hf] at h ⊢; exact walk_followLast fs _ cs h
      | file => rfl
      | symlink t =>
        simp only [hf] at h ⊢
        by_cases hcs : cs = []
        · exact absurd hf (h _ (by simp [hcs]) t)
        · simp [hcs]

/-- Resolution for `lstat` that ends at a node that is no link is resolution
for `open`. -/
theorem resolve_followLast (fs : FS) : ∀ (fuel : Nat) (cur rest : List String) (p : List String),
    resolve fs false fuel cur rest = some p → (∀ t, fs p ≠ some (.symlink t)) → resolve fs true fuel cur rest = some p
  | fuel, cur, rest, p, h, hp => by
    unfold resolve at h ⊢
    have hw := walk_followLast fs cur rest fun q hq t => by
      rw [hq] at h; cases h; exact hp t
    rw [hw]
    split at h
    · exact h
    · cases h
    · split at h
      · cases h
      · exact resolve_followLast fs _ _ _ p h hp

/-- What `os.Lstat` finds to be a regular file, `os.Open` opens: the same node. -/
theorem openFile_of_lstat {fs : FS} {name : String} {p : List String} (h : lstat fs name = some (p, .file)) :
    openFile fs name = some p ∧ fs p = some .file := by
  unfold lstat at h
  cases hr : resolve fs false maxSymlinks [] (components name) with
  | none => simp [hr] at h
  | some q =>
    simp only [hr, Option.some_bind, Option.map_eq_some', Prod.mk.injEq] at h
    obtain ⟨n, hq, rfl, rfl⟩ := h
    refine ⟨?_, hq⟩
    simp [openFile, resolve_followLast fs _ _ _ q hr (by simp [hq]), hq]

/-- What `os.Lstat` checked before `tryFile` served `p`: the name is the
regular file `p` itself, or a directory whose `index.html` is. -/
def LstatServes (fs : FS) (name : String) (p : List String) : Prop :=
  lstat fs name = some (p, .file) ∨
    ∃ q, lstat fs name = some (q, .dir) ∧ lstat fs (filepathJoin [name, "index.html"]) = some (p, .file)

theorem lstat_node {fs : FS} {name : String} {p : List String} {n : Node} (h : lstat fs name = some (p, n)) :
    fs p = some n := by
  unfold lstat at h
  obtain ⟨q, -, hq⟩ := Option.bind_eq_some.1 h
  obtain ⟨n', hn, e⟩ := Option.map_eq_some'.1 hq
  cases e
  exact hn

theorem LstatServes.file {fs : FS} {name : String} {p : List String} (h : LstatServes fs name p) :
    fs p = some .file := by
  rcases h with h | ⟨_, -, h⟩ <;> exact lstat_node h

/-- `tryFile` serves the node `os.Lstat` checked: the full path, or its
`index.html` when the full path is a directory. -/
theorem tryFile_lstat {fs : FS} {pagesRoot : String} {d : Domain} {projectName subPath : String}
    {p : List String} (h : tryFile fs pagesRoot d projectName subPath = some p) :
    LstatServes fs (tryFilePath pagesRoot d projectName subPath) p := by
  unfold tryFile at h
  dsimp only at h
  split_ifs at h
  split at h
  · cases h
  · rename_i fi hl
    by_cases hd : fi = .dir
    · subst hd
      simp only [if_true] at h
      split at h
      · rename_i q hq
        rw [(openFile_of_lstat hq).1] at h
        cases h
        exact .inr ⟨_, hl, hq⟩
      · cases h
    · simp only [hd, if_false] at h
      split at h
      · rename_i q hq
        cases hq
        rw [(openFile_of_lstat hl).1] at h
        cases h
        exact .inl hl
      · cases h

/-- What `ServeHTTP` serves, one of its `tryFile` calls served. -/
theorem serveHTTP_tryFile {fs : FS} {pagesRoot : String} {d : Domain} {host path : String} {p : List String}
    (h : serveHTTP fs pagesRoot d host path = some p) :
    ∃ call ∈ tryFileCalls d host path, tryFile fs pagesRoot d call.1 call.2 = some p := by
  unfold serveHTTP serveFromConfig serveFromGroup at h
  unfold tryFileCalls
  split_ifs at h ⊢
  · exact ⟨_, List.mem_singleton_self _, h⟩
  · dsimp only at h ⊢
    split at h
    · rename_i q hq
      cases h
      split_ifs at hq ⊢
      exact ⟨_, List.mem_append_left _ (List.mem_singleton_self _), hq⟩
    · exact ⟨_, List.mem_append_right _ (List.mem_singleton_self _), h⟩

/-- **The legacy server serves regular files only, as `os.Lstat` found them.**
On every file system, whatever links it holds, for every domain, host and
request path: what `ServeHTTP` serves is a regular file, and it is the node
`os.Lstat` found for the full path of one of its `tryFile` calls (or for that
path's `index.html`, when the full path is a directory), with no link
followed as the last component. So a directory, a link, or a file reached
through a link as the last component is never served. -/
theorem serveHTTP_regular {fs : FS} {pagesRoot : String} {d : Domain} {host path : String} {p : List String}
    (h : serveHTTP fs pagesRoot d host path = some p) :
    fs p = some .file ∧
      ∃ call ∈ tryFileCalls d host path, LstatServes fs (tryFilePath pagesRoot d call.1 call.2) p := by
  obtain ⟨call, hc, ht⟩ := serveHTTP_tryFile h
  exact ⟨(tryFile_lstat ht).file, call, hc, tryFile_lstat ht⟩

/-- A group domain serving `/p/` gives the project's `index.html`: `os.Lstat`
found the directory `public`, then its `index.html`. -/
theorem serveHTTP_regular_index :
    serveHTTP siblingFS "/pages" ⟨"g", "", false⟩ "g.example.io" "/p/" = some ["pages", "g", "p", "public", "index.html"] ∧
      siblingFS ["pages", "g", "p", "public", "index.html"] = some .file ∧
      ∃ call ∈ tryFileCalls ⟨"g", "", false⟩ "g.example.io" "/p/",
        LstatServes siblingFS (tryFilePath "/pages" ⟨"g", "", false⟩ call.1 call.2)
          ["pages", "g", "p", "public", "index.html"] :=
  have h : serveHTTP siblingFS "/pages" ⟨"g", "", false⟩ "g.example.io" "/p/" =
      some ["pages", "g", "p", "public", "index.html"] := by decide
  ⟨h, serveHTTP_regular h⟩

end Legacy
end GitlabPages
