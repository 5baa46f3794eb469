import GitlabPages.Path

/-!
# URLs and host-port pairs, as Go parses them

The parts of Go's `net/url`, `net` and `net/http` the server relies on:
`url.Parse`, `URL.String`, `url.QueryEscape`, `net.SplitHostPort`, and the
`hexEscapeNonASCII` that `http.Redirect` puts the `Location` through. The server keys the archive cache by
`url.Parse(u).String()`, and the auth layer takes the host of the `domain`
parameter with `url.Parse` and then `net.SplitHostPort`.

`url.Parse` is followed step by step: the fragment is cut at the first `#`,
then the scheme, the query at the first `?`, an opaque part when a scheme is
followed by no `/`, and the authority after `//`, whose host is what follows
the last `@`. Percent-decoding and escaping are left out (`unescape` and
`escape` are the identity here), as are IPv6 zones and the validation of user
information: on URLs without `%` and without characters that Go escapes, the
model computes what Go computes.

Key definitions: `URL`, `getScheme`, `parseHost`, `urlParse`, `URL.toString`,
`splitHostPort`.
Key theorem: `URL.toString_rawQuery`.
-/

namespace GitlabPages

/-- The fields of a `url.URL` the server reads or prints. `Opaque` is
`opaquePath`. -/
structure URL where
  scheme : String
  opaquePath : String
  user : Option String
  host : String
  path : String
  forceQuery : Bool
  rawQuery : String
  fragment : String
  deriving DecidableEq, Repr

/-- `strings.Cut(s, sep)` on characters: the text before the first `sep`, and
the text after it if there is one. -/
def cutL (sep : Char) (s : List Char) : List Char × Option (List Char) :=
  match s.span (· ≠ sep) with
  | (before, []) => (before, none)
  | (before, _ :: after) => (before, some after)

/-- `getScheme`: the scheme and the rest, or an error when the URL starts with
`:`. -/
def getSchemeL : List Char → List Char → Except String (List Char × List Char)
  | acc, [] => .ok ([], acc.reverse)
  | acc, c :: cs =>
    if c.isAlpha then getSchemeL (c :: acc) cs
    else if c.isDigit ∨ c = '+' ∨ c = '-' ∨ c = '.' then
      if acc = [] then .ok ([], c :: cs) else getSchemeL (c :: acc) cs
    else if c = ':' then
      if acc = [] then .error "missing protocol scheme" else .ok (acc.reverse, cs)
    else .ok ([], (acc.reverse ++ c :: cs))

/-- `validOptionalPort`: empty, or `:` followed by digits. -/
def validOptionalPort : List Char → Bool
  | [] => true
  | c :: ds => c = ':' && ds.all Char.isDigit

/-- The position of the last occurrence of `c` in `s`, if any. -/
def lastIndexL (c : Char) (s : List Char) : Option Nat :=
  (s.reverse.findIdx? (· = c)).map fun i => s.length - 1 - i

/-- `parseHost`: a bracketed IPv6 host must close its bracket, and what follows
the last `:` must be a port. -/
def parseHostL (host : List Char) : Except String (List Char) :=
  if host.head? = some '[' then
    match lastIndexL ']' host with
    | none => .error "missing ']' in host"
    | some i =>
      if validOptionalPort (host.drop (i + 1)) then .ok host
      else .error "invalid port after host"
  else match lastIndexL ':' host with
    | some i =>
      if validOptionalPort (host.drop i) then .ok host else .error "invalid port after host"
    | none => .ok host

/-- `parseAuthority`: user information before the last `@`, the host after it. -/
def parseAuthorityL (authority : List Char) : Except String (Option (List Char) × List Char) :=
  match lastIndexL '@' authority with
  | none => (parseHostL authority).map fun h => (none, h)
  | some i => (parseHostL (authority.drop (i + 1))).map fun h => (some (authority.take i), h)

/-- Whether `s` has a control character (`stringContainsCTLByte`). -/
def containsCTL (s : List Char) : Bool := s.any fun c => c.toNat < 0x20 || c.toNat = 0x7f

/-- `parse(rawURL, false)` of `net/url`, after the fragment is cut off. -/
def parseL (raw : List Char) (frag : List Char) : Except String URL := do
  if containsCTL raw then throw "net/url: invalid control character in URL"
  if raw = ['*'] then return ⟨"", "", none, "", "*", false, "", ⟨frag⟩⟩
  let (scheme, rest) ← getSchemeL [] raw
  let scheme := scheme.map Char.toLower
  let (rest, forceQuery, rawQuery) :=
    if rest.getLast? = some '?' ∧ rest.count '?' = 1 then (rest.dropLast, true, [])
    else match cutL '?' rest with
      | (r, q) => (r, false, q.getD [])
  if rest.head? ≠ some '/' then
    if scheme ≠ [] then
      return ⟨⟨scheme⟩, ⟨rest⟩, none, "", "", forceQuery, ⟨rawQuery⟩, ⟨frag⟩⟩
    match cutL '/' rest with
    | (seg, _) => if ':' ∈ seg then throw "first path segment in URL cannot contain colon"
  if (scheme ≠ [] ∨ ¬ ['/', '/', '/'].isPrefixOf rest) ∧ ['/', '/'].isPrefixOf rest then
    let auth := (rest.drop 2).takeWhile (· ≠ '/')
    let path := (rest.drop 2).dropWhile (· ≠ '/')
    let (user, host) ← parseAuthorityL auth
    return ⟨⟨scheme⟩, "", user.map String.mk, ⟨host⟩, ⟨path⟩, forceQuery, ⟨rawQuery⟩, ⟨frag⟩⟩
  return ⟨⟨scheme⟩, "", none, "", ⟨rest⟩, forceQuery, ⟨rawQuery⟩, ⟨frag⟩⟩

/-- `url.Parse(rawURL)`. -/
def urlParse (raw : String) : Except String URL :=
  match cutL '#' raw.data with
  | (u, frag) => parseL u (frag.getD [])

example : (urlParse "https://evilgitlab.io").map URL.host = .ok "evilgitlab.io" := by decide

/-- `URL.String()`. -/
def URL.toString (u : URL) : String :=
  let head := if u.scheme = "" then "" else u.scheme ++ ":"
  let body :=
    if u.opaquePath ≠ "" then u.opaquePath
    else
      let auth :=
        if u.scheme ≠ "" ∨ u.host ≠ "" ∨ u.user.isSome then
          (if u.host ≠ "" ∨ u.path ≠ "" ∨ u.user.isSome then "//" else "") ++
            (match u.user with | some ui => ui ++ "@" | none => "") ++ u.host
        else ""
      let sep := if u.path ≠ "" ∧ u.path.data.head? ≠ some '/' ∧ u.host ≠ "" then "/" else ""
      let dot := if head ++ auth ++ sep = "" ∧ ':' ∈ u.path.data.takeWhile (· ≠ '/') then "./" else ""
      auth ++ sep ++ dot ++ u.path
  let query := if u.forceQuery ∨ u.rawQuery ≠ "" then "?" ++ u.rawQuery else ""
  let frag := if u.fragment ≠ "" then "#" ++ u.fragment else ""
  head ++ body ++ query ++ frag

example : (urlParse "http://store/public.zip?secret1").map URL.toString =
    .ok "http://store/public.zip?secret1" := by decide

/-- The string form keeps the query: two URLs that differ in their query only
print differently. -/
theorem URL.toString_rawQuery {u : URL} {q : String} (h : { u with rawQuery := q }.toString = u.toString) :
    q = u.rawQuery := by
  have hq : (if u.forceQuery ∨ q ≠ "" then "?" ++ q else "") =
      (if u.forceQuery ∨ u.rawQuery ≠ "" then "?" ++ u.rawQuery else "") := by
    have := congrArg String.data h
    simp only [URL.toString, String.data_append] at this
    exact String.ext (List.append_cancel_left (List.append_cancel_right this))
  have hd := congrArg String.data hq
  split_ifs at hd with h1 h2 h2
  · exact String.ext (List.append_cancel_left hd)
  · simp at hd
  · simp at hd
  · simp only [not_or, not_not] at h1 h2
    rw [h1.2, h2.2]

/-- `net.SplitHostPort`: the host and the port after the last `:`, a bracketed
host for IPv6. -/
def splitHostPortL (hostport : List Char) : Except String (List Char × List Char) :=
  match lastIndexL ':' hostport with
  | none => .error "missing port in address"
  | some i =>
    let checked (host : List Char) (j k : Nat) : Except String (List Char × List Char) :=
      if '[' ∈ hostport.drop j then .error "unexpected '[' in address"
      else if ']' ∈ hostport.drop k then .error "unexpected ']' in address"
      else .ok (host, hostport.drop (i + 1))
    if hostport.head? = some '[' then
      match hostport.findIdx? (· = ']') with
      | none => .error "missing ']' in address"
      | some e =>
        if e + 1 = hostport.length then .error "missing port in address"
        else if e + 1 = i then checked ((hostport.take e).drop 1) 1 (e + 1)
        else if hostport.get? (e + 1) = some ':' then .error "too many colons in address"
        else .error "missing port in address"
    else
      if ':' ∈ hostport.take i then .error "too many colons in address"
      else checked (hostport.take i) 0 0

/-- `net.SplitHostPort(hostport)`. -/
def splitHostPort (hostport : String) : Except String (String × String) :=
  (splitHostPortL hostport.data).map fun (h, p) => (⟨h⟩, ⟨p⟩)

theorem lastIndexL_none {c : Char} {s : List Char} (h : c ∉ s) : lastIndexL c s = none := by
  simp only [lastIndexL, Option.map_eq_none', List.findIdx?_eq_none_iff, List.mem_reverse, decide_eq_false_iff_not]
  rintro x hx rfl
  exact h hx

theorem lastIndexL_append_cons {c : Char} (a : List Char) {b : List Char} (hb : c ∉ b) :
    lastIndexL c (a ++ c :: b) = some a.length := by
  have hf : (b.reverse ++ c :: a.reverse).findIdx? (· = c) = some b.length := by
    rw [List.findIdx?_append, List.findIdx?_eq_none_iff.2 ?_]
    · simp
    · simp only [List.mem_reverse, decide_eq_false_iff_not]
      rintro x hx rfl
      exact hb hx
  simp only [lastIndexL, List.reverse_append, List.reverse_cons, List.append_assoc, List.singleton_append, hf,
    Option.map_some', List.length_append, List.length_cons]
  congr 1
  omega

theorem findIdx_close_bracket {h : List Char} (hh : ']' ∉ h) (rest : List Char) :
    ('[' :: (h ++ ']' :: rest)).findIdx? (· = ']') = some (h.length + 1) := by
  rw [← List.cons_append, List.findIdx?_append, List.findIdx?_eq_none_iff.2 ?_]
  · simp
  · simp only [List.mem_cons, decide_eq_false_iff_not]
    rintro x (rfl | hx)
    exacts [by decide, fun e => hh (e ▸ hx)]

theorem splitHostPortL_plain {h p : List Char} (hh : ':' ∉ h ∧ '[' ∉ h ∧ ']' ∉ h)
    (hp : ':' ∉ p ∧ '[' ∉ p ∧ ']' ∉ p) : splitHostPortL (h ++ ':' :: p) = .ok (h, p) := by
  have hhead : h.head? ≠ some '[' := fun e => hh.2.1 (List.mem_of_mem_head? e)
  simp [splitHostPortL, lastIndexL_append_cons h hp.1, hhead, hh.1, hh.2.1, hh.2.2, hp.2.1, hp.2.2]

example : splitHostPort "a.test:8080" = .ok ("a.test", "8080") := by decide

theorem splitHostPortL_bracket {h p : List Char} (hh : '[' ∉ h ∧ ']' ∉ h) (hp : ':' ∉ p ∧ '[' ∉ p ∧ ']' ∉ p) :
    splitHostPortL ('[' :: (h ++ ']' :: ':' :: p)) = .ok (h, p) := by
  have hi : lastIndexL ':' ('[' :: (h ++ ']' :: ':' :: p)) = some (h.length + 2) := by
    simpa using lastIndexL_append_cons ('[' :: (h ++ [']'])) hp.1
  simp [splitHostPortL, hi, findIdx_close_bracket hh.2, hh.1, hh.2, hp.2.1, hp.2.2]

theorem splitHostPortL_bracket_noPort {h : List Char} (hh : ']' ∉ h) :
    ∃ e, splitHostPortL ('[' :: (h ++ [']'])) = .error e := by
  unfold splitHostPortL
  split
  · exact ⟨_, rfl⟩
  · simp [findIdx_close_bracket hh]

/-! ### `url.QueryEscape` -/

/-- `upperhex` of `net/url`. -/
def upperhex : List Char := "0123456789ABCDEF".data

/-- `url.QueryEscape` (`escape` in `encodeQueryComponent` mode): ASCII letters
and digits and `-_.~` stay, a space becomes `+`, and every other byte, each
byte of a non-ASCII character included, becomes `%` and two upper-case hex
digits. -/
def queryEscape (s : String) : String :=
  ⟨s.data.flatMap fun c =>
    if c.isAlphanum || c == '-' || c == '_' || c == '.' || c == '~' then [c]
    else if c = ' ' then ['+']
    else (String.utf8EncodeChar c).flatMap fun b =>
      ['%', upperhex.getD (b.toNat / 16) '0', upperhex.getD (b.toNat % 16) '0']⟩

example : queryEscape "a b&c=ü" = "a+b%26c%3D%C3%BC" := by decide

/-! ### The `Location` of `http.Redirect` -/

/-- `hexEscapeNonASCII` of `net/http`: each byte of a non-ASCII character
becomes `%` and its value in lower-case hex (`strconv.AppendInt(b, int64(s[i]), 16)`). -/
def hexEscapeNonASCII (s : String) : String :=
  ⟨s.data.flatMap fun c =>
    if c.toNat < 128 then [c] else (String.utf8EncodeChar c).flatMap fun b => '%' :: Nat.toDigits 16 b.toNat⟩

example : hexEscapeNonASCII "/é?x" = "/%c3%a9?x" := by decide

end GitlabPages
