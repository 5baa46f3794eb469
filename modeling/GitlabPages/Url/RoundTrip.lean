import GitlabPages.Url

/-!
# `url.Parse` and `URL.String()` round trip

`Root` caches and fetches an archive under `url.Parse(path).String()`
(`rootKey`), not under the path it was given. The printed text names the same
URL: every URL `url.Parse` returns is `URL.Canonical` (`urlParse_canonical`),
and a canonical URL prints to a text that `url.Parse` reads back to that URL
(`urlParse_toString`). Canonical means: no part holds a control character or
a `#`, no `?` stands before the query, a scheme is a valid lower-case one, a
forced query is empty, and the URL is opaque, has an authority, or is a path
only, the three ways `URL.String()` prints one.

`parse` is taken apart in its stages (`parseL_eq`): `getScheme`, the query
split and the rest (`parsePathL`). Each stage has an inversion lemma for the
parse side (`getSchemeL_ok`, `splitQueryL_spec`, `parseAuthorityL_ok`) and a
lemma that runs it over a printed text for the print side (`getSchemeL_scheme`,
`splitQueryL_print`, `parseL_opaque`, `parseL_authority`, `parseL_pathOnly`).
As in `Url`, escaping is the identity, which is what Go computes on a plain
text (`plainChar`): the parts of a parsed URL are made of the characters of
the text (`urlParse_chars`), so a plain text parses to a URL with no user
information and no fragment (`urlParse_plain`) that prints plain again
(`URL.toString_all`).

Key definitions: `ValidScheme`, `URL.Opaque`, `URL.Authority`, `URL.PathOnly`,
`URL.Canonical`, `plainChar`, `URL.chars`.
Key theorems: `parseL_eq`, `parsePathL_canonical`, `urlParse_canonical`,
`urlParse_toString`, `urlParse_roundTrip`, `urlParse_chars`, `urlParse_plain`.
-/

namespace GitlabPages

/-! ### Characters -/

/-- A character `getScheme` takes into a scheme. -/
def schemeChar (c : Char) : Bool := c.isAlpha || c.isDigit || c == '+' || c == '-' || c == '.'

theorem uint32_le_iff {a b : UInt32} : a ≤ b ↔ a.toNat ≤ b.toNat := by
  rw [UInt32.le_def, BitVec.le_def]; rfl

theorem char_eq_of_toNat {c d : Char} (h : c.toNat = d.toNat) : c = d := Char.ext (UInt32.ext h)

theorem isUpper_iff (c : Char) : c.isUpper = true ↔ 65 ≤ c.toNat ∧ c.toNat ≤ 90 := by
  simp only [Char.isUpper, Bool.and_eq_true, decide_eq_true_eq, ge_iff_le, uint32_le_iff]; rfl

theorem isAlpha_iff (c : Char) : c.isAlpha = true ↔ (65 ≤ c.toNat ∧ c.toNat ≤ 90) ∨ (97 ≤ c.toNat ∧ c.toNat ≤ 122) := by
  simp only [Char.isAlpha, Char.isUpper, Char.isLower, Bool.or_eq_true, Bool.and_eq_true, decide_eq_true_eq,
    ge_iff_le, uint32_le_iff]; rfl

theorem toLower_toNat (c : Char) :
    c.toLower.toNat = if 65 ≤ c.toNat ∧ c.toNat ≤ 90 then c.toNat + 32 else c.toNat := by
  simp only [Char.toLower, ge_iff_le]
  split_ifs with h
  · have hv : (c.toNat + 32).isValidChar := Or.inl (by omega)
    simp only [Char.ofNat, hv, dite_true]
    rfl
  · rfl

theorem toLower_of_not_upper {c : Char} (h : c.isUpper = false) : c.toLower = c := by
  have h' : ¬(65 ≤ c.toNat ∧ c.toNat ≤ 90) := fun h'' => Bool.noConfusion (h ▸ (isUpper_iff c).2 h'')
  exact char_eq_of_toNat (by rw [toLower_toNat, if_neg h'])

@[simp]
theorem toLower_toLower (c : Char) : c.toLower.toLower = c.toLower :=
  char_eq_of_toNat (by rw [toLower_toNat c.toLower, toLower_toNat c]; split_ifs <;> omega)

theorem isAlpha_toLower {c : Char} (h : c.isAlpha = true) : c.toLower.isAlpha = true := by
  rw [isAlpha_iff, toLower_toNat] at *
  split_ifs <;> omega

theorem schemeChar_toLower {c : Char} (h : schemeChar c = true) : schemeChar c.toLower = true := by
  cases hu : c.isUpper
  · rwa [toLower_of_not_upper hu]
  · have : c.isAlpha = true := by simp [Char.isAlpha, hu]
    simp [schemeChar, isAlpha_toLower this]

/-- A scheme as `getScheme` reads one: a letter, then letters, digits, `+`,
`-` or `.`. -/
def ValidScheme (sc : List Char) : Prop :=
  (∃ c t, sc = c :: t ∧ c.isAlpha = true) ∧ ∀ c ∈ sc, schemeChar c = true

theorem ValidScheme.map_toLower {sc : List Char} (h : ValidScheme sc) : ValidScheme (sc.map Char.toLower) := by
  obtain ⟨⟨c, t, rfl, hc⟩, hall⟩ := h
  exact ⟨⟨_, _, rfl, isAlpha_toLower hc⟩, fun d hd => by
    obtain ⟨d', hd', rfl⟩ := List.mem_map.1 hd
    exact schemeChar_toLower (hall d' hd')⟩

theorem map_toLower_idem (l : List Char) : (l.map Char.toLower).map Char.toLower = l.map Char.toLower := by
  simp

/-! ### `strings.Cut` -/

theorem cutL_of_not_mem {sep : Char} {l : List Char} (h : sep ∉ l) : cutL sep l = (l, none) := by
  have hp : ∀ x ∈ l, decide (x ≠ sep) = true := fun x hx => decide_eq_true fun e => h (e ▸ hx)
  rw [cutL, List.span_eq_take_drop, List.takeWhile_eq_self_iff.2 hp, List.dropWhile_eq_nil_iff.2 hp]

theorem cutL_append_cons {sep : Char} {l : List Char} (h : sep ∉ l) (r : List Char) :
    cutL sep (l ++ sep :: r) = (l, some r) := by
  have hp : ∀ x ∈ l, decide (x ≠ sep) = true := fun x hx => decide_eq_true fun e => h (e ▸ hx)
  rw [cutL, List.span_eq_take_drop, List.takeWhile_append_of_pos hp, List.dropWhile_append_of_pos hp]
  simp

theorem cutL_fst (sep : Char) (s : List Char) : (cutL sep s).1 = s.takeWhile (· ≠ sep) := by
  unfold cutL
  rw [List.span_eq_take_drop]
  split <;> simp_all

theorem cutL_spec {sep : Char} {s b : List Char} {a : Option (List Char)} (h : cutL sep s = (b, a)) :
    sep ∉ b ∧ ((a = none ∧ s = b) ∨ ∃ r, a = some r ∧ s = b ++ sep :: r) := by
  have hs := List.takeWhile_append_dropWhile (fun c => decide (c ≠ sep)) s
  have hb : sep ∉ s.takeWhile (fun c => decide (c ≠ sep)) := fun hm => by
    simpa using List.mem_takeWhile_imp hm
  have hd := List.head?_dropWhile_not (fun c => decide (c ≠ sep)) s
  unfold cutL at h
  rw [List.span_eq_take_drop] at h
  split at h <;> rename_i e <;> simp only [Prod.mk.injEq] at e h <;> obtain ⟨rfl, rfl⟩ := h
  · refine ⟨e.1 ▸ hb, .inl ⟨rfl, ?_⟩⟩
    rw [← hs, e.1, e.2, List.append_nil]
  · rw [e.2] at hd hs
    simp only [List.head?_cons, decide_eq_false_iff_not, not_not] at hd
    refine ⟨e.1 ▸ hb, .inr ⟨_, rfl, ?_⟩⟩
    rw [← hs, e.1, hd]

/-! ### `getScheme` -/

theorem getSchemeL_colon {acc : List Char} (h : acc ≠ []) (rest : List Char) :
    getSchemeL acc (':' :: rest) = .ok (acc.reverse, rest) := by
  simp [getSchemeL, h]

theorem getSchemeL_scheme (sc : List Char) (acc rest : List Char) (hsc : ∀ c ∈ sc, schemeChar c = true)
    (hstart : acc ≠ [] ∨ ∃ c t, sc = c :: t ∧ c.isAlpha = true) :
    getSchemeL acc (sc ++ ':' :: rest) = .ok (acc.reverse ++ sc, rest) := by
  induction sc generalizing acc with
  | nil =>
    rw [List.append_nil]
    rcases hstart with h | ⟨_, _, h, -⟩
    · simpa using getSchemeL_colon h rest
    · cases h
  | cons c sc ih =>
    have hc := hsc c (List.mem_cons_self _ _)
    have ih' := ih (c :: acc) (fun d hd => hsc d (List.mem_cons_of_mem _ hd)) (.inl (List.cons_ne_nil _ _))
    simp only [List.reverse_cons, List.append_assoc, List.singleton_append] at ih'
    rw [List.cons_append, getSchemeL]
    by_cases ha : c.isAlpha = true
    · rw [if_pos ha, ih']
    · have hacc : acc ≠ [] := hstart.resolve_right (by rintro ⟨_, _, he, h⟩; cases he; exact ha h)
      have hd : c.isDigit = true ∨ c = '+' ∨ c = '-' ∨ c = '.' := by
        simpa [schemeChar, ha, or_assoc] using hc
      rw [if_neg ha, if_pos hd, if_neg hacc, ih']

theorem getSchemeL_plain (l acc : List Char) (h : (l.dropWhile schemeChar).head? ≠ some ':') :
    getSchemeL acc l = .ok ([], acc.reverse ++ l) := by
  induction l generalizing acc with
  | nil => simp [getSchemeL]
  | cons c cs ih =>
    by_cases hs : schemeChar c = true
    · rw [List.dropWhile_cons_of_pos hs] at h
      have ih' := ih (c :: acc) h
      simp only [List.reverse_cons, List.append_assoc, List.singleton_append] at ih'
      unfold getSchemeL
      by_cases ha : c.isAlpha = true
      · rw [if_pos ha]; exact ih'
      · have hd : c.isDigit = true ∨ c = '+' ∨ c = '-' ∨ c = '.' := by
          simpa [schemeChar, ha, or_assoc] using hs
        rw [if_neg ha, if_pos hd]
        split_ifs with hacc
        · subst hacc; rfl
        · exact ih'
    · rw [List.dropWhile_cons_of_neg hs] at h
      have hc : c ≠ ':' := fun e => h (by rw [e]; rfl)
      simp only [schemeChar, Bool.or_eq_true, beq_iff_eq, not_or] at hs
      obtain ⟨⟨⟨⟨ha, hd⟩, hp⟩, hm⟩, hdot⟩ := hs
      simp [getSchemeL, ha, hd, hp, hm, hdot, hc]

theorem ValidScheme.concat {l : List Char} {c : Char} (h : l = [] ∨ ValidScheme l) (hc : schemeChar c = true)
    (ha : l = [] → c.isAlpha = true) : ValidScheme (l ++ [c]) := by
  rcases h with rfl | ⟨⟨d, t, rfl, hd⟩, hall⟩
  · exact ⟨⟨c, [], rfl, ha rfl⟩, by simpa using hc⟩
  · refine ⟨⟨d, t ++ [c], rfl, hd⟩, fun x hx => ?_⟩
    rcases List.mem_append.1 hx with hx | hx
    · exact hall x hx
    · rw [List.mem_singleton.1 hx]; exact hc

/-- What `getScheme` returns: no scheme and the whole text, or a valid scheme
that the text starts with, followed by `:` and the rest. -/
theorem getSchemeL_ok {l acc sc rest : List Char} (h : getSchemeL acc l = .ok (sc, rest))
    (hacc : acc = [] ∨ ValidScheme acc.reverse) :
    (sc = [] ∧ rest = acc.reverse ++ l) ∨ (ValidScheme sc ∧ acc.reverse ++ l = sc ++ ':' :: rest) := by
  induction l generalizing acc with
  | nil => simp only [getSchemeL, Except.ok.injEq, Prod.mk.injEq] at h; exact .inl ⟨h.1.symm, by simp [h.2]⟩
  | cons c cs ih =>
    have step (hc : schemeChar c = true) (ha : acc = [] → c.isAlpha = true)
        (h' : getSchemeL (c :: acc) cs = .ok (sc, rest)) := by
      have hv : ValidScheme (c :: acc).reverse := by
        rw [List.reverse_cons]
        exact ValidScheme.concat (hacc.imp_left fun e => by rw [e]; rfl) hc fun e => ha (List.reverse_eq_nil_iff.1 e)
      simpa only [List.reverse_cons, List.append_assoc, List.singleton_append] using ih h' (.inr hv)
    unfold getSchemeL at h
    split_ifs at h with ha hd hacc0 hcol hacc1
    · exact step (by simp [schemeChar, ha]) (fun _ => ha) h
    · simp only [Except.ok.injEq, Prod.mk.injEq] at h
      exact .inl ⟨h.1.symm, by simp [hacc0, h.2]⟩
    · have hc : schemeChar c = true := by simp only [schemeChar, Bool.or_eq_true, beq_iff_eq, or_assoc]; exact .inr hd
      exact step hc (absurd · hacc0) h
    · simp only [Except.ok.injEq, Prod.mk.injEq] at h
      obtain ⟨rfl, rfl⟩ := h
      exact .inr ⟨hacc.resolve_left hacc1, by rw [hcol]⟩
    · simp only [Except.ok.injEq, Prod.mk.injEq] at h
      exact .inl ⟨h.1.symm, h.2.symm⟩

/-! ### The query -/

/-- The query split of `parse`: a lone trailing `?` forces an empty query;
otherwise the query is what follows the first `?`. -/
def splitQueryL (rest : List Char) : List Char × Bool × List Char :=
  if rest.getLast? = some '?' ∧ rest.count '?' = 1 then (rest.dropLast, true, [])
  else match cutL '?' rest with
    | (r, q) => (r, false, q.getD [])

/-- `parse` past the scheme and the query: an opaque part, the check of the
first path segment, the authority, and the path. -/
def parsePathL (scheme rest rawQuery frag : List Char) (forceQuery : Bool) : Except String URL :=
  if rest.head? ≠ some '/' ∧ scheme ≠ [] then
    .ok ⟨⟨scheme⟩, ⟨rest⟩, none, "", "", forceQuery, ⟨rawQuery⟩, ⟨frag⟩⟩
  else if rest.head? ≠ some '/' ∧ ':' ∈ (cutL '/' rest).1 then
    .error "first path segment in URL cannot contain colon"
  else if (scheme ≠ [] ∨ ¬ ['/', '/', '/'].isPrefixOf rest) ∧ ['/', '/'].isPrefixOf rest then
    (parseAuthorityL ((rest.drop 2).takeWhile (· ≠ '/'))).map fun (user, host) =>
      ⟨⟨scheme⟩, "", user.map String.mk, ⟨host⟩, ⟨(rest.drop 2).dropWhile (· ≠ '/')⟩, forceQuery, ⟨rawQuery⟩, ⟨frag⟩⟩
  else .ok ⟨⟨scheme⟩, "", none, "", ⟨rest⟩, forceQuery, ⟨rawQuery⟩, ⟨frag⟩⟩

/-- `parse` in stages: the control-character check, `getScheme`, the query
split, and the rest. The case of `*` is the general one. -/
theorem parseL_eq (raw frag : List Char) : parseL raw frag =
    if containsCTL raw then .error "net/url: invalid control character in URL"
    else (getSchemeL [] raw).bind fun (sc, rest) =>
      parsePathL (sc.map Char.toLower) (splitQueryL rest).1 (splitQueryL rest).2.2 frag (splitQueryL rest).2.1 := by
  unfold parseL
  by_cases hc : containsCTL raw = true
  · simp only [hc, if_true]; rfl
  by_cases hs : raw = ['*']
  · subst hs; rfl
  simp only [hc, hs, if_false, Bool.false_eq_true, pure_bind]
  cases getSchemeL [] raw with
  | error e => rfl
  | ok p =>
    obtain ⟨sc, rest⟩ := p
    simp only [Except.bind, splitQueryL, bind]
    generalize (if rest.getLast? = some '?' ∧ List.count '?' rest = 1 then (rest.dropLast, true, [])
      else match cutL '?' rest with | (r, q) => (r, false, q.getD [])) = q
    obtain ⟨r, fq, rq⟩ := q
    simp only [parsePathL]
    by_cases hA : r.head? = some '/' <;> by_cases hB : List.map Char.toLower sc = [] <;>
      by_cases hC : ':' ∈ (cutL '/' r).1 <;>
      simp only [hA, hB, hC, ne_eq, not_true_eq_false, not_false_eq_true, true_and, false_and, and_false,
        if_true, if_false, true_or, false_or] <;> rfl

/-- What `URL.String` prints for the query: `?` and the query, when there is
one or `ForceQuery` is set. -/
def queryPartL (forceQuery : Bool) (rawQuery : List Char) : List Char :=
  if forceQuery = true ∨ rawQuery ≠ [] then '?' :: rawQuery else []

theorem count_eq_zero_of_not_mem {l : List Char} (h : '?' ∉ l) : l.count '?' = 0 := List.count_eq_zero.2 h

theorem splitQueryL_print {r q : List Char} {fq : Bool} (hr : '?' ∉ r) (hfq : fq = true → q = []) :
    splitQueryL (r ++ queryPartL fq q) = (r, fq, q) := by
  have hr0 := count_eq_zero_of_not_mem hr
  cases fq with
  | true =>
    obtain rfl := hfq rfl
    simp [splitQueryL, queryPartL, List.count_append, hr0]
  | false =>
    rcases eq_or_ne q [] with rfl | hq
    · have hl : r.getLast? ≠ some '?' := fun h => hr (List.mem_of_mem_getLast? h)
      simp [splitQueryL, queryPartL, hl, cutL_of_not_mem hr]
    · have hne : ¬((r ++ '?' :: q).getLast? = some '?' ∧ (r ++ '?' :: q).count '?' = 1) := by
        rintro ⟨hl, hc⟩
        obtain ⟨x, hx⟩ := Option.isSome_iff_exists.1 (List.getLast?_isSome.2 hq)
        rw [List.getLast?_append, List.getLast?_cons, hx] at hl
        cases hl
        have : q.count '?' = 0 := by simpa [List.count_append, hr0, List.count_cons] using hc
        exact List.count_eq_zero.1 this (List.mem_of_mem_getLast? hx)
      simp only [splitQueryL, queryPartL, hq, ne_eq, not_false_eq_true, or_true, if_true, hne, if_false,
        cutL_append_cons hr, Option.getD_some]

/-- What the query split returns: a text with no `?`, and the query that
prints back after it to the whole. -/
theorem splitQueryL_spec {rest r rq : List Char} {fq : Bool} (h : splitQueryL rest = (r, fq, rq)) :
    '?' ∉ r ∧ (fq = true → rq = []) ∧ rest = r ++ queryPartL fq rq := by
  unfold splitQueryL at h
  split_ifs at h with hc
  · simp only [Prod.mk.injEq] at h
    obtain ⟨rfl, rfl, rfl⟩ := h
    have hne : rest ≠ [] := fun e => by simp [e] at hc
    have hrest : rest = rest.dropLast ++ ['?'] := by
      have hl : rest.getLast hne = '?' := Option.some.inj ((List.getLast?_eq_getLast rest hne).symm.trans hc.1)
      conv_lhs => rw [← List.dropLast_append_getLast hne, hl]
    refine ⟨fun hm => ?_, fun _ => rfl, hrest⟩
    have := hc.2
    rw [hrest, List.count_append] at this
    simp only [List.count_singleton_self, add_left_eq_self] at this
    exact List.count_eq_zero.1 this hm
  · generalize hcut : cutL '?' rest = p at h
    obtain ⟨b, a⟩ := p
    simp only [Prod.mk.injEq] at h
    obtain ⟨rfl, rfl, rfl⟩ := h
    obtain ⟨hb, ⟨rfl, rfl⟩ | ⟨x, rfl, rfl⟩⟩ := cutL_spec hcut
    · exact ⟨hb, fun h => (by cases h), by simp [queryPartL]⟩
    · refine ⟨hb, fun h => (by cases h), ?_⟩
      rcases eq_or_ne x [] with rfl | hx
      · exact absurd ⟨by simp, by simp [List.count_append, count_eq_zero_of_not_mem hb]⟩ hc
      · simp [queryPartL, hx]

/-! ### The authority -/

/-- What `URL.String` prints of the user information: the user and `@`. -/
def userPartL : Option (List Char) → List Char
  | some ui => ui ++ ['@']
  | none => []

theorem parseHostL_ok {host h : List Char} (e : parseHostL host = .ok h) : h = host := by
  unfold parseHostL at e
  repeat' split at e
  all_goals first | cases e; rfl | cases e

theorem lastIndexL_some {c : Char} {s : List Char} {i : Nat} (e : lastIndexL c s = some i) :
    s = s.take i ++ c :: s.drop (i + 1) := by
  obtain ⟨j, hj, rfl⟩ := Option.map_eq_some'.1 e
  obtain ⟨hlt, hc, -⟩ := List.findIdx?_eq_some_iff_getElem.1 hj
  rw [List.length_reverse] at hlt
  have hi : s.length - 1 - j < s.length := by omega
  have : s[s.length - 1 - j] = c := by simpa [List.getElem_reverse] using hc
  rw [← this, List.get_drop_eq_drop _ _ hi, List.take_append_drop]

theorem parseAuthorityL_ok {a : List Char} {ui : Option (List Char)} {h : List Char}
    (e : parseAuthorityL a = .ok (ui, h)) : a = userPartL ui ++ h := by
  unfold parseAuthorityL at e
  split at e
  · cases hh : parseHostL a with
    | error => simp [hh, Except.map] at e
    | ok v =>
      simp only [hh, Except.map, Except.ok.injEq, Prod.mk.injEq] at e
      obtain ⟨rfl, rfl⟩ := e
      rw [parseHostL_ok hh]; rfl
  · rename_i i hi
    cases hh : parseHostL (a.drop (i + 1)) with
    | error => simp [hh, Except.map] at e
    | ok v =>
      simp only [hh, Except.map, Except.ok.injEq, Prod.mk.injEq] at e
      obtain ⟨rfl, rfl⟩ := e
      rw [parseHostL_ok hh]
      simpa [userPartL] using lastIndexL_some hi

/-! ### What `URL.String` prints -/

/-- What `URL.String` prints for the fragment: `#` and the fragment, when
there is one. -/
def fragPartL (frag : List Char) : List Char := if frag ≠ [] then '#' :: frag else []

theorem str_eq_empty {s : String} : s = "" ↔ s.data = [] := ⟨fun h => h ▸ rfl, fun h => String.ext h⟩

theorem headPart_data (s : String) : (if s = "" then "" else s ++ ":").data = if s = "" then [] else s.data ++ [':'] := by
  split_ifs <;> rfl

theorem queryPart_data (fq : Bool) (q : String) :
    (if fq = true ∨ ¬q = "" then "?" ++ q else "").data = queryPartL fq q.data := by
  simp only [queryPartL, str_eq_empty, ne_eq]; split_ifs <;> rfl

theorem fragPart_data (f : String) : (if ¬f = "" then "#" ++ f else "").data = fragPartL f.data := by
  simp only [fragPartL, str_eq_empty, ne_eq]; split_ifs <;> rfl

theorem ite_ne_empty_self (s : String) : (if ¬s = "" then s else "") = s := by
  split_ifs with h
  · exact h.symm
  · rfl

theorem dotPart_false (a b c : String) (P : Prop) : ¬(a ++ (("//" ++ b) ++ c) ++ "" = "" ∧ P) := fun ⟨h, _⟩ => by
  have := congrArg String.length h
  simp only [String.length_append] at this
  have : ("//" : String).length = 2 := rfl
  omega

/-- An opaque URL: a scheme and an opaque part (possibly empty), which does not
start with `/`. -/
def URL.Opaque (u : URL) : Prop :=
  u.scheme ≠ "" ∧ u.user = none ∧ u.host = "" ∧ u.path = "" ∧ u.opaquePath.data.head? ≠ some '/'

/-- A URL printed with `//`: user information or a host, or a scheme and a
path; the authority holds no `/`, parses back, and the path is empty or
rooted. -/
def URL.Authority (u : URL) : Prop :=
  u.opaquePath = "" ∧ (u.user.isSome ∨ u.host ≠ "" ∨ (u.path ≠ "" ∧ u.scheme ≠ "")) ∧
    '/' ∉ userPartL (u.user.map String.data) ++ u.host.data ∧
    parseAuthorityL (userPartL (u.user.map String.data) ++ u.host.data) = .ok (u.user.map String.data, u.host.data) ∧
    (u.path = "" ∨ u.path.data.head? = some '/')

/-- A URL that is a path only, whose first segment has no `:` and which does
not start with exactly two `/`. -/
def URL.PathOnly (u : URL) : Prop :=
  u.scheme = "" ∧ u.opaquePath = "" ∧ u.user = none ∧ u.host = "" ∧ ':' ∉ u.path.data.takeWhile (· ≠ '/') ∧
    (['/', '/'].isPrefixOf u.path.data → ['/', '/', '/'].isPrefixOf u.path.data)

theorem URL.toString_opaque {u : URL} (h : u.Opaque) :
    u.toString.data = (u.scheme.data ++ ':' :: (u.opaquePath.data ++ queryPartL u.forceQuery u.rawQuery.data)) ++
      fragPartL u.fragment.data := by
  obtain ⟨hs, hu, hh, hp, -⟩ := h
  simp only [URL.toString, hs, hu, hh, hp, ne_eq, if_false, not_true_eq_false, Option.isSome_none,
    Bool.false_eq_true, or_false, false_or, not_false_eq_true, if_true, false_and, and_false, List.takeWhile_nil,
    List.not_mem_nil, String.append_empty, String.empty_append, ite_self, ite_ne_empty_self, String.data_append,
    queryPart_data, fragPart_data, List.append_assoc, List.singleton_append, List.cons_append, List.nil_append]

theorem URL.toString_authority {u : URL} (h : u.Authority) :
    u.toString.data = ((if u.scheme = "" then [] else u.scheme.data ++ [':']) ++
      (('/' :: '/' :: (userPartL (u.user.map String.data) ++ u.host.data ++ u.path.data)) ++
        queryPartL u.forceQuery u.rawQuery.data)) ++ fragPartL u.fragment.data := by
  obtain ⟨ho, hsome, -, -, hp⟩ := h
  have h1 : u.scheme ≠ "" ∨ u.host ≠ "" ∨ u.user.isSome = true := by
    rcases hsome with h | h | ⟨-, h⟩
    exacts [.inr (.inr h), .inr (.inl h), .inl h]
  have h2 : u.host ≠ "" ∨ u.path ≠ "" ∨ u.user.isSome = true := by
    rcases hsome with h | h | ⟨h, -⟩
    exacts [.inr (.inr h), .inl h, .inr (.inl h)]
  have h3 : ¬(u.path ≠ "" ∧ u.path.data.head? ≠ some '/' ∧ u.host ≠ "") := by
    rintro ⟨h₁, h₂, -⟩; exact hp.elim h₁ h₂
  simp only [URL.toString, ho, ne_eq, not_true_eq_false, if_false]
  rw [if_pos h1, if_pos h2, if_neg h3, if_neg (dotPart_false _ _ _ _)]
  cases u.user <;>
    simp only [String.data_append, headPart_data, queryPart_data, fragPart_data, userPartL, Option.map,
      List.append_assoc, List.cons_append, List.nil_append, List.append_nil]

theorem URL.toString_pathOnly {u : URL} (h : u.PathOnly) :
    u.toString.data = (u.path.data ++ queryPartL u.forceQuery u.rawQuery.data) ++ fragPartL u.fragment.data := by
  obtain ⟨hs, ho, hu, hh, hc, -⟩ := h
  simp only [ne_eq] at hc
  simp only [URL.toString, hs, ho, hu, hh, hc, ne_eq, if_false, not_true_eq_false, Option.isSome_none,
    Bool.false_eq_true, or_false, false_or, not_false_eq_true, if_true, and_false, String.append_empty,
    String.empty_append, String.data_append, queryPart_data, fragPart_data]

/-! ### Characters a URL may hold -/

/-- A character that may stand before the fragment: no control character, no
`#`. -/
def safeChar (c : Char) : Bool := !(c.toNat < 0x20 || c.toNat = 0x7f) && c != '#'

theorem containsCTL_eq_false {l : List Char} (h : l.all safeChar = true) : containsCTL l = false := by
  rw [containsCTL, List.any_eq_false]
  intro c hc
  have := List.all_eq_true.1 h c hc
  simp only [safeChar, Bool.and_eq_true, Bool.not_eq_true'] at this
  simp [this.1]

theorem not_containsCTL {l : List Char} (h : l.all safeChar = true) : ¬containsCTL l = true := by
  rw [containsCTL_eq_false h]; decide

theorem hash_not_mem {l : List Char} (h : l.all safeChar = true) : '#' ∉ l := fun hm => by
  simpa [safeChar] using List.all_eq_true.1 h '#' hm

theorem all_safe_of {l : List Char} (h : containsCTL l = false) (h' : '#' ∉ l) : l.all safeChar = true := by
  rw [containsCTL, List.any_eq_false] at h
  refine List.all_eq_true.2 fun c hc => ?_
  have := h c hc
  simp only [Bool.or_eq_true, decide_eq_true_eq, not_or] at this
  have hne : c ≠ '#' := fun e => h' (e ▸ hc)
  simp [safeChar, this.1, this.2, hne]

theorem safeChar_iff (c : Char) : safeChar c = true ↔ 32 ≤ c.toNat ∧ c.toNat ≠ 127 ∧ c.toNat ≠ 35 := by
  have hh : c ≠ '#' ↔ c.toNat ≠ 35 := ⟨fun h e => h (char_eq_of_toNat e), fun h e => h (e ▸ rfl)⟩
  simp only [safeChar, Bool.and_eq_true, Bool.not_eq_true', Bool.or_eq_false_iff, decide_eq_false_iff_not,
    bne_iff_ne, hh]
  omega

theorem safeChar_toLower {c : Char} (h : safeChar c = true) : safeChar c.toLower = true := by
  rw [safeChar_iff, toLower_toNat] at *
  split_ifs <;> omega

/-! ### Parsed URLs -/

/-- What holds of every URL `url.Parse` returns: its parts hold no control
character and no `#`, and before the query no `?`; a scheme is a valid,
lower-case one; a forced query is empty; and it is opaque, has an
authority, or is a path only. -/
structure URL.Canonical (u : URL) : Prop where
  safe : (u.scheme.data ++ u.opaquePath.data ++ userPartL (u.user.map String.data) ++ u.host.data ++
    u.path.data ++ u.rawQuery.data).all safeChar = true
  noQuery : '?' ∉ u.opaquePath.data ++ userPartL (u.user.map String.data) ++ u.host.data ++ u.path.data
  scheme : u.scheme = "" ∨ (ValidScheme u.scheme.data ∧ u.scheme.data.map Char.toLower = u.scheme.data)
  forceQuery : u.forceQuery = true → u.rawQuery = ""
  shape : u.Opaque ∨ u.Authority ∨ u.PathOnly

theorem safe_queryPartL {fq : Bool} {q : List Char} (h : q.all safeChar = true) :
    (queryPartL fq q).all safeChar = true := by
  unfold queryPartL; split_ifs <;> simp [h, safeChar]

theorem forceQuery_data {u : URL} (h : u.forceQuery = true → u.rawQuery = "") :
    u.forceQuery = true → u.rawQuery.data = [] := fun hf => by rw [h hf]

/-- An opaque URL prints back to itself. -/
theorem parseL_opaque {u : URL} (hc : u.Canonical) (ho : u.Opaque) (frag : List Char) :
    parseL (u.scheme.data ++ ':' :: (u.opaquePath.data ++ queryPartL u.forceQuery u.rawQuery.data)) frag =
      .ok { u with fragment := ⟨frag⟩ } := by
  obtain ⟨hs, hu, hh, hp, hslash⟩ := ho
  obtain ⟨⟨hstart, hall⟩, hlow⟩ := hc.scheme.resolve_left hs
  have hsafe := hc.safe
  simp only [List.all_append, Bool.and_eq_true] at hsafe
  have hnq : '?' ∉ u.opaquePath.data := fun hm => hc.noQuery (by simp [hm])
  rw [parseL_eq, if_neg (by simp [containsCTL_eq_false, hsafe, safe_queryPartL, safeChar]),
    getSchemeL_scheme _ [] _ hall (.inr hstart)]
  simp only [Except.bind, List.reverse_nil, List.nil_append, hlow,
    splitQueryL_print hnq (forceQuery_data hc.forceQuery), parsePathL]
  rw [if_pos ⟨hslash, by simpa [str_eq_empty] using hs⟩]
  cases u
  simp_all

theorem takeWhile_dropWhile_authority {a p : List Char} (ha : '/' ∉ a) (hp : p = [] ∨ p.head? = some '/') :
    (a ++ p).takeWhile (· ≠ '/') = a ∧ (a ++ p).dropWhile (· ≠ '/') = p := by
  have hpos : ∀ x ∈ a, decide (x ≠ '/') = true := fun x hx => decide_eq_true fun e => ha (e ▸ hx)
  rw [List.takeWhile_append_of_pos hpos, List.dropWhile_append_of_pos hpos]
  rcases hp with rfl | hp
  · simp
  · obtain ⟨t, rfl⟩ := List.head?_eq_some_iff.1 hp
    simp

/-- A URL with an authority prints back to itself. -/
theorem parseL_authority {u : URL} (hc : u.Canonical) (ha : u.Authority) (frag : List Char) :
    parseL ((if u.scheme = "" then [] else u.scheme.data ++ [':']) ++
      (('/' :: '/' :: (userPartL (u.user.map String.data) ++ u.host.data ++ u.path.data)) ++
        queryPartL u.forceQuery u.rawQuery.data)) frag = .ok { u with fragment := ⟨frag⟩ } := by
  obtain ⟨ho, hsome, hslash, hauth, hp⟩ := ha
  generalize hA : userPartL (u.user.map String.data) ++ u.host.data = A at hslash hauth
  have hsafe := hc.safe
  simp only [List.all_append, Bool.and_eq_true] at hsafe
  have hnq : '?' ∉ '/' :: '/' :: (A ++ u.path.data) := by
    have := hc.noQuery
    rw [← hA]
    simp only [List.mem_cons, List.mem_append, not_or] at this ⊢
    exact ⟨by decide, by decide, ⟨this.1.1.2, this.1.2⟩, this.2⟩
  -- `getScheme` gives back the scheme, lower-case already
  have hscheme : getSchemeL [] ((if u.scheme = "" then [] else u.scheme.data ++ [':']) ++
      (('/' :: '/' :: (A ++ u.path.data)) ++ queryPartL u.forceQuery u.rawQuery.data)) =
      .ok (u.scheme.data, ('/' :: '/' :: (A ++ u.path.data)) ++ queryPartL u.forceQuery u.rawQuery.data) := by
    split_ifs with hs
    · rw [hs, List.nil_append]
      exact getSchemeL_plain _ [] (by simp [schemeChar])
    · obtain ⟨⟨hstart, hall⟩, -⟩ := hc.scheme.resolve_left hs
      simpa using getSchemeL_scheme _ [] _ hall (.inr hstart)
  have hlow : u.scheme.data.map Char.toLower = u.scheme.data := by
    rcases hc.scheme with hs | ⟨-, hl⟩
    · rw [hs]; rfl
    · exact hl
  -- with no scheme, the authority is not empty, so the text does not start with `///`
  have hcond : u.scheme.data ≠ [] ∨ ¬ ['/', '/', '/'].isPrefixOf ('/' :: '/' :: (A ++ u.path.data)) := by
    refine or_iff_not_imp_left.2 fun hs => ?_
    have hne : A ≠ [] := by
      rw [← hA]
      rcases hsome with h | h | ⟨-, h⟩
      · obtain ⟨x, hx⟩ := Option.isSome_iff_exists.1 h
        simp [hx, userPartL]
      · exact fun e => h (str_eq_empty.2 (List.append_eq_nil.1 e).2)
      · exact absurd (str_eq_empty.2 (not_not.1 hs)) h
    obtain ⟨a, t, rfl⟩ := List.exists_cons_of_ne_nil hne
    have ha : a ≠ '/' := fun e => hslash (by simp [e])
    simp [List.isPrefixOf, Ne.symm ha]
  obtain ⟨htw, hdw⟩ := takeWhile_dropWhile_authority hslash (hp.imp_left str_eq_empty.1)
  have hall : ((if u.scheme = "" then [] else u.scheme.data ++ [':']) ++
      (('/' :: '/' :: (A ++ u.path.data)) ++ queryPartL u.forceQuery u.rawQuery.data)).all safeChar = true := by
    rw [← hA]
    split_ifs <;> simp [hsafe, safe_queryPartL, safeChar]
  rw [parseL_eq, if_neg (not_containsCTL hall), hscheme]
  simp only [Except.bind, hlow, splitQueryL_print hnq (forceQuery_data hc.forceQuery), parsePathL]
  rw [if_neg (by simp), if_neg (by simp), if_pos ⟨hcond, by simp [List.isPrefixOf]⟩]
  simp only [List.drop_succ_cons, List.drop_zero, htw, hdw, hauth, Except.map, Option.map_map]
  rw [ho, show Option.map (String.mk ∘ String.data) u.user = u.user by cases u.user <;> rfl]

theorem dropWhile_schemeChar_head {p q : List Char} (hp : ':' ∉ p.takeWhile (· ≠ '/'))
    (hq : q = [] ∨ q.head? = some '?') : ((p ++ q).dropWhile schemeChar).head? ≠ some ':' := by
  induction p with
  | nil =>
    rcases hq with rfl | hq
    · simp
    · obtain ⟨t, rfl⟩ := List.head?_eq_some_iff.1 hq
      simp [schemeChar]
  | cons c p ih =>
    by_cases hs : schemeChar c = true
    · have hc : c ≠ '/' := fun e => by simp [e, schemeChar] at hs
      rw [List.cons_append, List.dropWhile_cons_of_pos hs]
      exact ih (by simp [hc] at hp; simpa using hp.2)
    · rw [List.cons_append, List.dropWhile_cons_of_neg hs]
      rintro ⟨⟩
      simp at hp

theorem queryPartL_head (fq : Bool) (q : List Char) : queryPartL fq q = [] ∨ (queryPartL fq q).head? = some '?' := by
  unfold queryPartL; split_ifs <;> simp

/-- A URL that is a path only prints back to itself. -/
theorem parseL_pathOnly {u : URL} (hc : u.Canonical) (hpo : u.PathOnly) (frag : List Char) :
    parseL (u.path.data ++ queryPartL u.forceQuery u.rawQuery.data) frag = .ok { u with fragment := ⟨frag⟩ } := by
  obtain ⟨hs, ho, hu, hh, hcolon, hslash⟩ := hpo
  have hsafe := hc.safe
  simp only [List.all_append, Bool.and_eq_true] at hsafe
  have hnq : '?' ∉ u.path.data := fun hm => hc.noQuery (by simp [hm])
  rw [parseL_eq, if_neg (not_containsCTL (by simp [hsafe, safe_queryPartL])),
    getSchemeL_plain _ [] (dropWhile_schemeChar_head hcolon (queryPartL_head _ _))]
  simp only [Except.bind, List.reverse_nil, List.nil_append, List.map_nil,
    splitQueryL_print hnq (forceQuery_data hc.forceQuery), parsePathL, cutL_fst]
  rw [if_neg (by simp), if_neg (fun h => hcolon h.2), if_neg (fun h => by
    simp at h; exact h.1 (List.isPrefixOf_iff_prefix.1 (hslash (List.isPrefixOf_iff_prefix.2 h.2))))]
  cases u
  simp_all

/-! ### What `parse` accepts is canonical -/

theorem parseAuthorityL_nil : parseAuthorityL [] = .ok (none, []) := rfl

theorem map_data_map_mk (ui : Option (List Char)) : (ui.map String.mk).map String.data = ui := by
  cases ui <;> rfl

theorem eq_slash_slash_of_isPrefixOf {r : List Char} (h : ['/', '/'].isPrefixOf r = true) :
    ∃ t, r = '/' :: '/' :: t := by
  obtain ⟨t, rfl⟩ := List.isPrefixOf_iff_prefix.1 h
  exact ⟨t, rfl⟩

/-- The shape of what `parse` returns after `//`: an authority; or, with no
user, host or path, an opaque URL when there is a scheme and a path only when
there is none. -/
theorem authority_shape {sc A P hst rq frag : List Char} {ui : Option (List Char)} {fq : Bool} {u : URL}
    (hu : u = ⟨⟨sc⟩, "", ui.map String.mk, ⟨hst⟩, ⟨P⟩, fq, ⟨rq⟩, ⟨frag⟩⟩)
    (hauth : parseAuthorityL A = .ok (ui, hst)) (hslash : '/' ∉ A) (hP : P = [] ∨ P.head? = some '/')
    (h3 : sc ≠ [] ∨ ¬['/', '/', '/'].isPrefixOf ('/' :: '/' :: (A ++ P)) = true) :
    u.Opaque ∨ u.Authority ∨ u.PathOnly := by
  subst hu
  have hAeq := parseAuthorityL_ok hauth
  by_cases hcase : ui.isSome ∨ hst ≠ [] ∨ (P ≠ [] ∧ sc ≠ [])
  · refine .inr (.inl ⟨rfl, ?_, ?_, ?_, hP.imp_left fun e => by rw [e]⟩)
    · simpa [str_eq_empty] using hcase
    · rw [map_data_map_mk, ← hAeq]; exact hslash
    · rw [map_data_map_mk, ← hAeq]; exact hauth
  simp only [not_or, not_and, not_not, Option.not_isSome_iff_eq_none] at hcase
  obtain ⟨rfl, rfl, hsc⟩ := hcase
  obtain rfl : A = [] := hAeq
  by_cases hs : sc = []
  · subst hs
    obtain rfl : P = [] := hP.resolve_right fun h => by
      obtain ⟨t, rfl⟩ := List.head?_eq_some_iff.1 h
      simp [List.isPrefixOf] at h3
    exact .inr (.inr ⟨rfl, rfl, rfl, rfl, by simp, by simp [List.isPrefixOf]⟩)
  · obtain rfl : P = [] := by_contra fun hne => hs (hsc hne)
    exact .inl ⟨fun e => hs (congrArg String.data e), rfl, rfl, rfl, by simp⟩

/-- The shape of what `parse` returns as a path: with a scheme the path is
rooted, so it prints after `//`; without one it is a path only. -/
theorem path_shape {sc r rq frag : List Char} {fq : Bool} {u : URL}
    (hu : u = ⟨⟨sc⟩, "", none, "", ⟨r⟩, fq, ⟨rq⟩, ⟨frag⟩⟩) (h1 : ¬(r.head? ≠ some '/' ∧ sc ≠ []))
    (h2 : ¬(r.head? ≠ some '/' ∧ ':' ∈ (cutL '/' r).1))
    (h3 : ¬((sc ≠ [] ∨ ¬['/', '/', '/'].isPrefixOf r = true) ∧ ['/', '/'].isPrefixOf r = true)) :
    u.Opaque ∨ u.Authority ∨ u.PathOnly := by
  subst hu
  by_cases hs : sc = []
  · subst hs
    refine .inr (.inr ⟨rfl, rfl, rfl, rfl, ?_, fun hp => by_contra fun hn => h3 ⟨.inr hn, hp⟩⟩)
    rw [← cutL_fst]
    by_cases hr : r.head? = some '/'
    · obtain ⟨t, rfl⟩ := List.head?_eq_some_iff.1 hr
      simp [cutL_fst]
    · exact fun hm => h2 ⟨hr, hm⟩
  · have hr : r.head? = some '/' := by by_contra hr; exact h1 ⟨hr, hs⟩
    refine .inr (.inl ⟨rfl, .inr (.inr ⟨fun e => ?_, fun e => hs (congrArg String.data e)⟩), by simp [userPartL],
      by simpa [userPartL] using parseAuthorityL_nil, .inr hr⟩)
    rw [str_eq_empty] at e
    cases (e : r = [])
    cases hr

/-- What `parse` returns after the scheme and the query is canonical. -/
theorem parsePathL_canonical {sc r rq frag : List Char} {fq : Bool} {u : URL}
    (h : parsePathL sc r rq frag fq = .ok u)
    (hsc : sc = [] ∨ (ValidScheme sc ∧ sc.map Char.toLower = sc))
    (hsafe : (sc ++ r ++ rq).all safeChar = true) (hq : '?' ∉ r) (hfq : fq = true → rq = []) :
    u.Canonical ∧ u.fragment = ⟨frag⟩ := by
  simp only [List.all_append, Bool.and_eq_true] at hsafe
  have hscheme : (⟨sc⟩ : String) = "" ∨ (ValidScheme sc ∧ sc.map Char.toLower = sc) :=
    hsc.imp_left fun e => by rw [e]
  have hfq' : fq = true → (⟨rq⟩ : String) = "" := fun e => by rw [hfq e]
  unfold parsePathL at h
  split_ifs at h with h1 h2 h3
  · -- an opaque part
    cases h
    refine ⟨⟨by simp [hsafe, userPartL], by simpa [userPartL] using hq, hscheme, hfq', .inl ?_⟩, rfl⟩
    exact ⟨fun e => h1.2 (congrArg String.data e), rfl, rfl, rfl, h1.1⟩
  · -- an authority
    obtain ⟨r', rfl⟩ := eq_slash_slash_of_isPrefixOf h3.2
    simp only [List.drop_succ_cons, List.drop_zero] at h
    generalize hA : r'.takeWhile (· ≠ '/') = A at h
    generalize hP : r'.dropWhile (· ≠ '/') = P at h
    have hr' : r' = A ++ P := by rw [← hA, ← hP, List.takeWhile_append_dropWhile]
    have hslashA : '/' ∉ A := fun hm => by have := List.mem_takeWhile_imp (hA ▸ hm); simp at this
    have hPhead : P = [] ∨ P.head? = some '/' := by
      have := List.head?_dropWhile_not (· ≠ '/') r'
      rw [hP] at this
      cases P with
      | nil => exact .inl rfl
      | cons c t => exact .inr (by simpa using this)
    cases hauth : parseAuthorityL A with
    | error => simp [hauth, Except.map] at h
    | ok p =>
      obtain ⟨ui, hst⟩ := p
      simp only [hauth, Except.map, Except.ok.injEq] at h
      subst h
      have hAeq := parseAuthorityL_ok hauth
      subst hr'
      refine ⟨⟨?_, ?_, hscheme, hfq', ?_⟩, rfl⟩
      · rw [hAeq] at hsafe
        simp only [map_data_map_mk, List.all_cons, List.all_append, List.all_nil, Bool.and_eq_true] at hsafe ⊢
        obtain ⟨⟨h₁, -, -, ⟨h₂, h₃⟩, h₄⟩, h₅⟩ := hsafe
        exact ⟨⟨⟨⟨⟨h₁, trivial⟩, h₂⟩, h₃⟩, h₄⟩, h₅⟩
      · rw [hAeq] at hq
        simp only [map_data_map_mk]
        simpa using hq
      · exact authority_shape rfl hauth hslashA hPhead h3.1
  · -- a path
    cases h
    exact ⟨⟨by simp [hsafe, userPartL], by simpa [userPartL] using hq, hscheme, hfq', path_shape rfl h1 h2 h3⟩, rfl⟩

theorem all_safe_of_queryPartL {fq : Bool} {q : List Char} (h : (queryPartL fq q).all safeChar = true) :
    q.all safeChar = true := by
  unfold queryPartL at h
  split_ifs at h with hq
  · rw [List.all_cons, Bool.and_eq_true] at h; exact h.2
  · simp only [not_or, Bool.not_eq_true, ne_eq, not_not] at hq
    rw [hq.2]; rfl

/-- Every URL `url.Parse` returns is canonical. -/
theorem urlParse_canonical {s : String} {u : URL} (h : urlParse s = .ok u) : u.Canonical := by
  unfold urlParse at h
  generalize hcut : cutL '#' s.data = p at h
  obtain ⟨raw, fr⟩ := p
  dsimp only at h
  rw [parseL_eq] at h
  split_ifs at h with hctl
  have hall := all_safe_of (Bool.eq_false_iff.2 hctl) (cutL_spec hcut).1
  cases hg : getSchemeL [] raw with
  | error e => rw [hg] at h; cases h
  | ok p =>
    obtain ⟨sc, rest⟩ := p
    simp only [hg, Except.bind] at h
    generalize hsq : splitQueryL rest = q at h
    obtain ⟨r, fq, rq⟩ := q
    obtain ⟨hq, hfq, rfl⟩ := splitQueryL_spec hsq
    rcases getSchemeL_ok hg (.inl rfl) with ⟨rfl, e⟩ | ⟨hv, e⟩
    · rw [List.reverse_nil, List.nil_append] at e
      subst e
      simp only [List.all_append, Bool.and_eq_true] at hall
      refine (parsePathL_canonical h (.inl rfl) ?_ hq hfq).1
      simp [hall.1, all_safe_of_queryPartL hall.2]
    · rw [List.reverse_nil, List.nil_append] at e
      subst e
      simp only [List.all_append, List.all_cons, Bool.and_eq_true] at hall
      refine (parsePathL_canonical h (.inr ⟨hv.map_toLower, map_toLower_idem sc⟩) ?_ hq hfq).1
      simp only [List.all_append, List.all_map, Bool.and_eq_true]
      exact ⟨⟨List.all_eq_true.2 fun c hc => safeChar_toLower (List.all_eq_true.1 hall.1 c hc), hall.2.2.1⟩,
        all_safe_of_queryPartL hall.2.2.2⟩

theorem urlParse_of_data {s : String} {raw f : List Char} (h : s.data = raw ++ fragPartL f) (hraw : '#' ∉ raw) :
    urlParse s = parseL raw f := by
  unfold urlParse fragPartL at *
  rw [h]
  split_ifs with hf
  · rw [cutL_append_cons hraw]; rfl
  · rw [not_not] at hf
    subst hf
    rw [List.append_nil, cutL_of_not_mem hraw]; rfl

/-- A canonical URL parses back from its string form. -/
theorem urlParse_toString {u : URL} (hc : u.Canonical) : urlParse u.toString = .ok u := by
  have hsafe := hc.safe
  simp only [List.all_append, Bool.and_eq_true] at hsafe
  have hqp : (queryPartL u.forceQuery u.rawQuery.data).all safeChar = true := safe_queryPartL hsafe.2
  rcases hc.shape with ho | ha | hpo
  · rw [urlParse_of_data (u.toString_opaque ho) (hash_not_mem ?_), parseL_opaque hc ho]
    simp [hsafe, hqp, safeChar]
  · rw [urlParse_of_data (u.toString_authority ha) (hash_not_mem ?_), parseL_authority hc ha]
    split_ifs <;> simp [hsafe, hqp, safeChar]
  · rw [urlParse_of_data (u.toString_pathOnly hpo) (hash_not_mem ?_), parseL_pathOnly hc hpo]
    simp [hsafe, hqp]

/-- `url.Parse` and `URL.String()` round trip: what `url.Parse` returns
prints to a text that `url.Parse` reads back to the same URL. -/
theorem urlParse_roundTrip {s : String} {u : URL} (h : urlParse s = .ok u) : urlParse u.toString = .ok u :=
  urlParse_toString (urlParse_canonical h)

/-! ### Plain URLs -/


/-- A character that `url.Parse` and `URL.String()` leave as it is wherever it
stands in a URL, as the model does: an ASCII letter or digit, or one of
`-._~$&+,;=:/?`. On a text made of these, Go's percent-decoding and escaping
are the identity, `RawPath` and `RawFragment` stay empty, and there is no
user information and no fragment; there the model computes what Go
computes. -/
def plainChar (c : Char) : Bool :=
  c.isAlphanum || c ∈ ['-', '.', '_', '~', '$', '&', '+', ',', ';', '=', ':', '/', '?']

theorem plainChar_toLower {c : Char} (h : plainChar c = true) : plainChar c.toLower = true := by
  cases hu : c.isUpper
  · rwa [toLower_of_not_upper hu]
  · have ha : c.isAlpha = true := by simp [Char.isAlpha, hu]
    simp [plainChar, Char.isAlphanum, isAlpha_toLower ha]

/-- The characters of a URL's parts, the user information without its `@`. -/
def URL.chars (u : URL) : List Char :=
  u.scheme.data ++ u.opaquePath.data ++ (u.user.getD "").data ++ u.host.data ++ u.path.data ++ u.rawQuery.data ++
    u.fragment.data

section Chars

variable {P : Char → Bool}

theorem all_of_subset {l l' : List Char} (h : l ⊆ l') (h' : l'.all P = true) : l.all P = true :=
  List.all_eq_true.2 fun c hc => List.all_eq_true.1 h' c (h hc)

theorem userPartL_all {ui : Option (List Char)} (h : (userPartL ui).all P = true) :
    ((ui.map String.mk).getD "").data.all P = true ∧ ((ui.map String.mk).isSome → '@' ∈ userPartL ui) := by
  cases ui <;> simp_all [userPartL]

/-- The parts of what `parse` returns past the scheme and the query are made
of the characters it was given; user information comes after a `@`. -/
theorem parsePathL_chars {sc r rq frag : List Char} {fq : Bool} {u : URL} (h : parsePathL sc r rq frag fq = .ok u)
    (hall : (sc ++ r ++ rq ++ frag).all P = true) :
    u.chars.all P = true ∧ (u.user.isSome → '@' ∈ r) ∧ u.fragment = ⟨frag⟩ := by
  simp only [List.all_append, Bool.and_eq_true] at hall
  unfold parsePathL at h
  split_ifs at h with h1 h2 h3
  · cases h
    exact ⟨by simp [URL.chars, hall], fun h => (by cases h), rfl⟩
  · obtain ⟨r', rfl⟩ := eq_slash_slash_of_isPrefixOf h3.2
    simp only [List.drop_succ_cons, List.drop_zero] at h
    generalize hA : r'.takeWhile (· ≠ '/') = A at h
    generalize hP : r'.dropWhile (· ≠ '/') = P' at h
    have hr' : r' = A ++ P' := by rw [← hA, ← hP, List.takeWhile_append_dropWhile]
    cases hauth : parseAuthorityL A with
    | error => simp [hauth, Except.map] at h
    | ok p =>
      obtain ⟨ui, hst⟩ := p
      simp only [hauth, Except.map, Except.ok.injEq] at h
      subst h hr'
      obtain rfl := parseAuthorityL_ok hauth
      obtain ⟨⟨⟨hsc, hr⟩, hrq⟩, hfr⟩ := hall
      simp only [List.all_cons, List.all_append, Bool.and_eq_true] at hr
      obtain ⟨-, -, ⟨hu, hh⟩, hp⟩ := hr
      obtain ⟨hui, hat⟩ := userPartL_all hu
      refine ⟨?_, fun hs => by simp [hat hs], rfl⟩
      simp only [URL.chars, List.all_append, Bool.and_eq_true]
      exact ⟨⟨⟨⟨⟨⟨hsc, rfl⟩, hui⟩, hh⟩, hp⟩, hrq⟩, hfr⟩
  · cases h
    exact ⟨by simp [URL.chars, hall], fun h => (by cases h), rfl⟩

/-- **The parts of a parsed URL are made of the characters of the text.** For
a property of characters that lower-casing keeps: if every character of the
text has it, so does every character of the parts of the URL `url.Parse`
returns; the URL has user information only if the text has a `@`, and a
fragment only if it has a `#`. -/
theorem urlParse_chars (hP : ∀ c, P c = true → P c.toLower = true) {s : String} {u : URL}
    (h : urlParse s = .ok u) (hs : s.data.all P = true) :
    u.chars.all P = true ∧ (u.user.isSome → '@' ∈ s.data) ∧ (u.fragment ≠ "" → '#' ∈ s.data) := by
  unfold urlParse at h
  generalize hcut : cutL '#' s.data = p at h
  obtain ⟨raw, fr⟩ := p
  have hsub : raw ++ fr.getD [] ⊆ s.data ∧ (fr.getD [] ≠ [] → '#' ∈ s.data) := by
    rcases (cutL_spec hcut).2 with ⟨rfl, e⟩ | ⟨f, rfl, e⟩ <;> rw [e] <;> simp
  dsimp only at h
  rw [parseL_eq] at h
  split_ifs at h
  cases hg : getSchemeL [] raw with
  | error e => rw [hg] at h; cases h
  | ok p =>
    obtain ⟨sc, rest⟩ := p
    simp only [hg, Except.bind] at h
    generalize hsq : splitQueryL rest = q at h
    obtain ⟨r, fq, rq⟩ := q
    obtain ⟨-, -, rfl⟩ := splitQueryL_spec hsq
    have hraw : sc ++ r ++ rq ⊆ raw := by
      have hq : rq ⊆ queryPartL fq rq := by unfold queryPartL; split_ifs <;> simp_all
      intro c hc
      simp only [List.mem_append] at hc
      rcases getSchemeL_ok hg (.inl rfl) with ⟨rfl, e⟩ | ⟨-, e⟩
      · simp only [List.reverse_nil, List.nil_append] at e
        rw [← e, List.mem_append]
        rcases hc with (hc | hc) | hc
        exacts [absurd hc (List.not_mem_nil c), .inl hc, .inr (hq hc)]
      · simp only [List.reverse_nil, List.nil_append] at e
        rw [e, List.mem_append, List.mem_cons, List.mem_append]
        rcases hc with (hc | hc) | hc
        exacts [.inl hc, .inr (.inr (.inl hc)), .inr (.inr (.inr (hq hc)))]
    have hall : (sc.map Char.toLower ++ r ++ rq ++ fr.getD []).all P = true := by
      have h₁ := all_of_subset (hraw.trans (List.subset_append_left _ _ |>.trans hsub.1)) hs
      have h₂ := all_of_subset ((List.subset_append_right _ _).trans hsub.1) hs
      simp only [List.all_append, Bool.and_eq_true, List.all_map] at h₁ h₂ ⊢
      exact ⟨⟨⟨List.all_eq_true.2 fun c hc => hP c (List.all_eq_true.1 h₁.1.1 c hc), h₁.1.2⟩, h₁.2⟩, h₂⟩
    obtain ⟨hall', hat, hfrag⟩ := parsePathL_chars h hall
    refine ⟨hall', fun hu => hsub.1 (List.mem_append_left _ (hraw ?_)), fun hf => hsub.2 ?_⟩
    · exact List.mem_append_left _ (List.mem_append_right _ (hat hu))
    · exact fun e => hf (by rw [hfrag, e])

end Chars


/-- A canonical URL with no user information and no fragment prints to
characters of its parts, `:`, `/` and `?`. -/
theorem URL.toString_all {P : Char → Bool} {u : URL} (hc : u.Canonical) (hall : u.chars.all P = true)
    (hs : P ':' = true ∧ P '/' = true ∧ P '?' = true) (hu : u.user = none) (hf : u.fragment = "") :
    u.toString.data.all P = true := by
  simp only [URL.chars, hu, hf, Option.getD_none, List.all_append, Bool.and_eq_true] at hall
  obtain ⟨⟨⟨⟨⟨⟨hsc, hop⟩, -⟩, hh⟩, hp⟩, hq⟩, -⟩ := hall
  have hq' : (queryPartL u.forceQuery u.rawQuery.data).all P = true := by
    unfold queryPartL; split_ifs <;> simp [hs.2.2, hq]
  have hfr : fragPartL u.fragment.data = [] := by simp [fragPartL, hf]
  rcases hc.shape with ho | ha | hpo
  · rw [u.toString_opaque ho, hfr]; simp [hsc, hop, hq', hs.1]
  · rw [u.toString_authority ha, hfr, hu]; split_ifs <;> simp [hsc, hh, hp, hq', hs, userPartL]
  · rw [u.toString_pathOnly hpo, hfr]; simp [hp, hq']

/-- **A plain text parses to a plain URL.** Every part of the URL `url.Parse`
reads from `plainChar`s is made of them, with no user information and no
fragment. -/
theorem urlParse_plain {s : String} {u : URL} (h : urlParse s = .ok u) (hs : s.data.all plainChar = true) :
    u.chars.all plainChar = true ∧ u.user = none ∧ u.fragment = "" := by
  obtain ⟨hall, hat, hhash⟩ := urlParse_chars (P := plainChar) (fun _ => plainChar_toLower) h hs
  refine ⟨hall, Option.not_isSome_iff_eq_none.1 fun hu => ?_, Classical.not_not.1 fun hf => ?_⟩
  exacts [absurd (List.all_eq_true.1 hs _ (hat hu)) (by decide), absurd (List.all_eq_true.1 hs _ (hhash hf)) (by decide)]

end GitlabPages
