import Mathlib.Data.List.Basic
import Mathlib.Data.List.Nodup
import Mathlib.Logic.Relation
import Mathlib.Logic.Function.Basic
import Mathlib.Tactic.SplitIfs
import Mathlib.Tactic.PushNeg
import Mathlib.Tactic.ByContra
import Mathlib.Data.UInt
import Mathlib.Data.String.Basic

/-!
# Go's string and path helpers, as the server uses them

The server decides what to serve with a handful of functions of Go's `strings`
and `path` packages: `strings.HasPrefix`, `TrimPrefix`, `Contains`,
`HasSuffix`, `SplitN` and `path.Clean`. A Go string is a byte string; here it is
a `String`, and each helper reads its characters (`String.data`), so that what
the helpers compute is what Go computes on ASCII names.

`path.Clean` is the stack machine Go documents: empty and `.` elements vanish,
a `..` removes the element before it (or stays, at the front of a relative
name, and vanishes at the front of a rooted one), and the result is `.` rather
than empty. A plain name, relative and with no empty, `.` or `..` element, is
left as it is (`pathClean_of_plainPath`).

Key definitions: `hasPrefix`, `trimPrefix`, `contains`, `hasSuffix`, `splitN`,
`splitSlash`, `cleanPush`, `pathClean`, `plainPath`.
-/

namespace GitlabPages

/-- Results of fallible functions compare by value, so that tests can decide them. -/
instance exceptDecidableEq {ε α : Type} [DecidableEq ε] [DecidableEq α] : DecidableEq (Except ε α)
  | .ok a, .ok b => if h : a = b then isTrue (h ▸ rfl) else isFalse fun e => h (Except.ok.inj e)
  | .error a, .error b => if h : a = b then isTrue (h ▸ rfl) else isFalse fun e => h (Except.error.inj e)
  | .ok _, .error _ => isFalse nofun
  | .error _, .ok _ => isFalse nofun

/-- `strings.HasPrefix(s, prefix)`. -/
def hasPrefix (s pre : String) : Bool := pre.data.isPrefixOf s.data

/-- `strings.HasSuffix(s, suffix)`. -/
def hasSuffix (s suf : String) : Bool := suf.data.isSuffixOf s.data

/-- `strings.TrimPrefix(s, prefix)`: `s` without `prefix` when it starts with it. -/
def trimPrefix (s pre : String) : String :=
  if hasPrefix s pre then ⟨s.data.drop pre.length⟩ else s

/-- `sub` occurs in `s` at some position. -/
def containsL (sub : List Char) : List Char → Bool
  | [] => sub.isPrefixOf []
  | c :: cs => sub.isPrefixOf (c :: cs) || containsL sub cs

/-- `strings.Contains(s, substr)`. -/
def contains (s sub : String) : Bool := containsL sub.data s.data

/-- `strings.ToLower` on ASCII letters. -/
def toLower (s : String) : String := ⟨s.data.map Char.toLower⟩

theorem hasPrefix_iff {s pre : String} : hasPrefix s pre = true ↔ pre.data <+: s.data := by
  simp [hasPrefix]

theorem hasPrefix_iff_append {s pre : String} :
    hasPrefix s pre = true ↔ ∃ t : String, s = pre ++ t := by
  rw [hasPrefix_iff]
  constructor
  · rintro ⟨t, ht⟩
    exact ⟨⟨t⟩, String.ext (by simpa using ht.symm)⟩
  · rintro ⟨t, rfl⟩
    exact ⟨t.data, by simp⟩

theorem trimPrefix_of_hasPrefix {s pre : String} (h : hasPrefix s pre = true) :
    pre ++ trimPrefix s pre = s := by
  obtain ⟨t, rfl⟩ := hasPrefix_iff_append.mp h
  rw [trimPrefix, if_pos h]
  obtain ⟨p⟩ := pre
  exact String.ext (by simp)

theorem contains_of_hasPrefix {s pre : String} (h : hasPrefix s pre = true) :
    contains s pre = true := by
  unfold contains
  unfold hasPrefix at h
  cases hs : s.data with
  | nil => simp [containsL, ← hs, h]
  | cons c cs => simp [containsL, ← hs, h]

/-! ### Splitting on slashes -/

/-- `strings.Split(s, "/")` on characters: the elements between slashes, empty
ones included. -/
def splitSlash : List Char → List (List Char)
  | [] => [[]]
  | c :: cs =>
    if c = '/' then [] :: splitSlash cs
    else (c :: (splitSlash cs).headD []) :: (splitSlash cs).tail

/-- The elements joined back with slashes (`strings.Join(elems, "/")`). -/
def joinSlash : List (List Char) → List Char
  | [] => []
  | [e] => e
  | e :: es => e ++ '/' :: joinSlash es

/-- `strings.SplitN(s, sep, n)` for a one-character separator: at most `n`
pieces, the last one holding the rest of `s`. -/
def splitNL (sep : Char) : Nat → List Char → List (List Char)
  | 0, _ => []
  | 1, s => [s]
  | n + 2, s =>
    match s.span (· ≠ sep) with
    | (hd, []) => [hd]
    | (hd, _ :: tl) => hd :: splitNL sep (n + 1) tl

/-- `strings.SplitN(s, sep, n)` with a one-character separator. -/
def splitN (s : String) (sep : Char) (n : Nat) : List String :=
  (splitNL sep n s.data).map String.mk

theorem splitN_two (s : String) (sep : Char) :
    splitN s sep 2 = ⟨s.data.takeWhile (· ≠ sep)⟩ :: (splitN s sep 2).tail := by
  simp only [splitN, splitNL, List.span_eq_take_drop]
  split <;> simp_all

theorem isPrefix_slash_iff {d : List Char} (hd : '/' ∉ d) {s : List Char} :
    d ++ ['/'] <+: s ↔ s.takeWhile (· ≠ '/') = d ∧ '/' ∈ s := by
  induction d generalizing s with
  | nil =>
    cases s with
    | nil => simp
    | cons c cs =>
      by_cases hc : c = '/'
      · subst hc; simp [List.takeWhile_cons]
      · simp [hc, List.takeWhile_cons, Ne.symm hc]
  | cons c d ih =>
    have hc : c ≠ '/' := fun h => hd (h ▸ List.mem_cons_self _ _)
    have hd' : '/' ∉ d := fun h => hd (List.mem_cons_of_mem _ h)
    cases s with
    | nil => simp
    | cons x xs =>
      by_cases hx : x = '/'
      · subst hx; simp [List.takeWhile_cons, hc]
      · simp [List.takeWhile_cons, hx, ih hd', List.cons_prefix_cons, Ne.symm hx, @eq_comm _ c x, and_assoc]

/-! ### `path.Clean` -/

/-- The `..` element. -/
def dotdot : List Char := ['.', '.']

/-- One element of a name pushed on the stack of elements kept so far (top
first), as `path.Clean` treats it. -/
def cleanPush (rooted : Bool) (st : List (List Char)) (e : List Char) : List (List Char) :=
  if e = [] ∨ e = ['.'] then st
  else if e = dotdot then
    match st with
    | top :: rest => if top = dotdot then dotdot :: st else rest
    | [] => if rooted then [] else [dotdot]
  else e :: st

/-- The elements `path.Clean` keeps, in order. -/
def cleanElems (rooted : Bool) (p : List Char) : List (List Char) :=
  ((splitSlash p).foldl (cleanPush rooted) []).reverse

/-- `path.Clean` on characters. -/
def cleanL (p : List Char) : List Char :=
  if p = [] then ['.']
  else if p.head? = some '/' then '/' :: joinSlash (cleanElems true p)
  else if cleanElems false p = [] then ['.']
  else joinSlash (cleanElems false p)

/-- `path.Clean(p)` (also `filepath.Clean` on Unix). -/
def pathClean (p : String) : String := ⟨cleanL p.data⟩

example : pathClean "public/../public2/secret.txt" = "public2/secret.txt" := by decide
example : pathClean "/a/./b//../../.." = "/" := by decide

/-! ### Names `path.Clean` keeps -/

theorem splitSlash_ne_nil (s : List Char) : splitSlash s ≠ [] := by
  cases s with
  | nil => simp [splitSlash]
  | cons c cs => unfold splitSlash; split_ifs <;> simp

theorem joinSlash_cons_cons (c : Char) (e : List Char) (es : List (List Char)) :
    joinSlash ((c :: e) :: es) = c :: joinSlash (e :: es) := by
  cases es <;> rfl

theorem joinSlash_splitSlash (s : List Char) : joinSlash (splitSlash s) = s := by
  induction s with
  | nil => rfl
  | cons c cs ih =>
    unfold splitSlash
    obtain ⟨e, es, hes⟩ := List.exists_cons_of_ne_nil (splitSlash_ne_nil cs)
    split_ifs with hc
    · rw [hes] at ih ⊢; rw [hc, ← ih]; rfl
    · rw [hes] at ih ⊢; rw [List.headD_cons, List.tail_cons, joinSlash_cons_cons, ih]

/-- A name `path.Clean` keeps as it is: every element is neither empty, nor
`.`, nor `..`. -/
def plainPath (p : List Char) : Prop := ∀ e ∈ splitSlash p, ¬(e = [] ∨ e = ['.']) ∧ e ≠ dotdot

instance (p : List Char) : Decidable (plainPath p) :=
  inferInstanceAs (Decidable (∀ e ∈ splitSlash p, ¬(e = [] ∨ e = ['.']) ∧ e ≠ dotdot))

theorem foldl_cleanPush_plain (rooted : Bool) (es : List (List Char)) (st : List (List Char))
    (h : ∀ e ∈ es, ¬(e = [] ∨ e = ['.']) ∧ e ≠ dotdot) : es.foldl (cleanPush rooted) st = es.reverse ++ st := by
  induction es generalizing st with
  | nil => rfl
  | cons e es ih =>
    have he := h e (List.mem_cons_self _ _)
    have push : cleanPush rooted st e = e :: st := by
      unfold cleanPush; rw [if_neg he.1, if_neg he.2]
    rw [List.foldl_cons, push, ih _ fun e' h' => h e' (List.mem_cons_of_mem _ h')]
    simp

theorem cleanElems_of_plainPath {rooted : Bool} {p : List Char} (h : plainPath p) :
    cleanElems rooted p = splitSlash p := by
  rw [cleanElems, foldl_cleanPush_plain rooted _ _ h, List.append_nil, List.reverse_reverse]

theorem plainPath_head {p : List Char} (h : plainPath p) : p ≠ [] ∧ p.head? ≠ some '/' := by
  cases p with
  | nil => exact absurd (h [] (by simp [splitSlash])).1 (by simp)
  | cons c cs =>
    refine ⟨List.cons_ne_nil _ _, fun hc => ?_⟩
    cases hc
    exact absurd (h [] (by simp [splitSlash])).1 (by simp)

/-- **`path.Clean` leaves a plain name as it is.** -/
theorem pathClean_of_plainPath {p : String} (h : plainPath p.data) : pathClean p = p := by
  obtain ⟨hne, hhead⟩ := plainPath_head h
  rw [pathClean, cleanL, if_neg hne, if_neg hhead, cleanElems_of_plainPath h, if_neg (splitSlash_ne_nil _),
    joinSlash_splitSlash]

end GitlabPages
