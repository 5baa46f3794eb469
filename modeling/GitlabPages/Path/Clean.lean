import GitlabPages.Path

/-!
# `path.Clean` is a normal form

`path.Clean` returns `.`, or `/` and elements, or elements, where no element
is empty or `.`, a `..` stands only at the front of a relative name, and a
rooted name has none (`CleanElems`). Its stack of elements keeps that shape at
every element it reads (`cleanStack_push`), and on a name of that shape it
keeps every element (`foldl_cleanPush_cleanElems`), so cleaning a cleaned
name changes nothing (`pathClean_pathClean`). The archive looks names up
after `path.Clean`; this is what tells which entries a lookup can reach.

Key definitions: `KeptElem`, `CleanElems`, `CleanStack`.
Key theorems: `cleanStack_push`, `cleanElems_clean`, `splitSlash_joinSlash`,
`cleanL_cleanL`, `pathClean_pathClean`.
-/

namespace GitlabPages

/-- An element `path.Clean` keeps in a name: not empty, not `.`, not `..`, and
without `/`. -/
def KeptElem (e : List Char) : Prop := ¬(e = [] ∨ e = ['.']) ∧ e ≠ dotdot ∧ '/' ∉ e

/-- The elements of a clean name, in order: `..` only at the front, and none
in a rooted name; kept elements after them. -/
def CleanElems (rooted : Bool) (es : List (List Char)) : Prop :=
  ∃ k rest, es = List.replicate k dotdot ++ rest ∧ (∀ e ∈ rest, KeptElem e) ∧ (rooted = true → k = 0)

/-- The stack of `path.Clean`, top first: the elements of a clean name in
reverse. -/
def CleanStack (rooted : Bool) (st : List (List Char)) : Prop :=
  ∃ k rest, st = rest ++ List.replicate k dotdot ∧ (∀ e ∈ rest, KeptElem e) ∧ (rooted = true → k = 0)

theorem slash_not_mem_splitSlash : ∀ (s : List Char), ∀ e ∈ splitSlash s, '/' ∉ e
  | [], e, he => by simp [splitSlash] at he; simp [he]
  | c :: cs, e, he => by
    have ih := slash_not_mem_splitSlash cs
    unfold splitSlash at he
    split_ifs at he with hc
    · rcases List.mem_cons.1 he with rfl | he
      · simp
      · exact ih e he
    · rcases List.mem_cons.1 he with rfl | he
      · obtain ⟨e', es, hes⟩ := List.exists_cons_of_ne_nil (splitSlash_ne_nil cs)
        rw [hes] at ih ⊢
        simpa [Ne.symm hc] using ih e' (List.mem_cons_self _ _)
      · exact ih e (List.mem_of_mem_tail he)

/-- One element keeps the stack clean. -/
theorem cleanStack_push {rooted : Bool} {st : List (List Char)} {e : List Char} (hs : CleanStack rooted st)
    (he : '/' ∉ e) : CleanStack rooted (cleanPush rooted st e) := by
  obtain ⟨k, rest, rfl, hrest, hk⟩ := hs
  unfold cleanPush
  by_cases h₁ : e = [] ∨ e = ['.']
  · rw [if_pos h₁]; exact ⟨k, rest, rfl, hrest, hk⟩
  rw [if_neg h₁]
  by_cases h₂ : e = dotdot
  · rw [if_pos h₂]
    cases rest with
    | cons top rest =>
      have htop : top ≠ dotdot := (hrest top (List.mem_cons_self _ _)).2.1
      simp only [List.cons_append, htop, if_false]
      exact ⟨k, rest, rfl, fun e' h' => hrest e' (List.mem_cons_of_mem _ h'), hk⟩
    | nil =>
      cases k with
      | zero =>
        cases rooted
        exacts [⟨1, [], rfl, by simp, by simp⟩, ⟨0, [], rfl, by simp, fun _ => rfl⟩]
      | succ k =>
        simp only [List.nil_append, List.replicate_succ, if_true]
        exact ⟨k + 2, [], rfl, by simp, fun hr => absurd (hk hr) (by omega)⟩
  · rw [if_neg h₂]
    exact ⟨k, e :: rest, rfl, fun e' h' => (List.mem_cons.1 h').elim (· ▸ ⟨h₁, h₂, he⟩) (hrest e'), hk⟩

theorem cleanStack_foldl (rooted : Bool) :
    ∀ (es : List (List Char)) (st : List (List Char)), (∀ e ∈ es, '/' ∉ e) → CleanStack rooted st →
      CleanStack rooted (es.foldl (cleanPush rooted) st)
  | [], _, _, hs => hs
  | e :: es, _, hes, hs => cleanStack_foldl rooted es _ (fun e' h' => hes e' (List.mem_cons_of_mem _ h'))
      (cleanStack_push hs (hes e (List.mem_cons_self _ _)))

/-- **What `path.Clean` keeps is clean.** -/
theorem cleanElems_clean (rooted : Bool) (p : List Char) : CleanElems rooted (cleanElems rooted p) := by
  obtain ⟨k, rest, h, hrest, hk⟩ := cleanStack_foldl rooted (splitSlash p) [] (slash_not_mem_splitSlash p)
    ⟨0, [], rfl, by simp, fun _ => rfl⟩
  refine ⟨k, rest.reverse, ?_, fun e he => hrest e (List.mem_reverse.1 he), hk⟩
  rw [cleanElems, h, List.reverse_append, List.reverse_replicate]

theorem CleanElems.mem {rooted : Bool} {es : List (List Char)} (h : CleanElems rooted es) {e : List Char}
    (he : e ∈ es) : e ≠ [] ∧ '/' ∉ e := by
  obtain ⟨k, rest, rfl, hrest, -⟩ := h
  rcases List.mem_append.1 he with he | he
  · rw [List.eq_of_mem_replicate he]; decide
  · exact ⟨fun e' => (hrest e he).1 (.inl e'), (hrest e he).2.2⟩

theorem foldl_cleanPush_dotdots (j : Nat) : ∀ k : Nat,
    (List.replicate k dotdot).foldl (cleanPush false) (List.replicate j dotdot) = List.replicate (k + j) dotdot
  | 0 => by simp
  | k + 1 => by
    have push : cleanPush false (List.replicate j dotdot) dotdot = List.replicate (j + 1) dotdot := by
      cases j <;> simp [cleanPush, List.replicate_succ, dotdot]
    rw [List.replicate_succ, List.foldl_cons, push, foldl_cleanPush_dotdots (j + 1) k]
    congr 1
    omega

theorem foldl_cleanPush_cleanElems {rooted : Bool} {es : List (List Char)} (h : CleanElems rooted es) :
    es.foldl (cleanPush rooted) [] = es.reverse := by
  obtain ⟨k, rest, rfl, hrest, hk⟩ := h
  have hdots : (List.replicate k dotdot).foldl (cleanPush rooted) [] = List.replicate k dotdot := by
    cases rooted
    · simpa using foldl_cleanPush_dotdots 0 k
    · rw [hk rfl]; rfl
  rw [List.foldl_append, hdots, foldl_cleanPush_plain _ _ _ fun e he => ⟨(hrest e he).1, (hrest e he).2.1⟩,
    List.reverse_append, List.reverse_replicate]

theorem splitSlash_of_not_mem : ∀ {e : List Char}, '/' ∉ e → splitSlash e = [e]
  | [], _ => rfl
  | c :: cs, h => by
    have hc : c ≠ '/' := fun e => h (e ▸ List.mem_cons_self _ _)
    rw [splitSlash, if_neg hc, splitSlash_of_not_mem fun h' => h (List.mem_cons_of_mem _ h')]
    rfl

theorem splitSlash_append_slash : ∀ {e : List Char}, '/' ∉ e → ∀ t, splitSlash (e ++ '/' :: t) = e :: splitSlash t
  | [], _, t => by simp [splitSlash]
  | c :: cs, h, t => by
    have hc : c ≠ '/' := fun e => h (e ▸ List.mem_cons_self _ _)
    rw [List.cons_append, splitSlash, if_neg hc, splitSlash_append_slash (fun h' => h (List.mem_cons_of_mem _ h')) t]
    rfl

theorem splitSlash_joinSlash : ∀ (es : List (List Char)), es ≠ [] → (∀ e ∈ es, '/' ∉ e) →
    splitSlash (joinSlash es) = es
  | [e], _, h => splitSlash_of_not_mem (h e (List.mem_singleton_self _))
  | e :: e' :: es, _, h => by
    show splitSlash (e ++ '/' :: joinSlash (e' :: es)) = _
    rw [splitSlash_append_slash (h e (List.mem_cons_self _ _)),
      splitSlash_joinSlash (e' :: es) (List.cons_ne_nil _ _) fun x hx => h x (List.mem_cons_of_mem _ hx)]

/-- A rooted clean name is cleaned to itself. -/
theorem cleanL_rooted {es : List (List Char)} (h : CleanElems true es) :
    cleanL ('/' :: joinSlash es) = '/' :: joinSlash es := by
  have hsplit : splitSlash ('/' :: joinSlash es) = [] :: splitSlash (joinSlash es) := by simp [splitSlash]
  have hkeep : cleanElems true ('/' :: joinSlash es) = es := by
    rw [cleanElems, hsplit, List.foldl_cons]
    by_cases hne : es = []
    · subst hne; rfl
    · rw [show cleanPush true [] [] = [] from rfl, splitSlash_joinSlash es hne fun e he => (h.mem he).2,
        foldl_cleanPush_cleanElems h, List.reverse_reverse]
  simp [cleanL, hkeep]

/-- A relative clean name is cleaned to itself. -/
theorem cleanL_relative {es : List (List Char)} (h : CleanElems false es) (hne : es ≠ []) :
    cleanL (joinSlash es) = joinSlash es := by
  obtain ⟨e, es', rfl⟩ := List.exists_cons_of_ne_nil hne
  obtain ⟨he, hslash⟩ := h.mem (List.mem_cons_self _ _)
  obtain ⟨c, e', rfl⟩ := List.exists_cons_of_ne_nil he
  have hc : c ≠ '/' := fun e => hslash (e ▸ List.mem_cons_self _ _)
  have hkeep : cleanElems false (joinSlash ((c :: e') :: es')) = (c :: e') :: es' := by
    rw [cleanElems, splitSlash_joinSlash _ hne fun x hx => (h.mem hx).2, foldl_cleanPush_cleanElems h,
      List.reverse_reverse]
  rw [joinSlash_cons_cons, cleanL, if_neg (List.cons_ne_nil _ _), if_neg (by simpa using hc),
    ← joinSlash_cons_cons, hkeep, if_neg hne]

/-- **Cleaning twice is cleaning once.** -/
theorem cleanL_cleanL (p : List Char) : cleanL (cleanL p) = cleanL p := by
  by_cases h₁ : p = []
  · subst h₁; rfl
  by_cases h₂ : p.head? = some '/'
  · rw [show cleanL p = _ from if_neg h₁ |>.trans (if_pos h₂)]
    exact cleanL_rooted (cleanElems_clean true p)
  rw [show cleanL p = _ from if_neg h₁ |>.trans (if_neg h₂)]
  split_ifs with h₃
  · rfl
  · exact cleanL_relative (cleanElems_clean false p) h₃

theorem pathClean_pathClean (p : String) : pathClean (pathClean p) = pathClean p := by
  simp only [pathClean, cleanL_cleanL]

end GitlabPages
