import GitlabPages.Zip.Archive

/-!
# Opening an archive: one parse for all callers

`zipArchive.openArchive`, `readArchive` and `openStatus`
(`internal/vfs/zip/archive.go`, lines 77-164 and 341-357). Any number of
callers run `openArchive` at once. The first to find the archive still opening
starts `readArchive` in its own goroutine, through `a.once`; every caller then
waits for `a.done` or for its own context. `readArchive` creates the resource,
parses the central directory, indexes every entry, and closes `a.done`.

Every statement that touches shared state is a step: a step of `readArchive`
or the resource recording an error (`ArchiveStep`; `httprange` keeps the
last error it met), a step of a caller (`CallerStep`), or a new call.
A caller's context may end at any time while it waits (`CallerStep.waitCtx`),
and when both `a.done` and the context are ready either may win, as in Go's
`select`. The ghost fields `launches` and `parsed` count the starts of
`readArchive` and keep the entries the parse yielded (the code drops them,
`a.archive.File = nil`).

Over every run (`open_archive_runs`): `readArchive` starts at most once, and
has started before any caller waits; the status only moves forward, and an
open error keeps its error; a caller that gets `nil` gets it after the whole
index is built; the index never changes once `a.done` is closed; and a call
made after an error returns that error. When the store answers and the parse
succeeds, `readArchive` runs to its end whatever the archive holds
(`readArchive_run`), and a first call on a fresh archive returns `nil`
(`open_first_call_run`).

Key definitions: `ArchiveState`, `openStatus`, `ArchiveStep`, `CallerStep`,
`Step`, `Inv`.
Key theorems: `inv_archiveStep`, `inv_callerStep`, `status_step`,
`index_step_of_done`, `readArchive_run`, `open_first_call_run`, `open_archive_runs`.
-/

namespace GitlabPages
namespace Zip

/-- `httprange.Resource`, as the archive uses it: its URL and the last error it
recorded. -/
structure Resource where
  url : String
  err : Option String
  deriving DecidableEq, Repr

/-- `Resource.SetURL`. -/
def Resource.setURL (r : Resource) (url : String) : Resource := { r with url := url }

/-- `archiveStatus`. -/
inductive ArchiveStatus
  | opening
  | openError
  | opened
  | corrupted
  deriving DecidableEq, Repr

/-- Where `readArchive` is. -/
inductive ReaderPc
  | idle
  | newResource (url : String)
  | parse
  | indexing (rest : List File)
  | closing
  | finished
  deriving DecidableEq, Repr

/-- The shared fields of a `zipArchive`, with the ghost fields `launches` and
`parsed`. `archiveFiles` is `a.archive.File`, `none` while `a.archive` is
nil. -/
structure ArchiveState where
  once : Bool
  launches : Nat
  reader : ReaderPc
  done : Bool
  resource : Option Resource
  err : Option String
  archiveFiles : Option (List File)
  parsed : List File
  index : Archive

/-- A `zipArchive` as `newArchive` makes it. -/
def ArchiveState.init : ArchiveState := ⟨false, 0, .idle, false, none, none, none, [], Archive.empty⟩

/-- `zipArchive.openStatus`. -/
def openStatus (a : ArchiveState) : ArchiveStatus × Option String :=
  if a.done then
    match a.err with
    | some e => (.openError, some e)
    | none =>
      match a.resource.bind Resource.err with
      | some e => (.corrupted, some e)
      | none => (.opened, none)
  else (.opening, none)

/-- The steps an archive takes by itself: those of `readArchive`, and the
resource recording an error. The results of `httprange.NewResource` and of
`zip.NewReader` are the environment's. -/
inductive ArchiveStep : ArchiveState → ArchiveState → Prop
  | newResourceOk {a : ArchiveState} {url : String} : a.reader = .newResource url →
      ArchiveStep a { a with resource := some ⟨url, none⟩, err := none, reader := .parse }
  | newResourceErr {a : ArchiveState} {url e : String} : a.reader = .newResource url →
      ArchiveStep a { a with resource := none, err := some e, reader := .closing }
  | parseOk {a : ArchiveState} (files : List File) : a.reader = .parse →
      ArchiveStep a { a with
        archiveFiles := some files, err := none, parsed := files
        index := { a.index with publicDirectoryName := guessPublicDirectoryName files }
        reader := .indexing files }
  | parseErr {a : ArchiveState} (e : String) : a.reader = .parse →
      ArchiveStep a { a with archiveFiles := none, err := some e, reader := .closing }
  | index {a : ArchiveState} {f : File} {rest : List File} : a.reader = .indexing (f :: rest) →
      ArchiveStep a { a with index := a.index.indexFile f, reader := .indexing rest }
  | recycle {a : ArchiveState} : a.reader = .indexing [] →
      ArchiveStep a { a with archiveFiles := some [], reader := .closing }
  | close {a : ArchiveState} : a.reader = .closing →
      ArchiveStep a { a with done := true, reader := .finished }
  | resourceFail {a : ArchiveState} (e : String) :
      ArchiveStep a { a with resource := a.resource.map fun r => { r with err := some e } }

/-- Why a caller's context ended. -/
inductive CtxErr
  | canceled
  | deadlineExceeded
  deriving DecidableEq, Repr

/-- `ctx.Err().Error()`. -/
def CtxErr.message : CtxErr → String
  | .canceled => "context canceled"
  | .deadlineExceeded => "context deadline exceeded"

/-- Where a caller of `openArchive` is. -/
inductive CallerPc
  | idle
  | start (url : String)
  | status (url : String)
  | once (url : String)
  | wait
  | returned (err : Option String)
  deriving DecidableEq, Repr

/-- The steps of one `openArchive` call. -/
inductive CallerStep : ArchiveState × CallerPc → ArchiveState × CallerPc → Prop
  | setURL {a : ArchiveState} {url : String} :
      CallerStep (a, .start url) ({ a with resource := a.resource.map (·.setURL url) }, .status url)
  | statusReturn {a : ArchiveState} {url : String} : (openStatus a).1 ≠ .opening →
      CallerStep (a, .status url) (a, .returned (openStatus a).2)
  | statusOpening {a : ArchiveState} {url : String} : (openStatus a).1 = .opening →
      CallerStep (a, .status url) (a, .once url)
  | onceFirst {a : ArchiveState} {url : String} : a.once = false →
      CallerStep (a, .once url)
        ({ a with once := true, launches := a.launches + 1, reader := .newResource url }, .wait)
  | onceAgain {a : ArchiveState} {url : String} : a.once = true →
      CallerStep (a, .once url) (a, .wait)
  | waitDone {a : ArchiveState} : a.done = true → CallerStep (a, .wait) (a, .returned a.err)
  | waitCtx {a : ArchiveState} (e : CtxErr) : CallerStep (a, .wait) (a, .returned (some e.message))

/-- One archive and its callers. -/
structure OpenSys where
  a : ArchiveState
  callers : Nat → CallerPc

/-- No call yet. -/
def OpenSys.init : OpenSys := ⟨.init, fun _ => .idle⟩

/-- A step of the archive with its callers. -/
inductive Step : OpenSys → OpenSys → Prop
  | call {s : OpenSys} (i : Nat) (url : String) : s.callers i = .idle →
      Step s { s with callers := Function.update s.callers i (.start url) }
  | caller {s : OpenSys} {a : ArchiveState} {pc : CallerPc} (i : Nat) :
      CallerStep (s.a, s.callers i) (a, pc) → Step s ⟨a, Function.update s.callers i pc⟩
  | archive {s : OpenSys} {a : ArchiveState} : ArchiveStep s.a a → Step s { s with a := a }

/-! ### The archive's own invariant -/

/-- The index `readArchive` starts its loop from. -/
def indexStart (files : List File) : Archive :=
  { Archive.empty with publicDirectoryName := guessPublicDirectoryName files }

/-- What holds of an archive in every reachable state. -/
structure Inv (a : ArchiveState) : Prop where
  launches : a.launches = if a.once then 1 else 0
  idle : a.reader = .idle ↔ a.once = false
  done : a.done = true ↔ a.reader = .finished
  fresh : (a.reader = .idle ∨ (∃ url, a.reader = .newResource url) ∨ a.reader = .parse) →
    a.index = Archive.empty
  indexing : ∀ rest, a.reader = .indexing rest →
    a.err = none ∧ ∃ pre, a.parsed = pre ++ rest ∧ a.index = pre.foldl Archive.indexFile (indexStart a.parsed)
  complete : (a.reader = .closing ∨ a.reader = .finished) → a.err = none →
    a.index = readArchiveIndex a.parsed

theorem Inv.not_done {a : ArchiveState} (hi : Inv a) (h : a.reader ≠ .finished) : a.done = false := by
  cases hd : a.done
  · rfl
  · exact absurd (hi.done.mp hd) h

theorem Inv.once_true {a : ArchiveState} (hi : Inv a) (h : a.reader ≠ .idle) : a.once = true := by
  simpa [hi.idle] using h

theorem inv_init : Inv ArchiveState.init :=
  ⟨rfl, by simp [ArchiveState.init], by simp [ArchiveState.init], fun _ => rfl,
    fun _ h => by simp [ArchiveState.init] at h, fun h => by simp [ArchiveState.init] at h⟩

theorem inv_archiveStep {a a' : ArchiveState} (hi : Inv a) (h : ArchiveStep a a') : Inv a' := by
  cases h with
  | newResourceOk hr =>
    have h1 := hi.not_done (by simp [hr]); have h2 := hi.once_true (by simp [hr])
    exact ⟨hi.launches, by simp [h2], by simp [h1], fun _ => hi.fresh (.inr (.inl ⟨_, hr⟩)),
      fun _ h => by simp at h, fun h => by simp at h⟩
  | newResourceErr hr =>
    have h1 := hi.not_done (by simp [hr]); have h2 := hi.once_true (by simp [hr])
    exact ⟨hi.launches, by simp [h2], by simp [h1], fun h => by simp at h,
      fun _ h => by simp at h, fun _ h => by simp at h⟩
  | parseOk files hr =>
    have h1 := hi.not_done (by simp [hr]); have h2 := hi.once_true (by simp [hr])
    refine ⟨hi.launches, by simp [h2], by simp [h1], fun h => by simp at h,
      fun rest h => ⟨rfl, [], by simpa using h, ?_⟩, fun h => by simp at h⟩
    simp [indexStart, hi.fresh (.inr (.inr hr))]
  | parseErr e hr =>
    have h1 := hi.not_done (by simp [hr]); have h2 := hi.once_true (by simp [hr])
    exact ⟨hi.launches, by simp [h2], by simp [h1], fun h => by simp at h,
      fun _ h => by simp at h, fun _ h => by simp at h⟩
  | @index f rest hr =>
    have h1 := hi.not_done (by simp [hr]); have h2 := hi.once_true (by simp [hr])
    obtain ⟨herr, pre, hp, hix⟩ := hi.indexing _ hr
    refine ⟨hi.launches, by simp [h2], by simp [h1], fun h => by simp at h,
      fun rest' h => ⟨herr, pre ++ [f], ?_⟩, fun h => by simp at h⟩
    simp only [ReaderPc.indexing.injEq] at h
    subst h
    simp [hp, hix]
  | recycle hr =>
    have h1 := hi.not_done (by simp [hr]); have h2 := hi.once_true (by simp [hr])
    obtain ⟨herr, pre, hp, hix⟩ := hi.indexing _ hr
    refine ⟨hi.launches, by simp [h2], by simp [h1], fun h => by simp at h,
      fun _ h => by simp at h, fun _ _ => ?_⟩
    simp only [List.append_nil] at hp
    subst hp
    exact hix
  | close hr =>
    have h2 := hi.once_true (by simp [hr])
    exact ⟨hi.launches, by simp [h2], by simp, fun h => by simp at h,
      fun _ h => by simp at h, fun _ he => hi.complete (.inl hr) he⟩
  | resourceFail e => exact ⟨hi.launches, hi.idle, hi.done, hi.fresh, hi.indexing, hi.complete⟩

theorem callerStep_frame {a a' : ArchiveState} {pc pc' : CallerPc} (h : CallerStep (a, pc) (a', pc')) :
    a'.done = a.done ∧ a'.err = a.err ∧ a'.index = a.index ∧ a'.parsed = a.parsed ∧
      a'.resource.bind Resource.err = a.resource.bind Resource.err ∧ (a.once = true → a'.once = true) := by
  cases h <;> simp [Resource.setURL, Option.bind_map]

theorem openStatus_congr {a a' : ArchiveState} (h1 : a'.done = a.done) (h2 : a'.err = a.err)
    (h3 : a'.resource.bind Resource.err = a.resource.bind Resource.err) : openStatus a' = openStatus a := by
  simp only [openStatus, h1, h2, h3]

theorem inv_callerStep {a a' : ArchiveState} {pc pc' : CallerPc} (hi : Inv a)
    (h : CallerStep (a, pc) (a', pc')) : Inv a' := by
  cases h with
  | setURL => exact ⟨hi.launches, hi.idle, hi.done, hi.fresh, hi.indexing, hi.complete⟩
  | onceFirst ho =>
    have hr := hi.idle.mpr ho
    have h1 := hi.not_done (by simp [hr])
    exact ⟨by simp [hi.launches, ho], by simp, by simp [h1], fun _ => hi.fresh (.inl hr),
      fun _ h => by simp at h, fun h => by simp at h⟩
  | _ => exact hi

theorem archiveStep_of_done {a a' : ArchiveState} (hi : Inv a) (hd : a.done = true)
    (h : ArchiveStep a a') : a'.done = true ∧ a'.err = a.err ∧ a'.index = a.index := by
  have hf := hi.done.mp hd
  cases h <;> simp_all

/-! ### The status -/

/-- The order the status may move in: from opening anywhere, from opened to
corrupted, and nowhere else. -/
def StatusLe : ArchiveStatus → ArchiveStatus → Prop
  | .opening, _ => True
  | .opened, .opened | .opened, .corrupted | .corrupted, .corrupted | .openError, .openError => True
  | _, _ => False

theorem StatusLe.refl : ∀ st, StatusLe st st
  | .opening | .openError | .opened | .corrupted => trivial

theorem StatusLe.trans : ∀ {x y z}, StatusLe x y → StatusLe y z → StatusLe x z
  | .opening, _, _, _, _ => trivial
  | .opened, .opened, _, _, h => h
  | .opened, .corrupted, .corrupted, _, _ => trivial
  | .corrupted, .corrupted, .corrupted, _, _ => trivial
  | .openError, .openError, .openError, _, _ => trivial

theorem openStatus_opening_iff (a : ArchiveState) : (openStatus a).1 = .opening ↔ a.done = false := by
  unfold openStatus
  cases a.done <;> simp only [Bool.false_eq_true, ↓reduceIte, true_iff, Bool.true_eq_false, iff_false]
  split
  · simp
  · split <;> simp

theorem openStatus_nil {a : ArchiveState} (h : (openStatus a).2 = none) (hs : (openStatus a).1 ≠ .opening) :
    a.done = true ∧ a.err = none := by
  unfold openStatus at h hs
  split_ifs at h hs with hd
  · refine ⟨hd, ?_⟩
    split at h
    · simp at h
    · assumption
  · exact absurd rfl hs

theorem callerStep_wait {a a' : ArchiveState} {pc : CallerPc} (h : CallerStep (a, pc) (a', .wait)) :
    a'.once = true := by
  cases h <;> simp_all

/-- How a caller returns: from the status check, with the status's error, or
from waiting, with `a.err` after `a.done` or with its context's error. -/
theorem callerStep_returned {a a' : ArchiveState} {pc : CallerPc} {r : Option String}
    (h : CallerStep (a, pc) (a', .returned r)) :
    (∃ url, pc = .status url ∧ (openStatus a).1 ≠ .opening ∧ r = (openStatus a).2) ∨
      (pc = .wait ∧ ((a.done = true ∧ r = a.err) ∨ ∃ e : CtxErr, r = some e.message)) := by
  cases h with
  | statusReturn hs => exact .inl ⟨_, rfl, hs, rfl⟩
  | waitDone hd => exact .inr ⟨rfl, .inl ⟨hd, rfl⟩⟩
  | waitCtx e => exact .inr ⟨rfl, .inr ⟨e, rfl⟩⟩

/-! ### The callers -/

/-- What holds of an archive and its callers in every reachable state. -/
structure SysInv (s : OpenSys) : Prop where
  archive : Inv s.a
  started : ∀ i, (s.callers i = .wait ∨ ∃ r, s.callers i = .returned r) → s.a.once = true
  returnedNil : ∀ i, s.callers i = .returned none → s.a.done = true ∧ s.a.err = none

theorem sysInv_init : SysInv OpenSys.init :=
  ⟨inv_init, fun _ h => by simp [OpenSys.init] at h, fun _ h => by simp [OpenSys.init] at h⟩

theorem sysInv_step {s s' : OpenSys} (hi : SysInv s) (h : Step s s') : SysInv s' := by
  cases h with
  | call i url hidle =>
    refine ⟨hi.archive, fun j hj => ?_, fun j hj => ?_⟩
    · by_cases hji : j = i
      · subst hji; simp at hj
      · exact hi.started j (by simpa [Function.update_noteq hji] using hj)
    · by_cases hji : j = i
      · subst hji; simp at hj
      · exact hi.returnedNil j (by simpa [Function.update_noteq hji] using hj)
  | @caller a pc i hc =>
    obtain ⟨hd, he, -, -, -, ho⟩ := callerStep_frame hc
    have hdone : (openStatus s.a).1 ≠ .opening → s.a.once = true := fun hs =>
      hi.archive.once_true (by simp [hi.archive.done.mp (by simpa [openStatus_opening_iff] using hs)])
    refine ⟨inv_callerStep hi.archive hc, fun j hj => ?_, fun j hj => ?_⟩
    · by_cases hji : j = i
      · subst hji
        simp only [Function.update_same] at hj
        rcases hj with rfl | ⟨r, rfl⟩
        · exact callerStep_wait hc
        · rcases callerStep_returned hc with ⟨url, -, hs, -⟩ | ⟨hw, -⟩
          · exact ho (hdone hs)
          · exact ho (hi.started j (.inl hw))
      · exact ho (hi.started j (by simpa [Function.update_noteq hji] using hj))
    · by_cases hji : j = i
      · subst hji
        simp only [Function.update_same] at hj
        subst hj
        rw [hd, he]
        rcases callerStep_returned hc with ⟨url, -, hs, hr⟩ | ⟨-, ⟨hdn, hr⟩ | ⟨e, he'⟩⟩
        · exact openStatus_nil hr.symm hs
        · exact ⟨hdn, hr.symm⟩
        · cases he'
      · rw [hd, he]; exact hi.returnedNil j (by simpa [Function.update_noteq hji] using hj)
  | @archive a ha =>
    refine ⟨inv_archiveStep hi.archive ha, fun j hj => ?_, fun j hj => ?_⟩
    · have := hi.started j hj
      cases ha <;> simpa
    · obtain ⟨h1, h2, -⟩ := archiveStep_of_done hi.archive (hi.returnedNil j hj).1 ha
      exact ⟨h1, h2.trans (hi.returnedNil j hj).2⟩

/-! ### Along a run -/

/-- A step moves the status only forward, and keeps an open error's error. -/
theorem status_step {s s' : OpenSys} (hi : SysInv s) (h : Step s s') :
    StatusLe (openStatus s.a).1 (openStatus s'.a).1 ∧
      ((openStatus s.a).1 = .openError → openStatus s'.a = openStatus s.a) := by
  cases h with
  | call => exact ⟨StatusLe.refl _, fun _ => rfl⟩
  | caller i hc =>
    obtain ⟨hd, he, -, -, hr, -⟩ := callerStep_frame hc
    rw [openStatus_congr hd he hr]
    exact ⟨StatusLe.refl _, fun _ => rfl⟩
  | @archive a ha =>
    cases hdone : s.a.done
    · have : (openStatus s.a).1 = .opening := (openStatus_opening_iff _).mpr hdone
      simp only [this]
      exact ⟨trivial, fun h => by cases h⟩
    · have hf := hi.archive.done.mp hdone
      cases ha with
      | resourceFail e =>
        simp only [openStatus, hdone, ↓reduceIte]
        rcases s.a.err with _ | e'
        · rcases s.a.resource with _ | ⟨u, _ | e''⟩ <;> simp [StatusLe]
        · simp [StatusLe.refl]
      | _ => simp_all

theorem index_step_of_done {s s' : OpenSys} (hi : SysInv s) (h : Step s s') (hd : s.a.done = true) :
    s'.a.done = true ∧ s'.a.err = s.a.err ∧ s'.a.index = s.a.index := by
  cases h with
  | call => exact ⟨hd, rfl, rfl⟩
  | caller i hc =>
    obtain ⟨h1, h2, h3, -⟩ := callerStep_frame hc
    exact ⟨h1.trans hd, h2, h3⟩
  | archive ha => exact archiveStep_of_done hi.archive hd ha

/-- A call not yet made when the parse ended with `e`, and every state of it
afterwards: it has not passed its status check, or it returned `e`. -/
def AfterError (e : String) (i : Nat) (s : OpenSys) : Prop :=
  s.a.done = true ∧ s.a.err = some e ∧
    (s.callers i = .idle ∨ (∃ u, s.callers i = .start u) ∨ (∃ u, s.callers i = .status u) ∨
      s.callers i = .returned (some e))

theorem afterError_step {e : String} {i : Nat} {s s' : OpenSys} (hi : SysInv s) (h : Step s s')
    (ha : AfterError e i s) : AfterError e i s' := by
  obtain ⟨hd, he, hpc⟩ := ha
  obtain ⟨hd', he', -⟩ := index_step_of_done hi h hd
  refine ⟨hd', he'.trans he, ?_⟩
  cases h with
  | call j url hidle =>
    by_cases hji : i = j
    · subst hji; simp
    · simpa [Function.update_noteq hji] using hpc
  | @caller a pc j hc =>
    by_cases hji : i = j
    · subst hji
      simp only [Function.update_same]
      rcases hpc with hpc | ⟨u, hpc⟩ | ⟨u, hpc⟩ | hpc <;> rw [hpc] at hc
      · cases hc
      · cases hc; exact .inr (.inr (.inl ⟨u, rfl⟩))
      · cases hc with
        | statusReturn _ => simp [openStatus, hd, he]
        | statusOpening hs => simp [openStatus, hd, he] at hs
      · cases hc
    · simpa [Function.update_noteq hji] using hpc
  | archive => exact hpc

/-- The states an archive and its callers reach from `OpenSys.init`. -/
def Reachable (s : OpenSys) : Prop := Relation.ReflTransGen Step OpenSys.init s

theorem sysInv_of_reachable {s : OpenSys} (h : Reachable s) : SysInv s := by
  induction h with
  | refl => exact sysInv_init
  | tail _ hst ih => exact sysInv_step ih hst

/-- Along a run from a reachable state: the status moves only forward, an open
error keeps its error, `done`, `err` and the index stay once `a.done` is
closed, and a call made after an error keeps to it. -/
theorem run_from {s s' : OpenSys} (hs : Reachable s) (h : Relation.ReflTransGen Step s s') :
    StatusLe (openStatus s.a).1 (openStatus s'.a).1 ∧
      ((openStatus s.a).1 = .openError → openStatus s'.a = openStatus s.a) ∧
      (s.a.done = true → s'.a.done = true ∧ s'.a.err = s.a.err ∧ s'.a.index = s.a.index) ∧
      ∀ e i, AfterError e i s → AfterError e i s' := by
  induction h with
  | refl => exact ⟨StatusLe.refl _, fun _ => rfl, fun hd => ⟨hd, rfl, rfl⟩, fun _ _ h => h⟩
  | @tail b c hsb hbc ih =>
    have hib := sysInv_of_reachable (hs.trans hsb)
    obtain ⟨ih1, ih2, ih3, ih4⟩ := ih
    obtain ⟨h1, h2⟩ := status_step hib hbc
    refine ⟨ih1.trans h1, fun h => (h2 (by rw [ih2 h]; exact h)).trans (ih2 h), fun hd => ?_,
      fun e i ha => afterError_step hib hbc (ih4 e i ha)⟩
    obtain ⟨hbd, hbe, hbi⟩ := ih3 hd
    obtain ⟨hcd, hce, hci⟩ := index_step_of_done hib hbc hbd
    exact ⟨hcd, hce.trans hbe, hci.trans hbi⟩

/-! ### A successful open

With a store that answers and an archive that parses, `readArchive` runs to
its end. -/

theorem index_run (a : ArchiveState) (rest : List File) :
    Relation.ReflTransGen ArchiveStep { a with reader := .indexing rest }
      { a with index := rest.foldl Archive.indexFile a.index, reader := .indexing [] } := by
  induction rest generalizing a with
  | nil => exact .refl
  | cons f rest ih => exact .head (ArchiveStep.index rfl) (ih { a with index := a.index.indexFile f })

/-- `readArchive` with a resource that opens and files that parse. -/
theorem readArchive_run (a : ArchiveState) (url : String) (files : List File) :
    Relation.ReflTransGen ArchiveStep { a with reader := .newResource url }
      { a with
        resource := some ⟨url, none⟩
        err := none
        archiveFiles := some []
        parsed := files
        index := files.foldl Archive.indexFile { a.index with publicDirectoryName := guessPublicDirectoryName files }
        done := true
        reader := .finished } :=
  .head (ArchiveStep.newResourceOk rfl) <| .head (ArchiveStep.parseOk files rfl) <|
    ((index_run { a with
        resource := some ⟨url, none⟩
        err := none
        archiveFiles := some files
        parsed := files
        index := { a.index with publicDirectoryName := guessPublicDirectoryName files } } files).tail
      (ArchiveStep.recycle rfl)).tail (ArchiveStep.close rfl)

/-- The archive a first, successful open leaves: `readArchive` started once,
every file indexed. -/
def ArchiveState.opened (url : String) (files : List File) : ArchiveState :=
  { ArchiveState.init with
    once := true
    launches := 1
    resource := some ⟨url, none⟩
    archiveFiles := some []
    parsed := files
    index := readArchiveIndex files
    done := true
    reader := .finished }

theorem step_caller {s : OpenSys} (i : Nat) {pc : CallerPc} {a : ArchiveState} {pc' : CallerPc}
    (hpc : s.callers i = pc) (h : CallerStep (s.a, pc) (a, pc')) :
    Step s ⟨a, Function.update s.callers i pc'⟩ :=
  Step.caller i (hpc ▸ h)

theorem archive_run {s : OpenSys} {a : ArchiveState} (h : Relation.ReflTransGen ArchiveStep s.a a) :
    Relation.ReflTransGen Step s { s with a := a } := by
  induction h with
  | refl => exact .refl
  | tail _ hst ih => exact ih.tail (Step.archive hst)

/-- **A first call opens the archive.** On a fresh archive, a call whose store
answers and whose archive parses starts `readArchive`, which indexes every
file, and returns `nil`. -/
theorem open_first_call_run (i : Nat) (url : String) (files : List File) :
    Reachable ⟨ArchiveState.opened url files, Function.update (fun _ => .idle) i (.returned none)⟩ := by
  have h₁ := Relation.ReflTransGen.single (Step.call (s := OpenSys.init) i url rfl)
  have h₂ := h₁.tail (step_caller i (by simp) (@CallerStep.setURL _ url))
  have h₃ := (h₂.tail (step_caller i (by simp) (@CallerStep.statusOpening _ url (by rfl)))).tail
    (step_caller i (by simp) (@CallerStep.onceFirst _ url (by rfl)))
  have h₄ := h₃.trans (archive_run (readArchive_run { ArchiveState.init with once := true, launches := 1 } url files))
  have h₅ := h₄.tail (step_caller i (by simp) (CallerStep.waitDone (by rfl)))
  simpa [Function.update_idem] using h₅

/-! ### Over every run -/

/-- **Opening an archive, over every run.** In every reachable state:
`readArchive` has started at most once, and has started once any call waits
or has returned; a call that returned `nil` did so after `readArchive`
finished with no error, every parsed entry indexed. And along every run from
there: the status moves only forward (opening, then open error; or opening,
opened, corrupted), an open error keeps its error, the index no longer
changes once `a.done` is closed, and a call not yet made when the parse ended
with `e` returns `e`. -/
theorem open_archive_runs (s : OpenSys) (hs : Reachable s) :
    s.a.launches ≤ 1 ∧
      (∀ i, (s.callers i = .wait ∨ ∃ r, s.callers i = .returned r) → s.a.launches = 1) ∧
      (∀ i, s.callers i = .returned none →
        s.a.reader = .finished ∧ s.a.err = none ∧ s.a.index = readArchiveIndex s.a.parsed) ∧
      ∀ s', Relation.ReflTransGen Step s s' →
        StatusLe (openStatus s.a).1 (openStatus s'.a).1 ∧
        ((openStatus s.a).1 = .openError → openStatus s'.a = openStatus s.a) ∧
        (s.a.done = true → s'.a.index = s.a.index) ∧
        ∀ e i, s.a.done = true → s.a.err = some e → s.callers i = .idle →
          ∀ r, s'.callers i = .returned r → r = some e := by
  have hi := sysInv_of_reachable hs
  refine ⟨by rw [hi.archive.launches]; split <;> omega,
    fun i h => by rw [hi.archive.launches, hi.started i h]; rfl,
    fun i h => ?_, fun s' hss' => ?_⟩
  · obtain ⟨hd, he⟩ := hi.returnedNil i h
    have hf := hi.archive.done.mp hd
    exact ⟨hf, he, hi.archive.complete (.inr hf) he⟩
  · obtain ⟨h1, h2, h3, h4⟩ := run_from hs hss'
    refine ⟨h1, h2, fun hd => (h3 hd).2.2, fun e i hd he hidle r hr => ?_⟩
    obtain ⟨-, -, hpc⟩ := h4 e i ⟨hd, he, .inl hidle⟩
    rw [hr] at hpc
    rcases hpc with h | ⟨_, h⟩ | ⟨_, h⟩ | h <;> cases h
    rfl

/-- A call that opens `public.zip`, holding `public/a/b/c.html`, returns `nil`
with `readArchive` finished, no error and every entry indexed. -/
theorem open_archive_runs_opened :
    Reachable ⟨ArchiveState.opened "http://store/public.zip" deepPage,
        Function.update (fun _ => .idle) 0 (.returned none)⟩ ∧
      (ArchiveState.opened "http://store/public.zip" deepPage).reader = .finished ∧
      (ArchiveState.opened "http://store/public.zip" deepPage).err = none ∧
      (ArchiveState.opened "http://store/public.zip" deepPage).index = readArchiveIndex deepPage :=
  have h := open_first_call_run 0 "http://store/public.zip" deepPage
  ⟨h, (open_archive_runs _ h).2.2.1 0 rfl⟩

end Zip
end GitlabPages
