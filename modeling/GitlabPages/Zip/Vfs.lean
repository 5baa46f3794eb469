import GitlabPages.Zip.Open
import GitlabPages.Url

/-!
# The archive cache: `zipVFS.Root`

`internal/vfs/zip/vfs.go`. `Root` parses the URL and looks up its string
form in the archive cache, under `cacheMu`: on a miss (or an expired entry) it
makes a new archive and caches it, on a hit it takes the cached one; then,
still holding `cacheMu` (it is released by a `defer`), it runs the archive's
`openArchive` and waits there until the archive is open or the caller's
context ends.

Each `Root` call is a thread (`RootPc`); the archives are the machines of
`Zip.Open`, their own steps interleaved with the threads' (`VfsStep.archive`).
Entries of the cache expire and are evicted at any time. `vfs.go` calls
`newArchive(fs, path, timeout)` and `openArchive(ctx)`, where `archive.go`
has `newArchive(fs, timeout)` and `openArchive(ctx, url)`: the model passes
the key, the one URL the call has, as `url`.

From any state where the lock is free, a `Root` call for a key with no live
entry makes, caches and opens a new archive (`root_miss_run`). Two things
follow. The cache key is `url.Parse(u).String()`, which keeps the query: two
URLs that differ only in their query string are two entries, two archives and
two parses (`root_query_second_archive`). And every thread inside
`openArchive` holds `cacheMu` (`cacheMu_held_while_opening`): a `Root` call
waiting for a slow archive keeps every other `Root` call waiting for the lock
(`lock_waits_while_locked`), even one for an archive that is already open
(`root_blocked_by_other_open`).

Key definitions: `RootPc`, `VfsState`, `rootKey`, `VfsStep`.
Key theorems: `cacheMu_held_while_opening`, `root_miss_run`,
`root_query_second_archive`, `lock_waits_while_locked`,
`root_blocked_by_other_open`.
-/

namespace GitlabPages
namespace Zip

/-- Where a `Root` call is. Inside `openArchive` it is `opening` with the
archive's id and the call's place in `openArchive`. -/
inductive RootPc
  | idle
  | start (path : String)
  | lock (key : String)
  | lookup (key : String)
  | opening (key : String) (id : Nat) (pc : CallerPc)
  | returned (r : Except String Nat)
  deriving DecidableEq, Repr

/-- A cache entry (`ccache.Item`): the archive and whether it has expired. -/
structure CacheItem where
  archive : Nat
  expired : Bool
  deriving DecidableEq, Repr

/-- The `zipVFS` with its `Root` calls: the holder of `cacheMu`, the cache, the
archives made so far (by id), and the calls. -/
structure VfsState where
  cacheMu : Option Nat
  cache : String → Option CacheItem
  archives : List ArchiveState
  threads : Nat → RootPc

/-- `New()`: an empty cache and no call. -/
def VfsState.init : VfsState := ⟨none, fun _ => none, [], fun _ => .idle⟩

/-- The archive with id `id`. -/
def VfsState.archive (s : VfsState) (id : Nat) : ArchiveState := s.archives.getD id .init

/-- The key `Root` caches an archive under: `url.Parse(path).String()`. -/
def rootKey (path : String) : Except String String := (urlParse path).map URL.toString

/-- The steps of the `zipVFS`. -/
inductive VfsStep : VfsState → VfsState → Prop
  | call {s : VfsState} (i : Nat) (path : String) : s.threads i = .idle →
      VfsStep s { s with threads := Function.update s.threads i (.start path) }
  | parseErr {s : VfsState} {i : Nat} {path e : String} : s.threads i = .start path →
      rootKey path = .error e →
      VfsStep s { s with threads := Function.update s.threads i (.returned (.error e)) }
  | parseOk {s : VfsState} {i : Nat} {path key : String} : s.threads i = .start path →
      rootKey path = .ok key →
      VfsStep s { s with threads := Function.update s.threads i (.lock key) }
  | lock {s : VfsState} {i : Nat} {key : String} : s.threads i = .lock key → s.cacheMu = none →
      VfsStep s { s with cacheMu := some i, threads := Function.update s.threads i (.lookup key) }
  | hit {s : VfsState} {i : Nat} {key : String} {item : CacheItem} : s.threads i = .lookup key →
      s.cache key = some item → item.expired = false →
      VfsStep s { s with threads := Function.update s.threads i (.opening key item.archive (.start key)) }
  | miss {s : VfsState} {i : Nat} {key : String} : s.threads i = .lookup key →
      (∀ item, s.cache key = some item → item.expired = true) →
      VfsStep s { s with
        cache := Function.update s.cache key (some ⟨s.archives.length, false⟩)
        archives := s.archives ++ [.init]
        threads := Function.update s.threads i (.opening key s.archives.length (.start key)) }
  | openArchive {s : VfsState} {i id : Nat} {key : String} {pc pc' : CallerPc} {a : ArchiveState} :
      s.threads i = .opening key id pc → CallerStep (s.archive id, pc) (a, pc') →
      VfsStep s { s with
        archives := s.archives.set id a
        threads := Function.update s.threads i (.opening key id pc') }
  | finish {s : VfsState} {i id : Nat} {key : String} {r : Option String} :
      s.threads i = .opening key id (.returned r) →
      VfsStep s { s with
        cacheMu := none
        threads := Function.update s.threads i (.returned (match r with | none => .ok id | some e => .error e)) }
  | archive {s : VfsState} {id : Nat} {a : ArchiveState} : ArchiveStep (s.archive id) a →
      VfsStep s { s with archives := s.archives.set id a }
  | expire {s : VfsState} {key : String} {item : CacheItem} : s.cache key = some item →
      VfsStep s { s with cache := Function.update s.cache key (some { item with expired := true }) }
  | evict {s : VfsState} (key : String) : VfsStep s { s with cache := Function.update s.cache key none }

/-- The states the `zipVFS` reaches from `New()`. -/
def VfsReachable (s : VfsState) : Prop := Relation.ReflTransGen VfsStep VfsState.init s

/-- A call is inside `findOrOpenArchive`, past its `Lock`. -/
def RootPc.locked : RootPc → Bool
  | .lookup _ | .opening _ _ _ => true
  | _ => false

/-- The lock's invariant: a call past its `Lock` holds `cacheMu`, and only
one call holds it. -/
def LockInv (s : VfsState) : Prop :=
  ∀ i, (s.threads i).locked = true → s.cacheMu = some i

theorem lockInv_init : LockInv VfsState.init := fun _ h => by simp [VfsState.init, RootPc.locked] at h

theorem lockInv_step {s s' : VfsState} (hi : LockInv s) (h : VfsStep s s') : LockInv s' := by
  intro j hj
  cases h
  case archive | expire | evict => exact hi j hj
  case lock i key hpc hfree =>
    by_cases hji : j = i
    · subst hji; rfl
    · cases hfree ▸ hi j (by simpa [Function.update_noteq hji] using hj)
  case finish i id key r hpc =>
    by_cases hji : j = i
    · subst hji; simp [RootPc.locked] at hj
    · cases hi j (by simpa [Function.update_noteq hji] using hj) ▸ hi i (by simp [hpc, RootPc.locked])
      exact absurd rfl hji
  -- The other steps move one call, keep `cacheMu`, and leave the call
  -- unlocked or move it from one locked place to another.
  all_goals
    simp only [Function.update_apply] at hj
    split_ifs at hj with hji
    · subst hji
      first | (simp [RootPc.locked] at hj; done) | exact hi _ (by simp [*, RootPc.locked])
    · exact hi j hj

theorem lockInv_of_reachable {s : VfsState} (hs : VfsReachable s) : LockInv s := by
  induction hs with
  | refl => exact lockInv_init
  | tail _ hst ih => exact lockInv_step ih hst

/-- **`cacheMu` is held across `openArchive`.** In every reachable state, a
`Root` call inside `openArchive` of some archive, waiting there or not,
holds `cacheMu`. -/
theorem cacheMu_held_while_opening {s : VfsState} (hs : VfsReachable s) {i id : Nat} {key : String}
    {pc : CallerPc} (h : s.threads i = .opening key id pc) : s.cacheMu = some i :=
  lockInv_of_reachable hs i (by simp [h, RootPc.locked])

/-- A first `Root` call, just past its cache miss, holds `cacheMu`. -/
theorem cacheMu_held_while_opening_miss :
    ∃ s, VfsReachable s ∧ s.threads 0 = .opening "http://store/a.zip" 0 (.start "http://store/a.zip") ∧
      s.cacheMu = some 0 :=
  have h : VfsReachable _ := (((Relation.ReflTransGen.refl.tail (VfsStep.call 0 "http://store/a.zip" rfl)).tail
    (@VfsStep.parseOk _ 0 _ "http://store/a.zip" rfl (by decide))).tail (@VfsStep.lock _ 0 _ rfl rfl)).tail
    (@VfsStep.miss _ 0 _ rfl (fun _ h => by cases h))
  ⟨_, h, rfl, cacheMu_held_while_opening h rfl⟩

/-! ### Runs of one `Root` call

The newest archive is the last of `archives`; its steps, and those of a call
opening it, are steps of the `zipVFS`. -/

theorem VfsState.archive_of_eq {s : VfsState} {l : List ArchiveState} {a : ArchiveState}
    (hl : s.archives = l ++ [a]) : s.archive l.length = a := by
  simp [VfsState.archive, hl]

theorem VfsState.set_last {s : VfsState} {l : List ArchiveState} {a : ArchiveState} (a' : ArchiveState)
    (hl : s.archives = l ++ [a]) : s.archives.set l.length a' = l ++ [a'] := by
  simp [hl]

theorem vfsStep_archive_last {s : VfsState} {l : List ArchiveState} {a a' : ArchiveState}
    (hl : s.archives = l ++ [a]) (h : ArchiveStep a a') : VfsStep s { s with archives := l ++ [a'] } := by
  rw [← VfsState.set_last a' hl]
  exact VfsStep.archive (by rwa [VfsState.archive_of_eq hl])

theorem vfs_archive_run_last {s : VfsState} {l : List ArchiveState} {a a' : ArchiveState}
    (hl : s.archives = l ++ [a]) (h : Relation.ReflTransGen ArchiveStep a a') :
    Relation.ReflTransGen VfsStep s { s with archives := l ++ [a'] } := by
  induction h with
  | refl => rw [← hl]
  | tail _ hst ih => exact ih.tail (vfsStep_archive_last rfl hst)

theorem vfsStep_open_last {s : VfsState} (i : Nat) (key : String) {l : List ArchiveState}
    {a a' : ArchiveState} {pc pc' : CallerPc} (hl : s.archives = l ++ [a])
    (hpc : s.threads i = .opening key l.length pc) (h : CallerStep (a, pc) (a', pc')) :
    VfsStep s { s with
      archives := l ++ [a']
      threads := Function.update s.threads i (.opening key l.length pc') } := by
  rw [← VfsState.set_last a' hl]
  exact VfsStep.openArchive hpc (by rwa [VfsState.archive_of_eq hl])

/-- **`Root` of an uncached key.** From any state where the lock is free and
the key has no live entry, a `Root` call makes a new archive, caches it, runs
its `readArchive` to the end (whatever files the archive holds) and returns
it. -/
theorem root_miss_run {s : VfsState} (i : Nat) {path key : String} (files : List File)
    (hidle : s.threads i = .idle) (hfree : s.cacheMu = none) (hkey : rootKey path = .ok key)
    (hnew : ∀ item, s.cache key = some item → item.expired = true) :
    Relation.ReflTransGen VfsStep s { s with
      cache := Function.update s.cache key (some ⟨s.archives.length, false⟩)
      archives := s.archives ++ [ArchiveState.opened key files]
      threads := Function.update s.threads i (.returned (.ok s.archives.length)) } := by
  have h4 : Relation.ReflTransGen VfsStep s _ :=
    (((Relation.ReflTransGen.refl.tail (VfsStep.call i path hidle)).tail
      (@VfsStep.parseOk _ i path key (by simp) hkey)).tail (@VfsStep.lock _ i key (by simp) hfree)).tail
      (@VfsStep.miss _ i key (by simp) hnew)
  have h7 := ((h4.tail (vfsStep_open_last i key rfl (by simp) (@CallerStep.setURL _ key))).tail
    (vfsStep_open_last i key rfl (by simp) (@CallerStep.statusOpening _ key rfl))).tail
    (vfsStep_open_last i key rfl (by simp) (@CallerStep.onceFirst _ key rfl))
  have h8 := h7.trans
    (vfs_archive_run_last rfl (readArchive_run { ArchiveState.init with once := true, launches := 1 } key files))
  have h10 := (h8.tail (vfsStep_open_last i key rfl (by simp) (CallerStep.waitDone rfl))).tail
    (@VfsStep.finish _ i s.archives.length key none (by simp))
  simpa [Function.update_idem, hfree] using h10

/-! ### The cache key keeps the query -/

theorem rootKey_rawQuery_ne {u₁ u₂ : String} {p : URL} {q : String} (h₁ : urlParse u₁ = .ok p)
    (h₂ : urlParse u₂ = .ok { p with rawQuery := q }) (hq : q ≠ p.rawQuery) : rootKey u₁ ≠ rootKey u₂ := by
  simp only [rootKey, h₁, h₂, Except.map, ne_eq, Except.ok.injEq]
  exact fun h => hq (URL.toString_rawQuery h.symm)

/-- **A re-signed URL opens a second archive.** For any two URLs that differ
only in their query, the keys differ; and after `Root(u₁)` has returned
archive `0`, a later `Root(u₂)` returns archive `1`, for which a second
`readArchive` has run, while the entry of `u₁` is still live. -/
theorem root_query_second_archive {u₁ u₂ : String} {p : URL} {q : String} (h₁ : urlParse u₁ = .ok p)
    (h₂ : urlParse u₂ = .ok { p with rawQuery := q }) (hq : q ≠ p.rawQuery) :
    rootKey u₁ ≠ rootKey u₂ ∧
      ∃ s₁ s₂, VfsReachable s₁ ∧ s₁.threads 0 = .returned (.ok 0) ∧ s₁.threads 1 = .idle ∧
        Relation.ReflTransGen VfsStep s₁ s₂ ∧ s₂.threads 1 = .returned (.ok 1) ∧
        s₂.cache p.toString = some ⟨0, false⟩ ∧ (s₂.archive 0).launches = 1 ∧ (s₂.archive 1).launches = 1 := by
  have hk₁ : rootKey u₁ = .ok p.toString := by simp [rootKey, h₁, Except.map]
  have hk₂ : rootKey u₂ = .ok { p with rawQuery := q }.toString := by simp [rootKey, h₂, Except.map]
  have hne : { p with rawQuery := q }.toString ≠ p.toString := fun h => hq (URL.toString_rawQuery h)
  refine ⟨rootKey_rawQuery_ne h₁ h₂ hq, _, _, root_miss_run 0 [] rfl rfl hk₁ (fun _ h => by cases h), by simp [VfsState.init],
    by simp [VfsState.init], root_miss_run 1 [] (by simp [VfsState.init]) rfl hk₂ ?_, ?_, ?_, ?_, ?_⟩
  · simp [Function.update_noteq hne, VfsState.init]
  all_goals simp [Function.update_noteq hne.symm, VfsState.init, VfsState.archive, ArchiveState.opened]

/-- The URLs of `TestVFSArchiveRefresh`, signed with `secret1` and `secret2`. -/
theorem root_query_second_archive_secrets :
    urlParse "http://store/public.zip?secret1" = .ok ⟨"http", "", none, "store", "/public.zip", false, "secret1", ""⟩ ∧
      urlParse "http://store/public.zip?secret2" = .ok ⟨"http", "", none, "store", "/public.zip", false, "secret2", ""⟩ ∧
      (rootKey "http://store/public.zip?secret1" ≠ rootKey "http://store/public.zip?secret2" ∧
        ∃ s₁ s₂, VfsReachable s₁ ∧ s₁.threads 0 = .returned (.ok 0) ∧ s₁.threads 1 = .idle ∧
          Relation.ReflTransGen VfsStep s₁ s₂ ∧ s₂.threads 1 = .returned (.ok 1) ∧
          s₂.cache "http://store/public.zip?secret1" = some ⟨0, false⟩ ∧ (s₂.archive 0).launches = 1 ∧
          (s₂.archive 1).launches = 1) :=
  ⟨by decide, by decide, @root_query_second_archive "http://store/public.zip?secret1" "http://store/public.zip?secret2"
    ⟨"http", "", none, "store", "/public.zip", false, "secret1", ""⟩ "secret2" (by decide) (by decide) (by decide)⟩

/-! ### The lock across `openArchive` -/

theorem lock_step_blocked {s s' : VfsState} {i j : Nat} {key : String} (hmu : s.cacheMu = some j)
    (hi : s.threads i = .lock key) (h : VfsStep s s') : s'.threads i = .lock key := by
  cases h
  case archive | expire | evict => exact hi
  all_goals
    refine (Function.update_noteq ?_ _ _).trans hi
    rintro rfl
    simp_all

/-- While call `j` stays past its `Lock`, a call `i` waiting for the lock stays
there, whatever else runs. -/
theorem lock_waits_while_locked {s s' : VfsState} {i j : Nat} {key : String} (hs : VfsReachable s)
    (hj : (s.threads j).locked = true) (hi : s.threads i = .lock key)
    (h : Relation.ReflTransGen (fun a b => VfsStep a b ∧ (b.threads j).locked = true) s s') :
    s'.threads i = .lock key := by
  suffices VfsReachable s' ∧ (s'.threads j).locked = true ∧ s'.threads i = .lock key from this.2.2
  induction h with
  | refl => exact ⟨hs, hj, hi⟩
  | tail _ hab ih =>
    exact ⟨ih.1.tail hab.1, hab.2, lock_step_blocked (lockInv_of_reachable ih.1 j ih.2.1) ih.2.2 hab.1⟩

/-- **A slow open blocks every `Root` call.** A reachable state where call `1`
waits inside `openArchive` for an archive that is still opening, and holds
`cacheMu`, while call `2` asks for an archive that is cached and open: for as
long as call `1` waits, call `2` waits for the lock. -/
theorem root_blocked_by_other_open :
    ∃ s, VfsReachable s ∧ s.threads 1 = .opening "http://store/b.zip" 1 .wait ∧ (s.archive 1).done = false ∧
      s.cacheMu = some 1 ∧ s.threads 2 = .lock "http://store/a.zip" ∧
      s.cache "http://store/a.zip" = some ⟨0, false⟩ ∧ (openStatus (s.archive 0)).1 = .opened ∧
      ∀ s', Relation.ReflTransGen (fun a b => VfsStep a b ∧ (b.threads 1).locked = true) s s' →
        s'.threads 2 = .lock "http://store/a.zip" := by
  have h₀ : VfsReachable _ := root_miss_run 0 [] rfl rfl (by decide : rootKey "http://store/a.zip" = .ok "http://store/a.zip")
    (fun _ h => by cases h)
  have h₁ := (((h₀.tail (VfsStep.call 1 "http://store/b.zip" rfl)).tail
    (@VfsStep.parseOk _ 1 _ "http://store/b.zip" rfl (by decide))).tail (@VfsStep.lock _ 1 _ rfl rfl)).tail
    (@VfsStep.miss _ 1 _ rfl (fun _ h => by cases h))
  have h₂ := ((h₁.tail (vfsStep_open_last 1 "http://store/b.zip" rfl rfl CallerStep.setURL)).tail
    (vfsStep_open_last 1 "http://store/b.zip" rfl rfl (CallerStep.statusOpening rfl))).tail
    (vfsStep_open_last 1 "http://store/b.zip" rfl rfl (CallerStep.onceFirst rfl))
  have h₃ := (h₂.tail (VfsStep.call 2 "http://store/a.zip" rfl)).tail
    (@VfsStep.parseOk _ 2 _ "http://store/a.zip" rfl (by decide))
  exact ⟨_, h₃, rfl, rfl, rfl, rfl, rfl, rfl, fun _ h => lock_waits_while_locked h₃ (by rfl) (by rfl) h⟩

end Zip
end GitlabPages
