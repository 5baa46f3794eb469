import GitlabPages.Zip.Vfs
import GitlabPages.Url.RoundTrip

/-!
# The archive cache over every interleaving

`internal/vfs/zip/vfs.go` with `internal/vfs/zip/archive.go`. `Zip.Open`
follows one archive and its callers; `Zip.Vfs` puts the archives under the
cache and the `Root` calls, with `cacheMu` held across `openArchive`. Here the
invariant `Inv` of one archive is lifted to every archive the `zipVFS` has
made, together with what ties the cache and the calls to them (`VfsInv`), and
kept by every step: a call's, an archive's own, an expiry or an eviction, in
any order (`vfsInv_step`).

In every reachable state (`root_archive_sound`): each archive has started
`readArchive` at most once; no two keys share an archive; the archive cached
under a key reads that key's URL and no other (`FetchesKey`); and an archive a
`Root` call returned without error has finished `readArchive` without error,
every parsed entry indexed, and keeps that index along every later run
(`archive_run_of_done`).

The key is `url.Parse(path).String()`, and the archive fetches the key, not
the path: for a path of `plainChar`s, on which the model prints as Go does,
the two name the same URL, the key is its own key and is plain again
(`rootKey_names_path_url`, from the round trip of `Url.RoundTrip`).

Key definitions: `FetchesKey`, `OpeningInv`, `VfsInv`.
Key theorems: `vfsInv_step`, `vfsInv_of_reachable`, `archive_run_of_done`,
`root_archive_sound`, `rootKey_names_path_url`.
-/

namespace GitlabPages
namespace Zip

/-! ### Archives by id -/

@[simp]
theorem archive_append_init (l : List ArchiveState) (id : Nat) :
    (l ++ [ArchiveState.init]).getD id .init = l.getD id .init := by
  rcases Nat.lt_or_ge id l.length with h | h
  · simp [List.getElem?_append_left h]
  · rw [List.getD_eq_getElem?_getD, List.getElem?_append_right h, List.getD_eq_getElem?_getD,
      List.getElem?_eq_none h]
    cases id - l.length <;> simp

@[simp]
theorem archive_set (l : List ArchiveState) (id j : Nat) (a : ArchiveState) :
    (l.set id a).getD j .init = if j = id ∧ id < l.length then a else l.getD j .init := by
  simp only [List.getD_eq_getElem?_getD, List.getElem?_set]
  by_cases hj : id = j
  · subst hj
    by_cases hl : id < l.length
    · simp [hl]
    · simp [hl, List.getElem?_eq_none (Nat.le_of_not_lt hl)]
  · simp [hj, Ne.symm hj]

theorem archive_congr {s s' : VfsState} (ha : s'.archives = s.archives) (id : Nat) :
    s'.archive id = s.archive id := by
  simp only [VfsState.archive, ha]

theorem archive_of_set {s s' : VfsState} {id : Nat} {a : ArchiveState} (ha : s'.archives = s.archives.set id a)
    (j : Nat) : (j = id ∧ s'.archive j = a) ∨ s'.archive j = s.archive j := by
  simp only [VfsState.archive, ha, archive_set]
  split_ifs with h
  exacts [.inl ⟨h.1, rfl⟩, .inr rfl]

theorem update_eq_cases {α β : Type} [DecidableEq α] {f : α → β} {i j : α} {new x : β}
    (h : Function.update f i new j = x) : (j = i ∧ new = x) ∨ (j ≠ i ∧ f j = x) := by
  by_cases hji : j = i
  · subst hji; exact .inl ⟨rfl, by simpa using h⟩
  · exact .inr ⟨hji, by rwa [Function.update_noteq hji] at h⟩

theorem LockInv.unique {s : VfsState} (hl : LockInv s) {i j : Nat} (hi : (s.threads i).locked = true)
    (hj : (s.threads j).locked = true) : j = i :=
  Option.some.inj ((hl j hj).symm.trans (hl i hi))

/-! ### The URL an archive reads -/

/-- The archive reads the object at `key`: the URL its `readArchive` is about
to fetch, and the URL its resource fetches from, are `key`. -/
def FetchesKey (key : String) (a : ArchiveState) : Prop :=
  (∀ u, a.reader = .newResource u → u = key) ∧ ∀ r, a.resource = some r → r.url = key

/-- The URL a call of `openArchive` passes on is `key`. -/
def CallerPc.urlIs (key : String) : CallerPc → Prop
  | .start u | .status u | .once u => u = key
  | _ => True

theorem fetchesKey_init (key : String) : FetchesKey key .init :=
  ⟨fun _ h => (by cases h), fun _ h => by cases h⟩

theorem fetchesKey_archiveStep {key : String} {a a' : ArchiveState} (hk : FetchesKey key a)
    (h : ArchiveStep a a') : FetchesKey key a' := by
  obtain ⟨hr, hres⟩ := hk
  cases h with
  | newResourceOk hu => exact ⟨fun _ h => (by cases h), fun r h => (by cases h; exact hr _ hu)⟩
  | resourceFail e =>
    refine ⟨hr, fun r h => ?_⟩
    obtain ⟨r₀, h₀, rfl⟩ := Option.map_eq_some'.1 h
    exact hres r₀ h₀
  | newResourceErr _ => exact ⟨fun _ h => (by cases h), fun _ h => (by cases h)⟩
  | _ => exact ⟨fun _ h => (by cases h), hres⟩

theorem fetchesKey_callerStep {key : String} {a a' : ArchiveState} {pc pc' : CallerPc}
    (hk : FetchesKey key a) (hpc : pc.urlIs key) (h : CallerStep (a, pc) (a', pc')) :
    FetchesKey key a' ∧ pc'.urlIs key := by
  obtain ⟨hr, hres⟩ := hk
  cases h with
  | setURL =>
    refine ⟨⟨hr, fun r h => ?_⟩, hpc⟩
    obtain ⟨r₀, -, rfl⟩ := Option.map_eq_some'.1 h
    exact hpc
  | statusOpening _ => exact ⟨⟨hr, hres⟩, hpc⟩
  | onceFirst _ => exact ⟨⟨fun _ h => (by cases h; exact hpc), hres⟩, trivial⟩
  | _ => exact ⟨⟨hr, hres⟩, trivial⟩

theorem callerStep_returned_none {a a' : ArchiveState} {pc : CallerPc} (h : CallerStep (a, pc) (a', .returned none)) :
    a'.done = true ∧ a'.err = none := by
  obtain ⟨hd, he, -⟩ := callerStep_frame h
  rw [hd, he]
  rcases callerStep_returned h with ⟨-, -, hs, hr⟩ | ⟨-, ⟨hdn, hr⟩ | ⟨_, hr⟩⟩
  exacts [openStatus_nil hr.symm hs, ⟨hdn, hr.symm⟩, absurd hr (Option.some_ne_none _).symm]

/-! ### The invariant -/

/-- What holds of a call inside `openArchive` of archive `id` for `key`: the
archive exists, the call passes `key` on and the archive fetches `key`, no
other key is cached with this archive, and a call about to return `nil`
found the archive read without error. -/
structure OpeningInv (s : VfsState) (key : String) (id : Nat) (pc : CallerPc) : Prop where
  lt : id < s.archives.length
  url : pc.urlIs key
  fetches : FetchesKey key (s.archive id)
  owner : ∀ k item, s.cache k = some item → item.archive = id → k = key
  returned : pc = .returned none → (s.archive id).done = true ∧ (s.archive id).err = none

theorem OpeningInv.congr {s s' : VfsState} {key : String} {id : Nat} {pc : CallerPc}
    (h : OpeningInv s key id pc) (ha : s'.archives = s.archives) (hc : s'.cache = s.cache) :
    OpeningInv s' key id pc :=
  ⟨ha ▸ h.lt, h.url, archive_congr ha id ▸ h.fetches, hc ▸ h.owner, archive_congr ha id ▸ h.returned⟩

/-- What holds of the `zipVFS` in every reachable state. -/
structure VfsInv (s : VfsState) : Prop where
  lock : LockInv s
  archives : ∀ id, Inv (s.archive id)
  cached : ∀ key item, s.cache key = some item →
    item.archive < s.archives.length ∧ FetchesKey key (s.archive item.archive)
  unique : ∀ k₁ k₂ it₁ it₂, s.cache k₁ = some it₁ → s.cache k₂ = some it₂ → it₁.archive = it₂.archive → k₁ = k₂
  opening : ∀ i key id pc, s.threads i = .opening key id pc → OpeningInv s key id pc
  returnedOk : ∀ i id, s.threads i = .returned (.ok id) → (s.archive id).done = true ∧ (s.archive id).err = none

theorem vfsInv_init : VfsInv VfsState.init where
  lock := lockInv_init
  archives _ := by simp [VfsState.archive, VfsState.init, inv_init]
  cached _ _ h := by cases h
  unique _ _ _ _ h := by cases h
  opening _ _ _ _ h := by cases h
  returnedOk _ _ h := by cases h

/-! ### One lemma per kind of step -/

theorem VfsInv.of_frame {s s' : VfsState} (hi : VfsInv s) (hl : LockInv s') (ha : s'.archives = s.archives)
    (hc : s'.cache = s.cache) (hop : ∀ j key id pc, s'.threads j = .opening key id pc → OpeningInv s key id pc)
    (hok : ∀ j id, s'.threads j = .returned (.ok id) → (s.archive id).done = true ∧ (s.archive id).err = none) :
    VfsInv s' where
  lock := hl
  archives id := archive_congr ha id ▸ hi.archives id
  cached key item h := by
    rw [hc] at h
    rw [archive_congr ha, ha]
    exact hi.cached key item h
  unique k₁ k₂ it₁ it₂ h₁ h₂ := by rw [hc] at h₁ h₂; exact hi.unique k₁ k₂ it₁ it₂ h₁ h₂
  opening j key id pc h := (hop j key id pc h).congr ha hc
  returnedOk j id h := archive_congr ha id ▸ hok j id h

theorem VfsInv.of_move {s s' : VfsState} (hi : VfsInv s) (hl : LockInv s') (ha : s'.archives = s.archives)
    (hc : s'.cache = s.cache) {i : Nat} {new : RootPc} (ht : s'.threads = Function.update s.threads i new)
    (hnew : new.locked = false ∨ ∃ key, new = .lookup key) (hnok : ∀ id, new ≠ .returned (.ok id)) : VfsInv s' := by
  refine hi.of_frame hl ha hc (fun j key id pc h => ?_) (fun j id h => ?_) <;> rw [ht] at h
  · rcases update_eq_cases h with ⟨rfl, rfl⟩ | ⟨-, h⟩
    · rcases hnew with h | ⟨_, h⟩ <;> cases h
    · exact hi.opening j key id pc h
  · rcases update_eq_cases h with ⟨rfl, rfl⟩ | ⟨-, h⟩
    · exact absurd rfl (hnok id)
    · exact hi.returnedOk j id h

/-- A call that finds a live entry opens its archive. -/
theorem vfsInv_hit {s s' : VfsState} {i : Nat} {key : String} {item : CacheItem} (hi : VfsInv s) (hl : LockInv s')
    (hc : s.cache key = some item) (hc' : s'.cache = s.cache) (ha : s'.archives = s.archives)
    (ht : s'.threads = Function.update s.threads i (.opening key item.archive (.start key))) : VfsInv s' := by
  refine hi.of_frame hl ha hc' (fun j key' id pc h => ?_) (fun j id h => ?_) <;> rw [ht] at h
  · rcases update_eq_cases h with ⟨-, h⟩ | ⟨-, h⟩
    · cases h
      obtain ⟨hlt, hf⟩ := hi.cached key item hc
      exact ⟨hlt, rfl, hf, fun k it hk e => hi.unique k key it item hk hc e, fun h => (by cases h)⟩
    · exact hi.opening j key' id pc h
  · rcases update_eq_cases h with ⟨-, h⟩ | ⟨-, h⟩
    · cases h
    · exact hi.returnedOk j id h

/-- A call that finds no live entry caches a new archive, the last of
`archives`, and opens it. -/
theorem vfsInv_miss {s s' : VfsState} {i : Nat} {key : String} (hi : VfsInv s) (hl : LockInv s')
    (hth : s.threads i = .lookup key) (hc : s'.cache = Function.update s.cache key (some ⟨s.archives.length, false⟩))
    (ha : s'.archives = s.archives ++ [.init])
    (ht : s'.threads = Function.update s.threads i (.opening key s.archives.length (.start key))) : VfsInv s' := by
  have hA (j : Nat) : s'.archive j = s.archive j := by simp only [VfsState.archive, ha, archive_append_init]
  have hnew : s'.archive s.archives.length = .init := by rw [hA]; simp [VfsState.archive]
  -- an entry of another key names an older archive
  have hold {k it} (hk : s'.cache k = some it) :
      (k = key ∧ it = ⟨s.archives.length, false⟩) ∨ (s.cache k = some it ∧ it.archive < s.archives.length) := by
    rw [hc] at hk
    rcases update_eq_cases hk with ⟨rfl, h⟩ | ⟨-, h⟩
    · exact .inl ⟨rfl, (Option.some.inj h).symm⟩
    · exact .inr ⟨h, (hi.cached k it h).1⟩
  refine ⟨hl, fun j => hA j ▸ hi.archives j, fun k it h => ?_, fun k₁ k₂ it₁ it₂ h₁ h₂ e => ?_,
    fun j key' id pc h => ?_, fun j id h => ?_⟩
  · rw [ha, List.length_append, List.length_singleton]
    rcases hold h with ⟨rfl, rfl⟩ | ⟨h, hlt⟩
    · exact ⟨Nat.lt_succ_self _, hnew ▸ fetchesKey_init k⟩
    · exact ⟨Nat.lt_succ_of_lt hlt, hA _ ▸ (hi.cached k it h).2⟩
  · rcases hold h₁ with ⟨rfl, rfl⟩ | ⟨h₁, hlt₁⟩ <;> rcases hold h₂ with ⟨rfl, rfl⟩ | ⟨h₂, hlt₂⟩
    · rfl
    · exact absurd (e ▸ hlt₂) (Nat.lt_irrefl _)
    · exact absurd (e ▸ hlt₁) (Nat.lt_irrefl _)
    · exact hi.unique k₁ k₂ it₁ it₂ h₁ h₂ e
  · rw [ht] at h
    rcases update_eq_cases h with ⟨-, h⟩ | ⟨hji, h⟩
    · cases h
      refine ⟨by simp [ha], rfl, hnew ▸ fetchesKey_init key, fun k it hk e => ?_, fun h => (by cases h)⟩
      rcases hold hk with ⟨rfl, -⟩ | ⟨-, hlt⟩
      · rfl
      · exact absurd (e ▸ hlt) (Nat.lt_irrefl _)
    · exact absurd (hi.lock.unique (by simp [hth, RootPc.locked]) (by simp [h, RootPc.locked])) hji
  · rw [ht] at h
    rcases update_eq_cases h with ⟨-, h⟩ | ⟨-, h⟩
    · cases h
    · exact hA id ▸ hi.returnedOk j id h

/-- A step of a call inside `openArchive`. -/
theorem vfsInv_openArchive {s s' : VfsState} {i id : Nat} {key : String} {pc pc' : CallerPc} {a : ArchiveState}
    (hi : VfsInv s) (hl : LockInv s') (hth : s.threads i = .opening key id pc) (hst : CallerStep (s.archive id, pc) (a, pc'))
    (hc : s'.cache = s.cache) (ha : s'.archives = s.archives.set id a)
    (ht : s'.threads = Function.update s.threads i (.opening key id pc')) : VfsInv s' := by
  have ho := hi.opening i key id pc hth
  obtain ⟨hd, he, -⟩ := callerStep_frame hst
  have hf := fetchesKey_callerStep ho.fetches ho.url hst
  have hlen : s'.archives.length = s.archives.length := by rw [ha, List.length_set]
  have hid : s'.archive id = a := by rw [VfsState.archive, ha, archive_set, if_pos ⟨rfl, ho.lt⟩]
  refine ⟨hl, fun j => ?_, fun k it h => ?_, hc ▸ hi.unique, fun j key' id' pc'' h => ?_, fun j id' h => ?_⟩
  · rcases archive_of_set ha j with ⟨-, e⟩ | e <;> rw [e]
    exacts [inv_callerStep (hi.archives id) hst, hi.archives j]
  · rw [hc] at h
    obtain ⟨hlt, hk⟩ := hi.cached k it h
    refine ⟨hlen ▸ hlt, ?_⟩
    rcases archive_of_set ha it.archive with ⟨e₁, e⟩ | e <;> rw [e]
    exacts [ho.owner k it h e₁ ▸ hf.1, hk]
  · rw [ht] at h
    rcases update_eq_cases h with ⟨-, h⟩ | ⟨hji, h⟩
    · cases h
      exact ⟨hlen ▸ ho.lt, hf.2, hid ▸ hf.1, hc ▸ ho.owner, fun h => hid ▸ callerStep_returned_none (h ▸ hst)⟩
    · exact absurd (hi.lock.unique (by simp [hth, RootPc.locked]) (by simp [h, RootPc.locked])) hji
  · rw [ht] at h
    rcases update_eq_cases h with ⟨-, h⟩ | ⟨-, h⟩
    · cases h
    · obtain ⟨h₁, h₂⟩ := hi.returnedOk j id' h
      rcases archive_of_set ha id' with ⟨rfl, e⟩ | e <;> rw [e]
      exacts [⟨hd ▸ h₁, he ▸ h₂⟩, ⟨h₁, h₂⟩]

/-- A call leaves `openArchive`, and releases `cacheMu`. -/
theorem vfsInv_finish {s s' : VfsState} {i id : Nat} {key : String} {r : Option String} (hi : VfsInv s)
    (hl : LockInv s') (hc : s'.cache = s.cache) (ha : s'.archives = s.archives)
    (ht : s'.threads = Function.update s.threads i (.returned (match r with | none => .ok id | some e => .error e)))
    (hth : s.threads i = .opening key id (.returned r)) : VfsInv s' := by
  refine hi.of_frame hl ha hc (fun j key' id' pc h => ?_) (fun j id' h => ?_) <;> rw [ht] at h
  · rcases update_eq_cases h with ⟨-, h⟩ | ⟨-, h⟩
    · cases r <;> cases h
    · exact hi.opening j key' id' pc h
  · rcases update_eq_cases h with ⟨-, h⟩ | ⟨-, h⟩
    · cases r <;> cases h
      exact (hi.opening i key id _ hth).returned rfl
    · exact hi.returnedOk j id' h

/-- A step of an archive by itself. -/
theorem vfsInv_archive {s s' : VfsState} {id : Nat} {a : ArchiveState} (hi : VfsInv s) (hl : LockInv s')
    (hst : ArchiveStep (s.archive id) a) (hc : s'.cache = s.cache) (ha : s'.archives = s.archives.set id a)
    (ht : s'.threads = s.threads) : VfsInv s' := by
  have hlen : s'.archives.length = s.archives.length := by rw [ha, List.length_set]
  have hfk {k j} (h : FetchesKey k (s.archive j)) : FetchesKey k (s'.archive j) := by
    rcases archive_of_set ha j with ⟨rfl, e⟩ | e <;> rw [e]
    exacts [fetchesKey_archiveStep h hst, h]
  have hok {j} (h : (s.archive j).done = true ∧ (s.archive j).err = none) :
      (s'.archive j).done = true ∧ (s'.archive j).err = none := by
    rcases archive_of_set ha j with ⟨rfl, e⟩ | e <;> rw [e]
    · obtain ⟨h₁, h₂, -⟩ := archiveStep_of_done (hi.archives _) h.1 hst
      exact ⟨h₁, h₂.trans h.2⟩
    · exact h
  refine ⟨hl, fun j => ?_, fun k it h => ?_, hc ▸ hi.unique, fun j key id' pc h => ?_, fun j id' h => ?_⟩
  · rcases archive_of_set ha j with ⟨rfl, e⟩ | e <;> rw [e]
    exacts [inv_archiveStep (hi.archives _) hst, hi.archives j]
  · obtain ⟨hlt, hk⟩ := hi.cached k it (hc ▸ h)
    exact ⟨hlen ▸ hlt, hfk hk⟩
  · obtain ⟨hlt, hu, hk, how, hr⟩ := hi.opening j key id' pc (ht ▸ h)
    exact ⟨hlen ▸ hlt, hu, hfk hk, hc ▸ how, fun h => hok (hr h)⟩
  · exact hok (hi.returnedOk j id' (ht ▸ h))

/-- A change of the cache that keeps, of each entry, at most the archive it
had: an expiry or an eviction. -/
theorem vfsInv_cache {s s' : VfsState} (hi : VfsInv s) (ha : s'.archives = s.archives) (ht : s'.threads = s.threads)
    (hmu : s'.cacheMu = s.cacheMu)
    (hsub : ∀ k it, s'.cache k = some it → ∃ it₀, s.cache k = some it₀ ∧ it₀.archive = it.archive) : VfsInv s' := by
  have hA (j : Nat) : s'.archive j = s.archive j := archive_congr ha j
  refine ⟨fun j h => hmu ▸ hi.lock j (ht ▸ h), fun j => hA j ▸ hi.archives j, fun k it h => ?_,
    fun k₁ k₂ it₁ it₂ h₁ h₂ e => ?_, fun j key id pc h => ?_, fun j id h => hA id ▸ hi.returnedOk j id (ht ▸ h)⟩
  · obtain ⟨it₀, h₀, e⟩ := hsub k it h
    rw [ha, hA, ← e]
    exact hi.cached k it₀ h₀
  · obtain ⟨it₁', h₁', e₁⟩ := hsub _ _ h₁
    obtain ⟨it₂', h₂', e₂⟩ := hsub _ _ h₂
    exact hi.unique k₁ k₂ it₁' it₂' h₁' h₂' (by rw [e₁, e₂, e])
  · obtain ⟨hlt, hu, hk, how, hr⟩ := hi.opening j key id pc (ht ▸ h)
    refine ⟨ha ▸ hlt, hu, hA id ▸ hk, fun k it h' e => ?_, fun h => hA id ▸ hr h⟩
    obtain ⟨it₀, h₀, e₀⟩ := hsub k it h'
    exact how k it₀ h₀ (e₀.trans e)

theorem vfsInv_step {s s' : VfsState} (hi : VfsInv s) (h : VfsStep s s') : VfsInv s' := by
  have hl := lockInv_step hi.lock h
  cases h with
  | call => exact hi.of_move hl rfl rfl rfl (.inl rfl) (fun _ h => by cases h)
  | parseErr => exact hi.of_move hl rfl rfl rfl (.inl rfl) (fun _ h => by cases h)
  | parseOk => exact hi.of_move hl rfl rfl rfl (.inl rfl) (fun _ h => by cases h)
  | lock => exact hi.of_move hl rfl rfl rfl (.inr ⟨_, rfl⟩) (fun _ h => by cases h)
  | hit _ hc => exact vfsInv_hit hi hl hc rfl rfl rfl
  | miss hth => exact vfsInv_miss hi hl hth rfl rfl rfl
  | openArchive hth hst => exact vfsInv_openArchive hi hl hth hst rfl rfl rfl
  | finish hth => exact vfsInv_finish hi hl rfl rfl rfl hth
  | archive hst => exact vfsInv_archive hi hl hst rfl rfl rfl
  | expire hc =>
    refine vfsInv_cache hi rfl rfl rfl fun k it h => ?_
    rcases update_eq_cases h with ⟨rfl, h'⟩ | ⟨-, h'⟩
    exacts [⟨_, hc, by cases h'; rfl⟩, ⟨it, h', rfl⟩]
  | evict key =>
    refine vfsInv_cache hi rfl rfl rfl fun k it h => ?_
    rcases update_eq_cases h with ⟨-, h⟩ | ⟨-, h⟩
    exacts [Option.noConfusion h, ⟨it, h, rfl⟩]

theorem vfsInv_of_reachable {s : VfsState} (hs : VfsReachable s) : VfsInv s := by
  induction hs with
  | refl => exact vfsInv_init
  | tail _ hst ih => exact vfsInv_step ih hst

/-! ### An open archive along a run -/

/-- What a step does to the archives: nothing, a new one at the end, a step of
a call inside `openArchive`, or a step of an archive by itself. -/
theorem vfsStep_archives {s s' : VfsState} (h : VfsStep s s') :
    s'.archives = s.archives ∨ s'.archives = s.archives ++ [.init] ∨
      (∃ id a pc pc', CallerStep (s.archive id, pc) (a, pc') ∧ s'.archives = s.archives.set id a) ∨
      ∃ id a, ArchiveStep (s.archive id) a ∧ s'.archives = s.archives.set id a := by
  cases h
  case miss => exact .inr (.inl rfl)
  case openArchive hst => exact .inr (.inr (.inl ⟨_, _, _, _, hst, rfl⟩))
  case archive hst => exact .inr (.inr (.inr ⟨_, _, hst, rfl⟩))
  all_goals exact .inl rfl

theorem archive_of_step {s s' : VfsState} (h : VfsStep s s') (j : Nat) :
    s'.archive j = s.archive j ∨ (∃ pc pc', CallerStep (s.archive j, pc) (s'.archive j, pc')) ∨
      ArchiveStep (s.archive j) (s'.archive j) := by
  rcases vfsStep_archives h with ha | ha | ⟨id, a, pc, pc', hst, ha⟩ | ⟨id, a, hst, ha⟩
  · exact .inl (archive_congr ha j)
  · exact .inl (by simp only [VfsState.archive, ha, archive_append_init])
  · rcases archive_of_set ha j with ⟨rfl, e⟩ | e
    exacts [.inr (.inl ⟨pc, pc', e ▸ hst⟩), .inl e]
  · rcases archive_of_set ha j with ⟨rfl, e⟩ | e
    exacts [.inr (.inr (e ▸ hst)), .inl e]

theorem archive_step_of_done {s s' : VfsState} (hi : VfsInv s) (h : VfsStep s s') {id : Nat}
    (hd : (s.archive id).done = true) :
    (s'.archive id).done = true ∧ (s'.archive id).err = (s.archive id).err ∧
      (s'.archive id).index = (s.archive id).index := by
  rcases archive_of_step h id with e | ⟨pc, pc', hst⟩ | hst
  · rw [e]; exact ⟨hd, rfl, rfl⟩
  · obtain ⟨h₁, h₂, h₃, -⟩ := callerStep_frame hst
    exact ⟨h₁ ▸ hd, h₂, h₃⟩
  · exact archiveStep_of_done (hi.archives id) hd hst

/-- Along every run from a reachable state, an archive whose `a.done` is
closed keeps its `done`, error and index. -/
theorem archive_run_of_done {s s' : VfsState} (hs : VfsReachable s) (h : Relation.ReflTransGen VfsStep s s')
    {id : Nat} (hd : (s.archive id).done = true) :
    (s'.archive id).done = true ∧ (s'.archive id).err = (s.archive id).err ∧
      (s'.archive id).index = (s.archive id).index := by
  induction h with
  | refl => exact ⟨hd, rfl, rfl⟩
  | tail hsb hbc ih =>
    obtain ⟨h₁, h₂, h₃⟩ := ih
    obtain ⟨h₁', h₂', h₃'⟩ := archive_step_of_done (vfsInv_of_reachable (hs.trans hsb)) hbc h₁
    exact ⟨h₁', h₂'.trans h₂, h₃'.trans h₃⟩

/-- **The archive cache, over every interleaving.** In every reachable state
of the `zipVFS`: each archive has started `readArchive` at most once; no two
keys share an archive; the archive cached under a key reads that key and no
other URL; and an archive a `Root` call returned without error has finished
`readArchive` with no error, every parsed entry indexed, and keeps that index
along every later run, whatever calls, archive steps, expiries and evictions
follow. -/
theorem root_archive_sound {s : VfsState} (hs : VfsReachable s) :
    (∀ id, (s.archive id).launches ≤ 1) ∧
    (∀ k₁ k₂ it₁ it₂, s.cache k₁ = some it₁ → s.cache k₂ = some it₂ → it₁.archive = it₂.archive → k₁ = k₂) ∧
    (∀ key item, s.cache key = some item → FetchesKey key (s.archive item.archive)) ∧
    ∀ i id, s.threads i = .returned (.ok id) →
      (s.archive id).reader = .finished ∧ (s.archive id).err = none ∧
      (s.archive id).index = readArchiveIndex (s.archive id).parsed ∧
      ∀ s', Relation.ReflTransGen VfsStep s s' → (s'.archive id).index = (s.archive id).index := by
  have hi := vfsInv_of_reachable hs
  refine ⟨fun id => ?_, hi.unique, fun key item h => (hi.cached key item h).2, fun i id h => ?_⟩
  · rw [(hi.archives id).launches]
    split <;> omega
  · obtain ⟨hd, he⟩ := hi.returnedOk i id h
    have hf := (hi.archives id).done.mp hd
    exact ⟨hf, he, (hi.archives id).complete (.inr hf) he, fun s' h' => (archive_run_of_done hs h' hd).2.2⟩

/-- A first `Root` call, returned: its archive is open and keeps its index. -/
theorem root_archive_sound_first :
    ∃ s, VfsReachable s ∧ s.threads 0 = .returned (.ok 0) ∧ (s.archive 0).reader = .finished ∧
      ∀ s', Relation.ReflTransGen VfsStep s s' → (s'.archive 0).index = (s.archive 0).index :=
  have h₀ : VfsReachable _ := root_miss_run 0 [] rfl rfl
    (by decide : rootKey "http://store/a.zip" = .ok "http://store/a.zip") (fun _ h => by cases h)
  have h := (root_archive_sound h₀).2.2.2 0 0 rfl
  ⟨_, h₀, rfl, h.1, h.2.2.2⟩

/-! ### The URL under the key -/

/-- The key `Root` caches an archive under, and which that archive fetches,
names the URL the path named, and is its own key: a later `Root` call with
the key finds the entry the path's call made. For a path of `plainChar`s,
where Go's escaping is the identity as in the model, the key is plain too. -/
theorem rootKey_names_path_url {path key : String} (hplain : path.data.all plainChar = true)
    (h : rootKey path = .ok key) :
    urlParse key = urlParse path ∧ rootKey key = .ok key ∧ key.data.all plainChar = true := by
  unfold rootKey at h ⊢
  cases hp : urlParse path with
  | error e => simp [hp, Except.map] at h
  | ok u =>
    simp only [hp, Except.map, Except.ok.injEq] at h
    subst h
    have hu := urlParse_roundTrip hp
    obtain ⟨hall, huser, hfrag⟩ := urlParse_plain hp hplain
    exact ⟨hu, by simp [hu, Except.map], URL.toString_all (urlParse_canonical hp) hall (by decide) huser hfrag⟩

/-- An upper-case scheme and a query: the key differs from the path, and
names the same URL. -/
theorem rootKey_names_path_url_upper :
    "HTTP://store/a.zip?sig=1".data.all plainChar = true ∧
      rootKey "HTTP://store/a.zip?sig=1" = .ok "http://store/a.zip?sig=1" ∧
      urlParse "http://store/a.zip?sig=1" = urlParse "HTTP://store/a.zip?sig=1" ∧
      rootKey "http://store/a.zip?sig=1" = .ok "http://store/a.zip?sig=1" ∧
      "http://store/a.zip?sig=1".data.all plainChar = true :=
  have hs : "HTTP://store/a.zip?sig=1".data.all plainChar = true := by decide
  have h : rootKey "HTTP://store/a.zip?sig=1" = .ok "http://store/a.zip?sig=1" := by decide
  ⟨hs, h, rootKey_names_path_url hs h⟩

end Zip
end GitlabPages
