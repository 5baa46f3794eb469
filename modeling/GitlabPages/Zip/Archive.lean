import GitlabPages.Path
import GitlabPages.Path.Clean

/-!
# A zip archive as the server indexes it

`internal/vfs/zip/archive.go`. Once the central directory is parsed,
`readArchive` picks the public directory (`guessPublicDirectoryName`) and
indexes every entry whose name begins with it: directories into `directories`,
everything else into `files`, and the entry's parent directory is synthesized
(`addPathDirectory`). A request name is then looked up as
`path.Clean(publicDirectoryName + "/" + name)` (`findFile`, `findDirectory`),
and `Open`, `Lstat` and `Readlink` answer from what the lookups return.

The filter is a string prefix test, `strings.HasPrefix(file.Name,
a.publicDirectoryName)`, with no `/` after the directory name. So a sibling
entry whose name merely extends the public directory's (`public2/...`,
`publicity.html`) is indexed too, and a request name with a `..` element
reaches it (`findFile_escapes_public`).

The files map the loop leaves holds, under each name, the last entry of that
name that is not a directory, so a plain request name finds it
(`findFile_last_entry`). Only an entry's parent directory is synthesized, so
`Lstat` finds no directory above it, not even the public root; and with an
empty public directory every lookup starts with `/` and finds nothing
(`lstat_misses_ancestors`).

The public directory is the only root directory, or else the first of the
common site-generator folders among the roots. A root is the first element of
`strings.SplitN(file.Name, "/", 2)`, so a top-level file is a root too: it can
hide the only directory, or be chosen itself (`guessPublicDirectoryName_counts_files`).
With every entry inside a directory, the choice is the one the design
describes (`guessPublicDirectoryName_of_nested`).

`Open` reads the section the central directory declares, from the entry's
data offset for `int64(CompressedSize64)` bytes, and checks neither against
the archive's size (`open_ok_section`, `open_section_unchecked`).

Every lookup key is a cleaned name, and cleaning is idempotent, so whatever
name is asked for, only entries whose names `path.Clean` leaves as they are
(or such a name and a `/`, for a directory) are ever found
(`lstat_clean_names`).

Go maps are functions to `Option`; an assignment is `Function.update`, so the
last entry of a name wins, as it does in Go.

Key definitions: `File`, `Archive`, `guessPublicDirectoryName`, `indexFile`,
`readArchiveIndex`, `Archive.findFile`, `Archive.findDirectory`, `Archive.open`,
`Archive.lstat`, `Archive.readlink`.
Key theorems: `indexFile_files_hasPrefix`, `findFile_hasPrefix`,
`findFile_escapes_public`, `findFile_last_entry`, `lstat_misses_ancestors`,
`guessPublicDirectoryName_of_nested`,
`guessPublicDirectoryName_counts_files`, `open_ok_section`,
`open_section_unchecked`, `lstat_clean_names`.
-/

namespace GitlabPages
namespace Zip

/-- The type bits of an entry's `fs.FileMode`, as `zip.FileHeader.Mode`
derives them: `ModeDir`, `ModeSymlink`, and any other type bit (device,
pipe, socket). -/
structure FileMode where
  dir : Bool
  symlink : Bool
  otherType : Bool
  deriving DecidableEq, Repr

/-- `FileMode.IsDir`. -/
def FileMode.isDir (m : FileMode) : Bool := m.dir

/-- `FileMode.IsRegular`: no type bit is set. -/
def FileMode.isRegular (m : FileMode) : Bool := !m.dir && !m.symlink && !m.otherType

/-- The mode of a regular file. -/
def FileMode.regular : FileMode := ⟨false, false, false⟩

/-- The mode `zip.FileHeader{Name: "d/"}.Mode()` gives: a directory. -/
def FileMode.directory : FileMode := ⟨true, false, false⟩

/-- The mode of a symbolic link. -/
def FileMode.symbolicLink : FileMode := ⟨false, true, false⟩

/-- `zip.Store`. -/
def store : Nat := 0

/-- `zip.Deflate`. -/
def deflate : Nat := 8

/-- The fields of a `zip.File` (and of its `zip.FileHeader`) the archive
reads. -/
structure File where
  name : String
  mode : FileMode
  method : Nat
  compressedSize64 : UInt64
  deriving DecidableEq, Repr

/-- The header `addPathDirectory` synthesizes: `&zip.FileHeader{Name: pathname}`. -/
def File.synthesized (pathname : String) : File := ⟨pathname, .directory, store, 0⟩

/-- The index of a `zipArchive`: `publicDirectoryName`, `files` and
`directories`. -/
structure Archive where
  publicDirectoryName : String
  files : String → Option File
  directories : String → Option File

/-- The index `newArchive` starts with: empty maps. -/
def Archive.empty : Archive := ⟨"", fun _ => none, fun _ => none⟩

/-! ### Choosing the public directory -/

/-- `sliceContains`. -/
def sliceContains (slice : List String) (value : String) : Bool := slice.any (· == value)

/-- The loop of `getAllRootDirectories` from the directories found so far:
the first element of `strings.SplitN(file.Name, "/", 2)` of each entry, once
each, in order of first appearance. -/
def getAllRootDirectoriesFrom (rootDirectories : List String) : List File → List String
  | [] => rootDirectories
  | file :: files =>
    match splitN file.name '/' 2 with
    | [] => rootDirectories
    | rootDir :: _ =>
      getAllRootDirectoriesFrom
        (if sliceContains rootDirectories rootDir then rootDirectories
          else rootDirectories ++ [rootDir]) files

/-- `zipArchive.getAllRootDirectories`. -/
def getAllRootDirectories (files : List File) : List String :=
  getAllRootDirectoriesFrom [] files

/-- The folder names of popular site generators, in the order tried. -/
def commonPrefixes : List String := ["public", "build", "dist", "out", "_site"]

/-- `zipArchive.guessPublicDirectoryName`. -/
def guessPublicDirectoryName (files : List File) : String :=
  match getAllRootDirectories files with
  | [rootDir] => rootDir
  | rootDirectories => (commonPrefixes.find? (sliceContains rootDirectories)).getD ""

/-! ### Indexing the entries -/

/-- The directory part of `path.Split(p)`: everything up to and including the
last `/`, empty if there is none. -/
def pathSplitDir (p : String) : String := ⟨(p.data.reverse.dropWhile (· ≠ '/')).reverse⟩

/-- `zipArchive.addPathDirectory`: the entry's parent directory, unless it is
empty or already present. -/
def Archive.addPathDirectory (a : Archive) (pathname : String) : Archive :=
  let dir := pathSplitDir pathname
  if dir = "" then a
  else if (a.directories dir).isSome then a
  else { a with directories := Function.update a.directories dir (some (File.synthesized dir)) }

/-- One turn of the indexing loop of `readArchive`. -/
def Archive.indexFile (a : Archive) (file : File) : Archive :=
  if !hasPrefix file.name a.publicDirectoryName then a
  else
    let a := if file.mode.isDir
      then { a with directories := Function.update a.directories file.name (some file) }
      else { a with files := Function.update a.files file.name (some file) }
    a.addPathDirectory file.name

/-- What a successful `readArchive` leaves in the archive: the public
directory chosen from all entries, then every entry indexed in order. -/
def readArchiveIndex (entries : List File) : Archive :=
  entries.foldl Archive.indexFile { Archive.empty with publicDirectoryName := guessPublicDirectoryName entries }

/-! ### Lookups -/

/-- `zipArchive.findFile`. -/
def Archive.findFile (a : Archive) (name : String) : Option File :=
  a.files (pathClean (a.publicDirectoryName ++ "/" ++ name))

/-- `zipArchive.findDirectory`. -/
def Archive.findDirectory (a : Archive) (name : String) : Option File :=
  a.directories (pathClean (a.publicDirectoryName ++ "/" ++ name) ++ "/")

/-- The errors of `Open`, `Lstat` and `Readlink`. -/
inductive ZipError
  | notExist
  | notFile
  | notSymlink
  | symlinkSize
  | unsupportedCompression (method : Nat)
  | io (msg : String)
  deriving DecidableEq, Repr

/-- The text of each error. -/
def ZipError.message : ZipError → String
  | .notExist => "file does not exist"
  | .notFile => "not a file"
  | .notSymlink => "not a symlink"
  | .symlinkSize => "symlink too long"
  | .unsupportedCompression m => "unsupported compression method: " ++ ⟨Nat.toDigits 16 m⟩
  | .io msg => msg

/-- `maxSymlinkSize`. -/
def maxSymlinkSize : Nat := 256

/-- `int64(x)` of a `uint64`: two's complement. -/
def int64OfUInt64 (x : UInt64) : Int := if x.toNat < 2 ^ 63 then x.toNat else x.toNat - 2 ^ 64

/-- A section reader over the archive's bytes: `reader.SectionReader(ctx,
offset, size)`. -/
structure Section where
  offset : Int
  size : Int
  deriving DecidableEq, Repr

/-- What `Open` returns: the raw section (`zip.Store`) or an inflater over it
(`zip.Deflate`). -/
inductive Opened
  | raw (s : Section)
  | inflate (s : Section)
  deriving DecidableEq, Repr

/-- `zipArchive.Open`. `dataOffset` is `file.DataOffset()` (it reads the
entry's local header; `dataOffsetCache` returns the same value). -/
def Archive.open (dataOffset : File → Except ZipError Int) (a : Archive) (name : String) :
    Except ZipError Opened :=
  match a.findFile name with
  | none => if (a.findDirectory name).isSome then .error .notFile else .error .notExist
  | some file =>
    if !file.mode.isRegular then .error .notFile
    else match dataOffset file with
      | .error e => .error e
      | .ok off =>
        let reader : Section := ⟨off, int64OfUInt64 file.compressedSize64⟩
        if file.method = deflate then .ok (.inflate reader)
        else if file.method = store then .ok (.raw reader)
        else .error (.unsupportedCompression file.method)

/-- `zipArchive.Lstat`: the header of the file or of the directory. -/
def Archive.lstat (a : Archive) (name : String) : Except ZipError File :=
  match a.findFile name with
  | some file => .ok file
  | none => match a.findDirectory name with
    | some dir => .ok dir
    | none => .error .notExist

/-- `zipArchive.Readlink`. `content` is what `file.Open()` reads
(`readlinkCache` returns the same value). The code reads at most
`maxSymlinkSize + 1` bytes of it with `io.ReadFull`, which fails with
`io.EOF` when there is nothing to read, and answers `errSymlinkSize` when it
read more than `maxSymlinkSize` bytes: so a link of at most `maxSymlinkSize`
bytes is returned whole, and a longer one is refused. -/
def Archive.readlink (content : File → Except ZipError String) (a : Archive) (name : String) :
    Except ZipError String :=
  match a.findFile name with
  | none => if (a.findDirectory name).isSome then .error .notSymlink else .error .notExist
  | some file =>
    if !file.mode.symlink then .error .notSymlink
    else match content file with
      | .error e => .error e
      | .ok s =>
        if s = "" then .error (.io "EOF")
        else if s.utf8ByteSize > maxSymlinkSize then .error .symlinkSize else .ok s

/-! ### What the filter guarantees -/

@[simp]
theorem addPathDirectory_files (a : Archive) (p : String) :
    (a.addPathDirectory p).files = a.files := by
  unfold Archive.addPathDirectory; dsimp only; split_ifs <;> rfl

@[simp]
theorem addPathDirectory_publicDirectoryName (a : Archive) (p : String) :
    (a.addPathDirectory p).publicDirectoryName = a.publicDirectoryName := by
  unfold Archive.addPathDirectory; dsimp only; split_ifs <;> rfl

@[simp]
theorem indexFile_publicDirectoryName (a : Archive) (f : File) :
    (a.indexFile f).publicDirectoryName = a.publicDirectoryName := by
  unfold Archive.indexFile; split_ifs <;> simp

/-- One turn of the loop indexes a file only under a name that begins with the
public directory's. -/
theorem indexFile_files_hasPrefix (a : Archive) (f : File)
    (h : ∀ k g, a.files k = some g → g.name = k ∧ hasPrefix k a.publicDirectoryName = true) :
    ∀ k g, (a.indexFile f).files k = some g →
      g.name = k ∧ hasPrefix k (a.indexFile f).publicDirectoryName = true := by
  rw [indexFile_publicDirectoryName]
  intro k g hk
  unfold Archive.indexFile at hk
  by_cases hp : hasPrefix f.name a.publicDirectoryName = true
  · simp only [hp, Bool.not_true, Bool.false_eq_true, ↓reduceIte, addPathDirectory_files] at hk
    split_ifs at hk
    · exact h k g hk
    · by_cases hkf : k = f.name
      · subst hkf; simp at hk; subst hk; exact ⟨rfl, hp⟩
      · exact h k g (by simpa [Function.update_noteq hkf] using hk)
  · simp only [hp, Bool.not_false, ↓reduceIte] at hk
    exact h k g hk

/-- Every file of the index sits under its own name, which begins with the
public directory's name. -/
theorem readArchiveIndex_files (entries : List File) :
    ∀ k g, (readArchiveIndex entries).files k = some g →
      g.name = k ∧ hasPrefix k (readArchiveIndex entries).publicDirectoryName = true := by
  unfold readArchiveIndex
  generalize hs : ({ Archive.empty with publicDirectoryName := guessPublicDirectoryName entries } : Archive) = s
  have h0 : ∀ k g, s.files k = some g → g.name = k ∧ hasPrefix k s.publicDirectoryName = true := by
    subst hs; simp [Archive.empty]
  clear hs
  induction entries generalizing s with
  | nil => exact h0
  | cons f fs ih => exact ih _ (indexFile_files_hasPrefix s f h0)

theorem findFile_hasPrefix (entries : List File) (name : String) (f : File)
    (h : (readArchiveIndex entries).findFile name = some f) :
    hasPrefix f.name (readArchiveIndex entries).publicDirectoryName = true := by
  obtain ⟨h1, h2⟩ := readArchiveIndex_files entries _ f h
  rwa [h1]

/-- An archive with the public directory `public` and a sibling `public2`. -/
def siblingEntries : List File :=
  [⟨"public/index.html", .regular, store, 6⟩, ⟨"public2/secret.txt", .regular, store, 7⟩]

/-- **A sibling of the public directory is reachable.** With the entries
`public/index.html` and `public2/secret.txt` the public directory is `public`,
and the request name `../public2/secret.txt` finds `public2/secret.txt`, which
is not under `public/`. -/
theorem findFile_escapes_public :
    (readArchiveIndex siblingEntries).publicDirectoryName = "public" ∧
      ((readArchiveIndex siblingEntries).findFile "../public2/secret.txt").map File.name =
        some "public2/secret.txt" ∧
      ¬ ∃ s, "public2/secret.txt" = "public" ++ "/" ++ s := by
  refine ⟨by decide, by decide, fun ⟨s, hs⟩ => ?_⟩
  have : hasPrefix "public2/secret.txt" ("public" ++ "/") = true :=
    hasPrefix_iff_append.mpr ⟨s, by rw [hs, String.append_assoc]⟩
  exact absurd this (by decide)

/-! ### What the lookups find -/

theorem readArchiveIndex_publicDirectoryName (entries : List File) :
    (readArchiveIndex entries).publicDirectoryName = guessPublicDirectoryName entries := by
  suffices ∀ (a : Archive) (es : List File), (es.foldl Archive.indexFile a).publicDirectoryName = a.publicDirectoryName
    from this _ _
  intro a es
  induction es generalizing a with
  | nil => rfl
  | cons f fs ih => rw [List.foldl_cons, ih, indexFile_publicDirectoryName]

theorem indexFile_files_apply (a : Archive) (f : File) {k : String} (hk : hasPrefix k a.publicDirectoryName = true) :
    (a.indexFile f).files k = if f.name = k ∧ f.mode.isDir = false then some f else a.files k := by
  unfold Archive.indexFile
  by_cases hn : f.name = k
  · subst hn
    cases hd : f.mode.isDir <;> simp [hk, hd]
  · split_ifs <;> simp_all [Function.update_noteq (Ne.symm hn)]

/-- The files map the indexing loop leaves, at a name under the public
directory: the last entry of that name that is not a directory. -/
theorem foldl_indexFile_files (entries : List File) (a : Archive) {k : String}
    (hk : hasPrefix k a.publicDirectoryName = true) :
    (entries.foldl Archive.indexFile a).files k =
      (entries.reverse.find? fun f => f.name = k ∧ f.mode.isDir = false).or (a.files k) := by
  induction entries generalizing a with
  | nil => simp
  | cons f fs ih =>
    rw [List.foldl_cons, ih (a.indexFile f) (by rwa [indexFile_publicDirectoryName]), indexFile_files_apply a f hk,
      List.reverse_cons, List.find?_append, Option.or_assoc]
    by_cases hf : f.name = k ∧ f.mode.isDir = false <;> simp [hf]

theorem find?_name_of_not_dir {entries : List File} {k : String} {file : File}
    (hlast : entries.find? (fun f => f.name = k) = some file) (hfile : file.mode.isDir = false) :
    entries.find? (fun f => f.name = k ∧ f.mode.isDir = false) = some file := by
  obtain ⟨hk, as, bs, rfl, has⟩ := List.find?_eq_some.1 hlast
  exact List.find?_eq_some.2 ⟨by simpa [hfile] using hk, as, bs, rfl, fun a ha => by
    simp only [decide_eq_true_eq, Bool.not_eq_true', decide_eq_false_iff_not] at has ⊢
    exact fun h => has a ha h.1⟩

/-- **A plain request name finds the last entry of its name.** When the public
directory `P` and the request name `r` make a plain name `P/r`, and the last
entry named `P/r` is not a directory, `findFile(r)` and `Lstat(r)` return it. -/
theorem findFile_last_entry (entries : List File) (r : String) (file : File)
    (hplain : plainPath ((readArchiveIndex entries).publicDirectoryName ++ "/" ++ r).data)
    (hlast : entries.reverse.find? (fun f => f.name = (readArchiveIndex entries).publicDirectoryName ++ "/" ++ r) =
      some file)
    (hfile : file.mode.isDir = false) :
    (readArchiveIndex entries).findFile r = some file ∧ (readArchiveIndex entries).lstat r = .ok file := by
  rw [readArchiveIndex_publicDirectoryName] at hplain hlast
  have under : hasPrefix (guessPublicDirectoryName entries ++ "/" ++ r) (guessPublicDirectoryName entries) = true :=
    hasPrefix_iff_append.2 ⟨"/" ++ r, String.append_assoc _ _ _⟩
  have found : (readArchiveIndex entries).findFile r = some file := by
    rw [Archive.findFile, readArchiveIndex_publicDirectoryName, pathClean_of_plainPath hplain, readArchiveIndex,
      foldl_indexFile_files _ _ under, find?_name_of_not_dir hlast hfile]
    rfl
  exact ⟨found, by simp [Archive.lstat, found]⟩

/-- `index.html` of the archive with the sibling `public2`. -/
theorem findFile_last_entry_sibling :
    plainPath ((readArchiveIndex siblingEntries).publicDirectoryName ++ "/" ++ "index.html").data ∧
      siblingEntries.reverse.find?
          (fun f => f.name = (readArchiveIndex siblingEntries).publicDirectoryName ++ "/" ++ "index.html") =
        some ⟨"public/index.html", .regular, store, 6⟩ ∧
      (readArchiveIndex siblingEntries).findFile "index.html" = some ⟨"public/index.html", .regular, store, 6⟩ ∧
      (readArchiveIndex siblingEntries).lstat "index.html" = .ok ⟨"public/index.html", .regular, store, 6⟩ :=
  have hplain : plainPath ((readArchiveIndex siblingEntries).publicDirectoryName ++ "/" ++ "index.html").data := by
    decide
  have hlast : siblingEntries.reverse.find?
      (fun f => f.name = (readArchiveIndex siblingEntries).publicDirectoryName ++ "/" ++ "index.html") =
        some ⟨"public/index.html", .regular, store, 6⟩ := by decide
  ⟨hplain, hlast, findFile_last_entry siblingEntries "index.html" _ hplain hlast rfl⟩

/-- A page three levels down, with no directory records. -/
def deepPage : List File := [⟨"public/a/b/c.html", .regular, store, 6⟩]

/-- Two pages at the top level, with no directory. -/
def rootPages : List File := [⟨"index.html", .regular, store, 6⟩, ⟨"about.html", .regular, store, 6⟩]

/-- **Only the parent directory is synthesized, and an empty public directory
finds nothing.** For `public/a/b/c.html` alone, `Lstat` finds the page and
its parent `a/b`, but neither `a` nor the public root; for two top-level
pages the public directory is empty, and `findFile("index.html")` looks up
`/index.html`, which is no entry's name. -/
theorem lstat_misses_ancestors :
    (readArchiveIndex deepPage).publicDirectoryName = "public" ∧
      (readArchiveIndex deepPage).lstat "a/b/c.html" = .ok ⟨"public/a/b/c.html", .regular, store, 6⟩ ∧
      (readArchiveIndex deepPage).lstat "a/b" = .ok (File.synthesized "public/a/b/") ∧
      (readArchiveIndex deepPage).lstat "a" = .error .notExist ∧
      (readArchiveIndex deepPage).lstat "" = .error .notExist ∧
      (readArchiveIndex rootPages).publicDirectoryName = "" ∧
      (readArchiveIndex rootPages).findFile "index.html" = none ∧
      (readArchiveIndex rootPages).lstat "index.html" = .error .notExist := by
  decide

/-! ### The public directory -/

theorem sliceContains_iff {slice : List String} {value : String} :
    sliceContains slice value = true ↔ value ∈ slice := by
  simp [sliceContains]

theorem getAllRootDirectoriesFrom_cons (rootDirectories : List String) (file : File) (files : List File) :
    getAllRootDirectoriesFrom rootDirectories (file :: files) =
      getAllRootDirectoriesFrom
        (if sliceContains rootDirectories ⟨file.name.data.takeWhile (· ≠ '/')⟩ then rootDirectories
          else rootDirectories ++ [⟨file.name.data.takeWhile (· ≠ '/')⟩]) files := by
  rw [getAllRootDirectoriesFrom, splitN_two]

theorem mem_getAllRootDirectoriesFrom {rootDirectories : List String} {files : List File} {x : String} :
    x ∈ getAllRootDirectoriesFrom rootDirectories files ↔
      x ∈ rootDirectories ∨ ∃ f ∈ files, x = ⟨f.name.data.takeWhile (· ≠ '/')⟩ := by
  induction files generalizing rootDirectories with
  | nil => simp [getAllRootDirectoriesFrom]
  | cons f fs ih =>
    rw [getAllRootDirectoriesFrom_cons, ih]
    simp only [List.mem_cons, or_and_right, exists_or, exists_eq_left]
    generalize (⟨f.name.data.takeWhile (· ≠ '/')⟩ : String) = root
    split_ifs with h
    · rw [← or_assoc, or_iff_left_of_imp fun e : x = root => e ▸ sliceContains_iff.1 h]
    · simp [or_assoc]

theorem getAllRootDirectoriesFrom_nodup {rootDirectories : List String} (files : List File)
    (h : rootDirectories.Nodup) : (getAllRootDirectoriesFrom rootDirectories files).Nodup := by
  induction files generalizing rootDirectories with
  | nil => exact h
  | cons f fs ih =>
    rw [getAllRootDirectoriesFrom_cons]
    split_ifs with hc
    · exact ih h
    · rw [sliceContains_iff] at hc
      exact ih (List.nodup_append.2 ⟨h, List.nodup_singleton _, by simpa using hc⟩)

/-- A top-level directory of the entries, as the design speaks of one: a name
without `/` that some entry's name continues with `/`. -/
def isTopLevelDirectory (files : List File) (d : String) : Bool :=
  decide ('/' ∉ d.data) && files.any fun f => hasPrefix f.name (d ++ "/")

theorem isTopLevelDirectory_iff {files : List File} {d : String} :
    isTopLevelDirectory files d = true ↔
      ∃ f ∈ files, '/' ∈ f.name.data ∧ d = ⟨f.name.data.takeWhile (· ≠ '/')⟩ := by
  have slash : (d ++ "/").data = d.data ++ ['/'] := rfl
  simp only [isTopLevelDirectory, Bool.and_eq_true, decide_eq_true_eq, List.any_eq_true, hasPrefix_iff, slash]
  constructor
  · rintro ⟨hd, f, hf, hp⟩
    obtain ⟨h1, h2⟩ := (isPrefix_slash_iff hd).1 hp
    exact ⟨f, hf, h2, String.ext h1.symm⟩
  · rintro ⟨f, hf, hs, rfl⟩
    have hd : '/' ∉ f.name.data.takeWhile (· ≠ '/') := fun h => by
      simpa using List.mem_takeWhile_imp h
    exact ⟨hd, f, hf, (isPrefix_slash_iff hd).2 ⟨rfl, hs⟩⟩

theorem mem_getAllRootDirectories_of_nested {files : List File} (hnested : ∀ f ∈ files, '/' ∈ f.name.data)
    (x : String) : x ∈ getAllRootDirectories files ↔ isTopLevelDirectory files x = true := by
  rw [getAllRootDirectories, mem_getAllRootDirectoriesFrom, isTopLevelDirectory_iff]
  simp only [List.not_mem_nil, false_or]
  exact ⟨fun ⟨f, hf, e⟩ => ⟨f, hf, hnested f hf, e⟩, fun ⟨f, hf, _, e⟩ => ⟨f, hf, e⟩⟩

theorem guessPublicDirectoryName_of_single {files : List File} {d : String}
    (h : getAllRootDirectories files = [d]) : guessPublicDirectoryName files = d := by
  rw [guessPublicDirectoryName, h]

theorem guessPublicDirectoryName_of_not_single {files : List File}
    (h : ∀ d, getAllRootDirectories files ≠ [d]) :
    guessPublicDirectoryName files =
      (commonPrefixes.find? (sliceContains (getAllRootDirectories files))).getD "" := by
  unfold guessPublicDirectoryName
  split
  · exact absurd ‹_› (h _)
  · rfl

/-- **With every entry inside a directory, the public directory is the one the
design describes**: the only top-level directory if there is exactly one;
otherwise the first candidate that is a top-level directory, or the empty
name. A non-empty choice is a top-level directory. -/
theorem guessPublicDirectoryName_of_nested (files : List File) (hnested : ∀ f ∈ files, '/' ∈ f.name.data) :
    (∀ d, (∀ x, isTopLevelDirectory files x = true ↔ x = d) → guessPublicDirectoryName files = d) ∧
      ((¬ ∃ d, ∀ x, isTopLevelDirectory files x = true ↔ x = d) →
        guessPublicDirectoryName files = (commonPrefixes.find? (isTopLevelDirectory files)).getD "") ∧
      (guessPublicDirectoryName files ≠ "" →
        isTopLevelDirectory files (guessPublicDirectoryName files) = true) := by
  have roots := mem_getAllRootDirectories_of_nested hnested
  have nodup : (getAllRootDirectories files).Nodup := getAllRootDirectoriesFrom_nodup files List.nodup_nil
  have single : ∀ d, getAllRootDirectories files = [d] ↔ ∀ x, isTopLevelDirectory files x = true ↔ x = d :=
    fun d => by
      rw [← List.perm_singleton, List.perm_ext_iff_of_nodup nodup (List.nodup_singleton d)]
      simp only [roots, List.mem_singleton]
  have candidates : sliceContains (getAllRootDirectories files) = isTopLevelDirectory files :=
    funext fun c => Bool.eq_iff_iff.2 (sliceContains_iff.trans (roots c))
  refine ⟨fun d hd => guessPublicDirectoryName_of_single ((single d).2 hd), fun hn => ?_, fun hne => ?_⟩
  · rw [guessPublicDirectoryName_of_not_single fun d hd => hn ⟨d, (single d).1 hd⟩, candidates]
  · by_cases hs : ∃ d, getAllRootDirectories files = [d]
    · obtain ⟨d, hd⟩ := hs
      rw [guessPublicDirectoryName_of_single hd, ← roots, hd]
      exact List.mem_singleton_self d
    · rw [guessPublicDirectoryName_of_not_single fun d hd => hs ⟨d, hd⟩, candidates] at hne ⊢
      cases hfind : commonPrefixes.find? (isTopLevelDirectory files) with
      | none => simp [hfind] at hne
      | some c => simpa using List.find?_some hfind

/-- Two entries, both inside a directory: `public` is the first candidate among
the two top-level directories. -/
theorem guessPublicDirectoryName_of_nested_sibling :
    (∀ f ∈ siblingEntries, '/' ∈ f.name.data) ∧
      (∀ d, (∀ x, isTopLevelDirectory siblingEntries x = true ↔ x = d) → guessPublicDirectoryName siblingEntries = d) ∧
      ((¬ ∃ d, ∀ x, isTopLevelDirectory siblingEntries x = true ↔ x = d) →
        guessPublicDirectoryName siblingEntries = (commonPrefixes.find? (isTopLevelDirectory siblingEntries)).getD "") ∧
      (guessPublicDirectoryName siblingEntries ≠ "" →
        isTopLevelDirectory siblingEntries (guessPublicDirectoryName siblingEntries) = true) :=
  ⟨by decide, guessPublicDirectoryName_of_nested siblingEntries (by decide)⟩

/-- A site generator's output directory `site` beside a top-level `README.md`. -/
def siteWithReadme : List File :=
  [⟨"site/index.html", .regular, store, 6⟩, ⟨"README.md", .regular, store, 6⟩]

/-- A single top-level file. -/
def topLevelFile : List File := [⟨"index.html", .regular, store, 6⟩]

/-- **Top-level files count as root directories.** `site` is the only top-level
directory of `site/index.html` and `README.md`, yet the choice is the empty
name, since `README.md` is a second root; and the single file `index.html` is
chosen as the public directory although no entry lies under `index.html/`. -/
theorem guessPublicDirectoryName_counts_files :
    (∀ d, isTopLevelDirectory siteWithReadme d = true ↔ d = "site") ∧
      guessPublicDirectoryName siteWithReadme = "" ∧
      (∀ d, isTopLevelDirectory topLevelFile d = false) ∧
      guessPublicDirectoryName topLevelFile = "index.html" := by
  have site : '/' ∈ "site/index.html".data ∧ (⟨"site/index.html".data.takeWhile (· ≠ '/')⟩ : String) = "site" := by
    decide
  have readme : '/' ∉ "README.md".data := by decide
  have index : '/' ∉ "index.html".data := by decide
  refine ⟨fun d => ?_, by decide, fun d => ?_, by decide⟩
  · simp only [isTopLevelDirectory_iff, siteWithReadme, List.mem_cons, or_and_right, exists_or, exists_eq_left,
      List.not_mem_nil, false_and, exists_false, or_false, site.1, site.2, readme, true_and]
  · simp [← Bool.not_eq_true, isTopLevelDirectory_iff, topLevelFile, index]

/-! ### The section `Open` reads -/

/-- **What `Open` returns.** A reader comes only from a regular file the
lookup finds, and reads from the file's data offset as many bytes as
`int64(file.CompressedSize64)`: nothing bounds either by the archive's size. -/
theorem open_ok_section {dataOffset : File → Except ZipError Int} {a : Archive} {name : String} {o : Opened}
    (h : a.open dataOffset name = .ok o) :
    ∃ file off, a.findFile name = some file ∧ file.mode.isRegular = true ∧ dataOffset file = .ok off ∧
      (o = .inflate ⟨off, int64OfUInt64 file.compressedSize64⟩ ∨ o = .raw ⟨off, int64OfUInt64 file.compressedSize64⟩) := by
  unfold Archive.open at h
  split at h
  · split_ifs at h
  · rename_i file hf
    cases hoff : dataOffset file with
    | error e => rw [hoff] at h; split_ifs at h
    | ok off =>
      rw [hoff] at h
      split_ifs at h with hr <;> cases h
      · exact ⟨file, off, hf, by simpa using hr, hoff, .inl rfl⟩
      · exact ⟨file, off, hf, by simpa using hr, hoff, .inr rfl⟩

theorem open_stored {dataOffset : File → Except ZipError Int} {a : Archive} {name : String} {file : File}
    {off : Int} (hf : a.findFile name = some file) (hr : file.mode.isRegular = true) (hm : file.method = store)
    (ho : dataOffset file = .ok off) :
    a.open dataOffset name = .ok (.raw ⟨off, int64OfUInt64 file.compressedSize64⟩) := by
  simp [Archive.open, hf, hr, hm, ho, store, deflate]

/-- A stored page `public/index.html` whose central directory record declares
`size` compressed bytes. -/
def storedPage (size : UInt64) : List File := [⟨"public/index.html", .regular, store, size⟩]

theorem findFile_storedPage (size : UInt64) :
    (readArchiveIndex (storedPage size)).findFile "index.html" = some ⟨"public/index.html", .regular, store, size⟩ := by
  have public : guessPublicDirectoryName (storedPage size) = "public" := rfl
  have clean : pathClean "public/index.html" = "public/index.html" := by decide
  rw [readArchiveIndex, public]
  simp [storedPage, Archive.indexFile, Archive.findFile, clean, hasPrefix, FileMode.isDir, FileMode.regular]

/-- **`Open` asks for whatever section the central directory declares.** For
every declared size and data offset, `Open("index.html")` returns the raw
section of exactly that size: a ZIP64 size of `2^63` becomes a negative
`int64`, and a size of `1000` at the offset `47` of a local header with a
17-byte name ends past a 200-byte archive. -/
theorem open_section_unchecked (size : UInt64) (off : Int) :
    (readArchiveIndex (storedPage size)).open (fun _ => .ok off) "index.html" =
        .ok (.raw ⟨off, int64OfUInt64 size⟩) ∧
      int64OfUInt64 (2 ^ 63) < 0 ∧ (200 : Int) < 47 + int64OfUInt64 1000 :=
  ⟨open_stored (findFile_storedPage size) rfl rfl rfl, by decide, by decide⟩

/-! ### Names a lookup reaches -/

/-- Every directory the archive holds is held under its own name. -/
def DirectoriesNamed (a : Archive) : Prop := ∀ k d, a.directories k = some d → d.name = k

theorem directoriesNamed_addPathDirectory {a : Archive} (h : DirectoriesNamed a) (p : String) :
    DirectoriesNamed (a.addPathDirectory p) := by
  unfold Archive.addPathDirectory
  dsimp only
  split_ifs
  · exact h
  · exact h
  · intro k d hk
    by_cases hkp : k = pathSplitDir p
    · subst hkp; simp only [Function.update_same, Option.some.injEq] at hk; rw [← hk]; rfl
    · exact h k d (by simpa [Function.update_noteq hkp] using hk)

theorem directoriesNamed_indexFile {a : Archive} (h : DirectoriesNamed a) (f : File) :
    DirectoriesNamed (a.indexFile f) := by
  unfold Archive.indexFile
  dsimp only
  split_ifs with hp hd
  · exact h
  · refine directoriesNamed_addPathDirectory (fun k d hk => ?_) _
    by_cases hkf : k = f.name
    · subst hkf; simp only [Function.update_same, Option.some.injEq] at hk; rw [← hk]
    · exact h k d (by simpa [Function.update_noteq hkf] using hk)
  · refine directoriesNamed_addPathDirectory ?_ _
    exact h

theorem foldl_indexFile_directoriesNamed :
    ∀ (entries : List File) (a : Archive), DirectoriesNamed a → DirectoriesNamed (entries.foldl Archive.indexFile a)
  | [], _, h => h
  | f :: fs, _, h => foldl_indexFile_directoriesNamed fs _ (directoriesNamed_indexFile h f)

theorem readArchiveIndex_directoriesNamed (entries : List File) : DirectoriesNamed (readArchiveIndex entries) :=
  foldl_indexFile_directoriesNamed entries _ fun k d hk => by simp [Archive.empty] at hk

/-- **Lookups reach only entries with clean names.** Whatever name is asked
for, an entry `Lstat` returns (and so one that `Open` or `Readlink` reads,
through `findFile`) is a name `path.Clean` leaves as it is, or such a name
and a `/`: an entry named `public/./a.html`, `public//a.html` or
`public/a.html/` is never served. -/
theorem lstat_clean_names (entries : List File) (name : String) (f : File)
    (h : (readArchiveIndex entries).lstat name = .ok f) :
    ∃ c, pathClean c = c ∧ (f.name = c ∨ f.name = c ++ "/") := by
  refine ⟨pathClean ((readArchiveIndex entries).publicDirectoryName ++ "/" ++ name), pathClean_pathClean _, ?_⟩
  unfold Archive.lstat at h
  cases hf : (readArchiveIndex entries).findFile name with
  | some g =>
    rw [hf, Except.ok.injEq] at h
    subst h
    exact .inl (readArchiveIndex_files entries _ _ hf).1
  | none =>
    cases hd : (readArchiveIndex entries).findDirectory name with
    | some d =>
      rw [hf, hd, Except.ok.injEq] at h
      subst h
      exact .inr (readArchiveIndex_directoriesNamed entries _ _ hd)
    | none => simp [hf, hd] at h

/-- An entry `public/./a.html` beside `public/a.html`: `Lstat("a.html")`
returns the clean one. -/
theorem lstat_clean_names_dot :
    (readArchiveIndex [⟨"public/./a.html", .regular, store, 1⟩, ⟨"public/a.html", .regular, store, 2⟩]).lstat
        "a.html" = .ok ⟨"public/a.html", .regular, store, 2⟩ ∧
      ∃ c, pathClean c = c ∧ ("public/a.html" = c ∨ "public/a.html" = c ++ "/") :=
  have h : (readArchiveIndex [⟨"public/./a.html", .regular, store, 1⟩, ⟨"public/a.html", .regular, store, 2⟩]).lstat
      "a.html" = .ok ⟨"public/a.html", .regular, store, 2⟩ := by decide
  ⟨h, lstat_clean_names _ _ _ h⟩

end Zip
end GitlabPages
