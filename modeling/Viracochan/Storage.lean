import Viracochan.Checksum

/-!
# Viracochan: storage and the snapshot store

**Storage.**  The `Storage` interface as the library uses it: `Read`,
`Write`, `List` and `Delete` over a state, each of which may fail with an
error text.  `MemoryStorage` is the in-memory reference: a map from keys to
bytes, whose keys are kept distinct by construction (`MemoryStorage.nodup`);
a missing key reads as `os.ErrNotExist`, and `List` returns the keys that
start with the prefix as a string.

**Paths.** `filepath.Clean`, `Join` and `Base` on slash-separated paths.

**ConfigStorage.** Snapshots live at `Join(prefix, id, "v<version>.json")`.
`Save` writes `json.Marshal(cfg)`; `Load` parses and, when `cs` is set,
validates; `ListVersions` lists the keys under `Join(prefix, id)` and keeps
those whose base name reads as `v%d.json`; `LoadLatest` loads the highest.

**Results.** `MemoryStorage.read_write` and `read_write_of_ne`: a write is
read back and touches no other key; `mem_list`: what `List` returns;
`loadLatest_fails_on_prefix_id`: since `List` matches a raw prefix, the
snapshots of ids `a` and `ab` are not kept apart.
-/

namespace Viracochan

/-! ## The storage interface -/

/-- A `Storage` over states `σ`.  Each operation may fail with an error. -/
structure Storage (σ : Type) where
  read : σ → String → Except String String
  write : σ → String → String → Except String σ
  list : σ → String → Except String (List String)
  delete : σ → String → Except String σ

/-- A storage that reads back what a write stored, when the write succeeded. -/
structure Storage.ReadsBack {σ : Type} (st : Storage σ) : Prop where
  read_write : ∀ s path data s', st.write s path data = .ok s' → st.read s' path = .ok data

/-- A storage whose writes succeed and are read back. -/
structure Storage.Lawful {σ : Type} (st : Storage σ) extends st.ReadsBack : Prop where
  write_ok : ∀ s path data, ∃ s', st.write s path data = .ok s'

/-- A storage whose keys are apart: a write or a delete at one path leaves every
other path as it was. -/
structure Storage.Independent {σ : Type} (st : Storage σ) : Prop where
  read_write_of_ne : ∀ s path data s' other, st.write s path data = .ok s' → other ≠ path →
    st.read s' other = st.read s other
  read_delete_of_ne : ∀ s path s' other, st.delete s path = .ok s' → other ≠ path →
    st.read s' other = st.read s other

/-- A storage whose listings depend only on which keys exist: rewriting a key that
exists lists the same keys, perhaps in another order. -/
structure Storage.ListsKeys {σ : Type} (st : Storage σ) : Prop where
  list_write_of_read : ∀ s path d data s' pre l, st.read s path = .ok d →
    st.write s path data = .ok s' → st.list s pre = .ok l → ∃ l', st.list s' pre = .ok l' ∧ l'.Perm l

/-- A storage whose deletes remove the key: it no longer reads back. -/
structure Storage.Deletes {σ : Type} (st : Storage σ) : Prop where
  read_delete : ∀ s path s', st.delete s path = .ok s' → ∃ e, st.read s' path = .error e

/-- The text of `os.ErrNotExist`. -/
def errNotExist : String :=
  "file does not exist"

/-- `strings.HasPrefix`. -/
def hasPrefix (s pre : String) : Bool :=
  pre.data.isPrefixOf s.data

/-- `strings.HasSuffix`. -/
def hasSuffix (s suf : String) : Bool :=
  suf.data.reverse.isPrefixOf s.data.reverse

/-! ## `MemoryStorage` -/

/-- The bytes stored under `path`. -/
def lookupKey (path : String) : List (String × String) → Option String
  | [] => none
  | (k, d) :: rest => if k = path then some d else lookupKey path rest

/-- The entries without `path`. -/
def eraseKey (path : String) : List (String × String) → List (String × String)
  | [] => []
  | (k, d) :: rest => if k = path then eraseKey path rest else (k, d) :: eraseKey path rest

theorem eraseKey_sublist (path : String) :
    ∀ l : List (String × String), ((eraseKey path l).map Prod.fst).Sublist (l.map Prod.fst)
  | [] => .slnil
  | (k, d) :: rest => by
      unfold eraseKey
      split
      · exact (eraseKey_sublist path rest).cons _
      · exact (eraseKey_sublist path rest).cons₂ _

@[simp] theorem lookupKey_eraseKey_self (path : String) :
    ∀ l : List (String × String), lookupKey path (eraseKey path l) = none
  | [] => rfl
  | (k, d) :: rest => by
      unfold eraseKey
      split
      · exact lookupKey_eraseKey_self path rest
      · rename_i h; simp [lookupKey, h, lookupKey_eraseKey_self path rest]

theorem lookupKey_eraseKey_of_ne {path other : String} (h : other ≠ path) :
    ∀ l : List (String × String), lookupKey other (eraseKey path l) = lookupKey other l
  | [] => rfl
  | (k, d) :: rest => by
      unfold eraseKey
      split
      · rename_i hk
        subst hk
        simp [lookupKey, Ne.symm h, lookupKey_eraseKey_of_ne h rest]
      · simp [lookupKey, lookupKey_eraseKey_of_ne h rest]

theorem not_mem_eraseKey (path : String) :
    ∀ l : List (String × String), path ∉ (eraseKey path l).map Prod.fst
  | [] => by simp [eraseKey]
  | (k, d) :: rest => by
      unfold eraseKey
      split
      · exact not_mem_eraseKey path rest
      · rename_i h
        simpa [Ne.symm h] using not_mem_eraseKey path rest

theorem eraseKey_eraseKey (path : String) :
    ∀ l : List (String × String), eraseKey path (eraseKey path l) = eraseKey path l
  | [] => rfl
  | (k, d) :: rest => by
      by_cases h : k = path <;> simp [eraseKey, h, eraseKey_eraseKey path rest]

/-- The in-memory reference storage: distinct keys and their bytes. -/
structure MemoryStorage where
  data : List (String × String)
  nodup : (data.map Prod.fst).Nodup

namespace MemoryStorage

/-- No key. -/
def empty : MemoryStorage :=
  ⟨[], List.nodup_nil⟩

/-- The map without `path` (`delete`). -/
def erase (ms : MemoryStorage) (path : String) : MemoryStorage :=
  ⟨eraseKey path ms.data, ms.nodup.sublist (eraseKey_sublist path ms.data)⟩

/-- `Read`: a copy of the bytes, or `os.ErrNotExist`. -/
def read (ms : MemoryStorage) (path : String) : Except String String :=
  match lookupKey path ms.data with
  | some d => .ok d
  | none => .error errNotExist

/-- `Write`: the bytes replace whatever was at `path`. -/
def write (ms : MemoryStorage) (path data : String) : MemoryStorage :=
  ⟨(path, data) :: eraseKey path ms.data,
    List.nodup_cons.mpr ⟨not_mem_eraseKey path ms.data, (ms.erase path).nodup⟩⟩

/-- `List`: the keys that start with `prefix`. -/
def list (ms : MemoryStorage) (pre : String) : List String :=
  (ms.data.map Prod.fst).filter fun k => hasPrefix k pre

/-- `MemoryStorage` as a `Storage`: its operations never fail. -/
def storage : Storage MemoryStorage where
  read := read
  write ms path data := .ok (ms.write path data)
  list ms pre := .ok (ms.list pre)
  delete ms path := .ok (ms.erase path)

@[simp] theorem storage_read (ms : MemoryStorage) (path : String) :
    storage.read ms path = ms.read path :=
  rfl

@[simp] theorem storage_write (ms : MemoryStorage) (path data : String) :
    storage.write ms path data = .ok (ms.write path data) :=
  rfl

@[simp] theorem read_write (ms : MemoryStorage) (path data : String) :
    (ms.write path data).read path = .ok data := by
  simp [read, write, lookupKey]

/-- A second write to a key replaces the first. -/
theorem write_write (ms : MemoryStorage) (path d1 d2 : String) :
    (ms.write path d1).write path d2 = ms.write path d2 := by
  simp [write, eraseKey, eraseKey_eraseKey]

theorem read_write_of_ne (ms : MemoryStorage) {path other : String} (data : String)
    (h : other ≠ path) : (ms.write path data).read other = ms.read other := by
  simp [read, write, lookupKey, Ne.symm h, lookupKey_eraseKey_of_ne h]

@[simp] theorem read_erase (ms : MemoryStorage) (path : String) :
    (ms.erase path).read path = .error errNotExist := by
  simp [read, erase]

theorem read_erase_of_ne (ms : MemoryStorage) {path other : String} (h : other ≠ path) :
    (ms.erase path).read other = ms.read other := by
  simp [read, erase, lookupKey_eraseKey_of_ne h]

theorem lawful : storage.Lawful where
  write_ok _ _ _ := ⟨_, rfl⟩
  read_write ms path data s' h := by
    cases h
    exact read_write ms path data

theorem independent : storage.Independent where
  read_write_of_ne ms path data s' other h hne := by
    cases h
    exact read_write_of_ne ms data hne
  read_delete_of_ne ms path s' other h hne := by
    cases h
    exact read_erase_of_ne ms hne

theorem eraseKey_of_not_mem {path : String} :
    ∀ {l : List (String × String)}, path ∉ l.map Prod.fst → eraseKey path l = l
  | [], _ => rfl
  | (k, d) :: rest, h => by
      have hk : k ≠ path := fun hk => h (by simp [hk])
      simp only [eraseKey, if_neg hk, eraseKey_of_not_mem fun hr => h (List.mem_cons_of_mem _ hr)]

/-- Rewriting a present key moves it to the front of the keys. -/
theorem keys_eraseKey_perm {path : String} :
    ∀ {l : List (String × String)}, (l.map Prod.fst).Nodup → lookupKey path l ≠ none →
      (path :: (eraseKey path l).map Prod.fst).Perm (l.map Prod.fst)
  | [], _, h => absurd rfl h
  | (k, d) :: rest, hnd, h => by
      rw [List.map_cons, List.nodup_cons] at hnd
      by_cases hk : k = path
      · subst hk
        rw [eraseKey, if_pos rfl, eraseKey_of_not_mem hnd.1, List.map_cons]
      · rw [eraseKey, if_neg hk, List.map_cons]
        have hr : lookupKey path rest ≠ none := by simpa [lookupKey, hk] using h
        exact (List.Perm.swap _ _ _).trans ((keys_eraseKey_perm hnd.2 hr).cons _)

theorem listsKeys : storage.ListsKeys where
  list_write_of_read ms path d data s' pre l hr hw hl := by
    cases hw
    cases hl
    refine ⟨_, rfl, ?_⟩
    have hk : lookupKey path ms.data ≠ none := by
      intro hn
      simp [storage, read, hn] at hr
    exact (keys_eraseKey_perm ms.nodup hk).filter _

/-- A key is listed when it is present and starts with the prefix. -/
theorem mem_list (ms : MemoryStorage) (pre k : String) :
    k ∈ ms.list pre ↔ k ∈ ms.data.map Prod.fst ∧ hasPrefix k pre = true := by
  simp [list]

/-! ### Storages that fail

The reference storages fail only on missing keys; a wrapped or remote storage
also fails on reads (an I/O error, a decryption error) and on writes (a full
disk).  These two are `MemoryStorage` with one kind of failure added. -/

/-- `MemoryStorage` whose reads all fail with `err`. -/
def failingReads (err : String) : Storage MemoryStorage :=
  { storage with read := fun _ _ => .error err }

/-- `MemoryStorage` whose writes to `path` fail with `err`. -/
def failingWritesTo (path err : String) : Storage MemoryStorage :=
  { storage with write := fun ms p data => if p = path then .error err else .ok (ms.write p data) }

end MemoryStorage

/-! ## Paths -/

/-- The elements `filepath.Clean` keeps, in order: empty and `.` elements
dropped, and each `..` cancelling the element before it; a `..` with nothing
to cancel is kept unless the path is rooted. -/
def cleanElems (rooted : Bool) : List String → List String → List String
  | [], acc => acc.reverse
  | e :: es, acc =>
      if e = "" ∨ e = "." then cleanElems rooted es acc
      else if e = ".." then
        match acc with
        | x :: rest => if x = ".." then cleanElems rooted es (".." :: acc) else cleanElems rooted es rest
        | [] => if rooted then cleanElems rooted es [] else cleanElems rooted es [".."]
      else cleanElems rooted es (e :: acc)

/-- The elements of a slash-separated path. -/
def splitPath (p : String) : List String :=
  (p.data.splitOn '/').map String.mk

/-- `filepath.Clean`: the shortest equivalent path by lexical processing; `.`
for an empty result. -/
def clean (p : String) : String :=
  let rooted := p.data.head? = some '/'
  let body := "/".intercalate (cleanElems rooted (splitPath p) [])
  if rooted then "/" ++ body else if body = "" then "." else body

/-- `filepath.Join`: the elements from the first non-empty one, joined with
slashes and cleaned; empty when all are empty. -/
def join (elems : List String) : String :=
  match elems.dropWhile (· = "") with
  | [] => ""
  | es => clean ("/".intercalate es)

/-- `filepath.Base`: the last element after trailing slashes are dropped; `.`
for an empty path, `/` for a path of slashes. -/
def base (p : String) : String :=
  if p = "" then "."
  else
    let q := p.data.reverse.dropWhile (· = '/')
    if q = [] then "/" else String.mk (q.takeWhile (· ≠ '/')).reverse

/-- The space characters `fmt` skips before a number; in `Sscanf` a newline
is not one of them but an error. -/
def isScanSpace (c : Char) : Bool :=
  c ≠ '\n' && (('\t' ≤ c && c ≤ '\r') || c = ' ' || c = '\u0085' || c = '\u00A0' ||
    c = '\u1680' || ('\u2000' ≤ c && c ≤ '\u200A') || c = '\u2028' || c = '\u2029' ||
    c = '\u202F' || c = '\u205F' || c = '\u3000')

/-- `fmt.Sscanf(base, "v%d.json", &v)`: a `v`, spaces, the longest run of
digits (a `uint64`), then `.json`; whatever follows is ignored. -/
def scanVersion (b : String) : Option UInt64 :=
  match b.data with
  | 'v' :: rest =>
      let rest := rest.dropWhile isScanSpace
      let ds := rest.takeWhile Char.isDigit
      match Json.parseUint ds with
      | some v => if (rest.dropWhile Char.isDigit).take 5 = ".json".data then some v else none
      | none => none
  | _ => none

section ConfigStorage

variable {σ : Type} (st : Storage σ) (float64Text : List Char → Option (List Char))
  (sha256 : String → List UInt8) (pre : String)

/-- `ConfigStorage.makeKey`. -/
def makeKey (id : String) (version : UInt64) : String :=
  join [pre, id, "v" ++ String.mk (decimal version.toNat) ++ ".json"]

/-- `ConfigStorage.Save`. -/
def save (s : σ) (id : String) (cfg : Config) : Except String σ :=
  match marshalConfig cfg with
  | .ok data => st.write s (makeKey pre id cfg.meta.version) (String.mk data)
  | .error e => .error e

/-- `ConfigStorage.Load`: parse, and validate when the checksum is set. -/
def load (s : σ) (id : String) (version : UInt64) : Except String Config := do
  let data ← st.read s (makeKey pre id version)
  match unmarshalConfig data.data with
  | .error e => .error e.text
  | .ok cfg =>
      if cfg.meta.cs = "" then pure cfg
      else
        match validate float64Text sha256 cfg with
        | .ok () => pure cfg
        | .error e => .error ("invalid config: " ++ e)

/-- `ConfigStorage.ListVersions`. -/
def listVersions (s : σ) (id : String) : Except String (List UInt64) := do
  let paths ← st.list s (join [pre, id])
  pure (paths.filterMap fun p =>
    let b := base p
    if hasPrefix b "v" && hasSuffix b ".json" then scanVersion b else none)

/-- The largest of a non-empty list of versions, as the loop of `LoadLatest`
finds it. -/
def maxVersion : UInt64 → List UInt64 → UInt64
  | m, [] => m
  | m, v :: vs => maxVersion (if v > m then v else m) vs

/-- `ConfigStorage.LoadLatest`. -/
def loadLatest (s : σ) (id : String) : Except String Config := do
  let versions ← listVersions st pre s id
  match versions with
  | [] => .error errNotExist
  | v :: vs => load st float64Text sha256 pre s id (maxVersion v vs)

end ConfigStorage

theorem save_memoryStorage {c : Config} {b : List Char} (h : marshalConfig c = .ok b)
    (pre : String) (ms : MemoryStorage) (id : String) :
    save MemoryStorage.storage pre ms id c =
      .ok (ms.write (makeKey pre id c.meta.version) (String.mk b)) := by
  unfold save
  simp only [h]
  rfl

theorem GoTime.marshalJSON_unixEpoch :
    (GoTime.mk 0 0).marshalJSON = .ok "\"1970-01-01T00:00:00Z\"".data := by
  rfl

theorem marshalWith_nil_content :
    marshalWith "json.RawMessage" (rawMessageJSON none) = .ok (.lit "null".data) := by
  rfl

/-- A config with only a version set can be saved. -/
theorem marshalConfig_version_only (v : UInt64) :
    ∃ b, marshalConfig ⟨⟨v, ⟨0, 0⟩, "", "", ""⟩, none⟩ = .ok b :=
  ⟨_, marshalConfig_eq.mpr ⟨_, _, GoTime.marshalJSON_unixEpoch, marshalWith_nil_content, rfl⟩⟩

/-- In `MemoryStorage`, `List` matches keys by a raw string prefix, so the
versions of id `ab` are listed as versions of id `a`, and `LoadLatest("a")`
tries to load `configs/a/v5.json`, which does not exist. -/
theorem loadLatest_fails_on_prefix_id (float64Text : List Char → Option (List Char))
    (sha256 : String → List UInt8) :
    ∃ ms1 ms2, save MemoryStorage.storage "configs" .empty "a" ⟨⟨1, ⟨0, 0⟩, "", "", ""⟩, none⟩ = .ok ms1 ∧
      save MemoryStorage.storage "configs" ms1 "ab" ⟨⟨5, ⟨0, 0⟩, "", "", ""⟩, none⟩ = .ok ms2 ∧
      listVersions MemoryStorage.storage "configs" ms2 "a" = .ok [5, 1] ∧
      loadLatest MemoryStorage.storage float64Text sha256 "configs" ms2 "a" = .error errNotExist := by
  obtain ⟨b1, h1⟩ := marshalConfig_version_only 1
  obtain ⟨b5, h5⟩ := marshalConfig_version_only 5
  have k1 : makeKey "configs" "a" 1 = "configs/a/v1.json" := by decide
  have k5 : makeKey "configs" "ab" 5 = "configs/ab/v5.json" := by decide
  have hlist : listVersions MemoryStorage.storage "configs"
      ((MemoryStorage.empty.write "configs/a/v1.json" (String.mk b1)).write "configs/ab/v5.json"
        (String.mk b5)) "a" = .ok [5, 1] := rfl
  refine ⟨_, _, by simp only [save_memoryStorage h1, k1]; rfl,
    by simp only [save_memoryStorage h5, k5], hlist, ?_⟩
  have k : makeKey "configs" "a" 5 = "configs/a/v5.json" := by decide
  simp only [loadLatest, hlist, maxVersion, except_ok_bind]
  simp only [load, MemoryStorage.storage, k]
  rw [MemoryStorage.read_write_of_ne _ _ (by decide), MemoryStorage.read_write_of_ne _ _ (by decide)]
  rfl

/-! ## Saving and loading a snapshot -/

/-- `Save` over a lawful storage writes the encoding under the config's key. -/
theorem save_spec {σ : Type} {st : Storage σ} (hst : st.Lawful) (pre : String) (s : σ)
    (id : String) {c : Config} {b : List Char} (hb : marshalConfig c = .ok b) :
    ∃ s', save st pre s id c = .ok s' ∧
      st.read s' (makeKey pre id c.meta.version) = .ok (String.mk b) := by
  obtain ⟨s', hs'⟩ := hst.write_ok s (makeKey pre id c.meta.version) (String.mk b)
  exact ⟨s', by unfold save; simp only [hb]; exact hs', hst.read_write _ _ _ _ hs'⟩

/-- What a successful `Save` did: encode the config and write it under its key. -/
theorem save_eq_ok {σ : Type} {st : Storage σ} {pre : String} {s s' : σ} {id : String}
    {c : Config} (h : save st pre s id c = .ok s') :
    ∃ b, marshalConfig c = .ok b ∧ st.write s (makeKey pre id c.meta.version) (String.mk b) = .ok s' := by
  unfold save at h
  split at h
  · exact ⟨_, ‹_›, h⟩
  · cases h

section RoundTrip

variable (float64Text : List Char → Option (List Char)) (sha256 : String → List UInt8)

/-- `Load` of a snapshot that decodes to a config that validates. -/
theorem load_of_read {σ : Type} {st : Storage σ} {pre : String} {s : σ} {id : String}
    {version : UInt64} {b : List Char} {c : Config}
    (hr : st.read s (makeKey pre id version) = .ok (String.mk b)) (hu : unmarshalConfig b = .ok c)
    (hv : validate float64Text sha256 c = .ok ()) :
    load st float64Text sha256 pre s id version = .ok c := by
  simp only [load, hr, except_ok_bind, hu]
  split
  · rfl
  · simp only [hv, except_pure]

/-- What `Load` returns: the snapshot read back, validated unless its checksum is empty. -/
theorem load_eq_ok {σ : Type} {st : Storage σ} {pre : String} {s : σ} {id : String}
    {version : UInt64} {c : Config} (h : load st float64Text sha256 pre s id version = .ok c) :
    ∃ data, st.read s (makeKey pre id version) = .ok data ∧ unmarshalConfig data.data = .ok c ∧
      (c.meta.cs ≠ "" → validate float64Text sha256 c = .ok ()) := by
  obtain ⟨data, hr, h⟩ := except_bind_eq_ok.mp h
  refine ⟨data, hr, ?_⟩
  cases hu : unmarshalConfig data.data with
  | error e => rw [hu] at h; cases h
  | ok cfg =>
      rw [hu] at h
      simp only at h
      split at h
      · cases h
        exact ⟨rfl, fun hc => absurd ‹_› hc⟩
      · split at h
        · cases h
          exact ⟨rfl, fun _ => ‹_›⟩
        · cases h

/-- `Load` of a snapshot whose checksum is empty returns it unchecked. -/
theorem load_of_read_unchecked {σ : Type} {st : Storage σ} {pre : String} {s : σ} {id : String}
    {version : UInt64} {b : List Char} {c : Config}
    (hr : st.read s (makeKey pre id version) = .ok (String.mk b)) (hu : unmarshalConfig b = .ok c)
    (hcs : c.meta.cs = "") : load st float64Text sha256 pre s id version = .ok c := by
  simp only [load, hr, except_ok_bind, hu, hcs, if_true]
  rfl

/-- Re-encoding the content keeps the checksum, so a config and its reread
copy validate alike. -/
theorem validate_reread {c : Config} {b : List Char} (hb : marshalConfig c = .ok b)
    (hc : c.content ≠ none) :
    validate float64Text sha256 c.reread = validate float64Text sha256 c := by
  obtain ⟨s0, hs0⟩ := Option.ne_none_iff_exists'.mp hc
  obtain ⟨-, cv, -, hcv, -⟩ := marshalConfig_eq.mp hb
  have hm : marshalledContent c.content =
      .ok (String.mk (Json.render (Json.bare cv.tokens) [])) := by
    simp only [marshalledContent, hcv]
    rfl
  simp only [validate, computeChecksum_reread float64Text sha256 hs0 hm]
  rfl

/-- **Save then load.**  A config whose content is set, whose encoding
succeeds and whose time has a whole-minute zone offset is read back by
`json.Unmarshal` as its reread copy: the same metadata, the content
re-encoded, and it validates when the config does.  `Load` after `Save` over a
lawful storage returns that copy. -/
theorem load_save {σ : Type} {st : Storage σ} (hst : st.Lawful) (pre : String) (s : σ)
    (id : String) {c : Config} {b : List Char} (hv : validate float64Text sha256 c = .ok ())
    (hc : c.content ≠ none) (hb : marshalConfig c = .ok b) (hz : c.meta.time.offset % 60 = 0) :
    unmarshalConfig b = .ok c.reread ∧ c.reread.meta = c.meta ∧
      validate float64Text sha256 c.reread = .ok () ∧
      ∃ s', save st pre s id c = .ok s' ∧
        load st float64Text sha256 pre s' id c.meta.version = .ok c.reread := by
  have hu := unmarshalConfig_marshalConfig hb hz
  have hv' : validate float64Text sha256 c.reread = .ok () := by
    rw [validate_reread float64Text sha256 hb hc, hv]
  obtain ⟨s', hs', hr⟩ := save_spec hst pre s id hb
  exact ⟨hu, rfl, hv', s', hs', load_of_read float64Text sha256 hr hu hv'⟩

theorem load_save_epoch_config :
    ∃ (c : Config) (b : List Char), c.content = some "1" ∧ marshalConfig c = .ok b ∧
      validate (fun t => some t) codePointDigest c = .ok () ∧
      unmarshalConfig b = .ok c.reread ∧ c.reread.meta = c.meta ∧
      validate (fun t => some t) codePointDigest c.reread = .ok () ∧
      ∃ s', save MemoryStorage.storage "configs" MemoryStorage.empty "cfg" c = .ok s' ∧
        load MemoryStorage.storage (fun t => some t) codePointDigest "configs" s' "cfg"
          c.meta.version = .ok c.reread := by
  obtain ⟨cs, hcs⟩ : ∃ cs, computeChecksum (fun t => some t) codePointDigest
      ⟨⟨1, ⟨0, 0⟩, "", "", ""⟩, some "1"⟩ = .ok cs := ⟨_, rfl⟩
  have hv : validate (fun t => some t) codePointDigest ⟨⟨1, ⟨0, 0⟩, "", cs, ""⟩, some "1"⟩ = .ok () := by
    have h := computeChecksum_cs_signature (fun t => some t) codePointDigest
      ⟨⟨1, ⟨0, 0⟩, "", "", ""⟩, some "1"⟩ cs ""
    simp only [validate, h, hcs, if_true]
  have hcv : marshalWith "json.RawMessage" (rawMessageJSON (some "1")) = .ok (.num "1".data) := rfl
  have hb := (marshalConfig_eq (c := ⟨⟨1, ⟨0, 0⟩, "", cs, ""⟩, some "1"⟩)).mpr
    ⟨_, _, GoTime.marshalJSON_unixEpoch, hcv, rfl⟩
  exact ⟨_, _, rfl, hb, hv, load_save (fun t => some t) codePointDigest MemoryStorage.lawful "configs"
    MemoryStorage.empty "cfg" hv (by simp) hb rfl⟩

/-- A config whose time does not encode cannot be saved. -/
theorem save_time_error {σ : Type} (st : Storage σ) (pre : String) (s : σ) (id : String)
    {c : Config} {e : String} (h : c.meta.time.marshalJSON = .error e) :
    save st pre s id c =
      .error (marshalerError "*viracochan.Config" (marshalerError "time.Time" e)) := by
  have hm : c.meta.toValue = .error (marshalerError "time.Time" e) := by
    rw [Meta.toValue, h]
    rfl
  have hc : c.marshalJSON = .error (marshalerError "time.Time" e) := by
    rw [Config.marshalJSON, Config.toValue, hm]
    rfl
  have hb : marshalConfig c =
      .error (marshalerError "*viracochan.Config" (marshalerError "time.Time" e)) := by
    rw [marshalConfig, hc]
    rfl
  unfold save
  rw [hb]

theorem GoTime.marshalJSON_day_long_zone :
    (GoTime.mk 0 86400).marshalJSON =
      .error "Time.MarshalJSON: timezone hour outside of range [0,23]" := by
  rfl

/-- A config whose zone is a day ahead of UTC validates, since the checksum
reads the time in UTC, but `json.Marshal` rejects its time, so it cannot be
saved. -/
theorem save_fails_on_day_long_zone :
    ∃ c : Config, validate (fun t => some t) codePointDigest c = .ok () ∧
      save MemoryStorage.storage "configs" MemoryStorage.empty "cfg" c =
        .error ("json: error calling MarshalJSON for type *viracochan.Config: " ++
          "json: error calling MarshalJSON for type time.Time: " ++
          "Time.MarshalJSON: timezone hour outside of range [0,23]") := by
  obtain ⟨cs, hcs⟩ : ∃ cs, computeChecksum (fun t => some t) codePointDigest
      ⟨⟨1, ⟨0, 86400⟩, "", "", ""⟩, some "1"⟩ = .ok cs := ⟨_, rfl⟩
  refine ⟨⟨⟨1, ⟨0, 86400⟩, "", cs, ""⟩, some "1"⟩, ?_, save_time_error _ _ _ _ GoTime.marshalJSON_day_long_zone⟩
  have h := computeChecksum_cs_signature (fun t => some t) codePointDigest
    ⟨⟨1, ⟨0, 86400⟩, "", "", ""⟩, some "1"⟩ cs ""
  simp only [validate, h, hcs, if_true]

/-- A config at the Unix epoch with content `1` is written and read back as it is. -/
theorem marshalConfig_epoch_one (m : Meta) (ht : m.time = ⟨0, 0⟩) :
    ∃ b, marshalConfig ⟨m, some "1"⟩ = .ok b ∧ Config.reread ⟨m, some "1"⟩ = ⟨m, some "1"⟩ := by
  have hcv : marshalWith "json.RawMessage" (rawMessageJSON (some "1")) = .ok (.num ['1']) := rfl
  refine ⟨_, marshalConfig_eq.mpr ⟨_, _, ht ▸ GoTime.marshalJSON_unixEpoch, hcv, rfl⟩, ?_⟩
  rw [reread_of_marshalWith hcv]
  rfl

end RoundTrip

/-! ## The latest snapshot does not depend on the order of the listing -/

theorem maxVersion_mem : ∀ (m : UInt64) (vs : List UInt64), maxVersion m vs ∈ m :: vs
  | m, [] => List.mem_singleton_self m
  | m, v :: vs => by
      rcases List.mem_cons.mp (maxVersion_mem (if v > m then v else m) vs) with h | h
      · rw [maxVersion, h]
        split <;> simp
      · rw [maxVersion]
        exact List.mem_cons_of_mem _ (List.mem_cons_of_mem _ h)

theorem le_maxVersion : ∀ (m : UInt64) (vs : List UInt64),
    ∀ x ∈ m :: vs, x.toNat ≤ (maxVersion m vs).toNat
  | m, [], x, hx => by rw [List.mem_singleton.mp hx]; rfl
  | m, v :: vs, x, hx => by
      have ih := le_maxVersion (if v > m then v else m) vs
      have hm := ih _ (List.mem_cons_self _ _)
      have hmv : m.toNat ≤ (if v > m then v else m).toNat ∧ v.toNat ≤ (if v > m then v else m).toNat := by
        split
        · exact ⟨Nat.le_of_lt ‹v > m›, le_rfl⟩
        · exact ⟨le_rfl, Nat.le_of_not_lt ‹¬v > m›⟩
      rw [maxVersion]
      rcases List.mem_cons.mp hx with rfl | hx
      · omega
      · rcases List.mem_cons.mp hx with rfl | hx
        · omega
        · exact ih x (List.mem_cons_of_mem _ hx)

/-- The loop of `LoadLatest` finds the largest version whatever the order of the
listing. -/
theorem maxVersion_perm {v w : UInt64} {vs ws : List UInt64} (h : (v :: vs).Perm (w :: ws)) :
    maxVersion v vs = maxVersion w ws :=
  UInt64.toNat.inj (Nat.le_antisymm (le_maxVersion w ws _ (h.subset (maxVersion_mem v vs)))
    (le_maxVersion v vs _ (h.symm.subset (maxVersion_mem w ws))))

/-- `LoadLatest` after a change of storage that lists the same keys and loads what
was loaded before. -/
theorem loadLatest_of_load {σ : Type} {st : Storage σ} (float64Text : List Char → Option (List Char))
    (sha256 : String → List UInt8) {pre : String} {s s' : σ} {id : String} {l l' : List String}
    (hl : st.list s (join [pre, id]) = .ok l) (hl' : st.list s' (join [pre, id]) = .ok l')
    (hp : l'.Perm l)
    (hload : ∀ v c, load st float64Text sha256 pre s id v = .ok c →
      load st float64Text sha256 pre s' id v = .ok c)
    {c : Config} (h : loadLatest st float64Text sha256 pre s id = .ok c) :
    loadLatest st float64Text sha256 pre s' id = .ok c := by
  have hv := hp.filterMap fun p =>
    if hasPrefix (base p) "v" && hasSuffix (base p) ".json" then scanVersion (base p) else none
  simp only [loadLatest, listVersions, hl, hl', except_ok_bind, except_pure] at h ⊢
  revert hv h
  generalize List.filterMap _ l = vs
  generalize List.filterMap _ l' = ws
  intro hv h
  rcases vs with _ | ⟨v, vs⟩
  · cases h
  · rcases ws with _ | ⟨w, ws⟩
    · exact absurd hv.symm.eq_nil (List.cons_ne_nil _ _)
    · dsimp only at h ⊢
      rw [maxVersion_perm hv]
      exact hload _ _ h

end Viracochan
