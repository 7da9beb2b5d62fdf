import Viracochan.Journal.Log

/-!
# Viracochan: copying one storage into another

The migration demo copies a storage into another in two ways.

`migrateStorage` lists the keys of the source under the empty prefix and, for each
key in the order listed, reads it from the source and writes the bytes to the
target.  A key whose read or write fails is skipped and not counted.  It answers an
error when the listing fails, or when it copied fewer keys than were listed.

`validateAndMigrate` sorts the listed keys into configs, those that contain
`/configs/`, and journals, the others that end in `.jsonl` or `.journal`.  It copies
the configs whose bytes decode as a config that validates, then the journals, and
answers nil once the listing succeeded.  The signer it is handed is not used.

Both loops are `copyIf` folded over keys.  The progress lines they print are not
modelled.

**Results.**
* `migrate_copies`: over a target whose writes succeed and are read back and whose
  keys are apart, the migration answers nil exactly when the listing succeeds and every
  listed key reads; and then every listed key reads in the target as in the source,
  and every other key of the target as before.
* `migrate_memory_reads_same`: so copying a `MemoryStorage` into an empty one
  answers nil and gives a storage that reads as the source at every key.
* `validated_migration_copies`: what `validateAndMigrate` leaves at each key of a
  target whose writes succeed (it drops the errors of the target's writes).  The
  snapshot keys a `Manager` writes, `configs/<id>/v<n>.json`, need not contain
  `/configs/`, and then no snapshot is copied, whatever its bytes.
-/

namespace Viracochan

section Migrate

variable {σ τ : Type} (source : Storage σ) (target : Storage τ)

/-- One key of a copy loop: read it from the source and, when `keep` accepts its
bytes, write them to the target, which stays as it was on any failure. -/
def copyIf (keep : String → Bool) (s : σ) (t : τ) (file : String) : τ :=
  match source.read s file with
  | .error _ => t
  | .ok data =>
      if keep data then
        match target.write t file data with
        | .ok t' => t'
        | .error _ => t
      else t

/-- The loop of `migrateStorage`: the target and the count of keys copied, after
each listed key in turn. -/
def migrateLoop (s : σ) : List String → τ × Nat → τ × Nat
  | [], acc => acc
  | file :: files, (t, migrated) =>
      match source.read s file with
      | .error _ => migrateLoop s files (t, migrated)
      | .ok data =>
          match target.write t file data with
          | .error _ => migrateLoop s files (t, migrated)
          | .ok t' => migrateLoop s files (t', migrated + 1)

/-- `migrateStorage`: the target after the copy, and the error answered. -/
def migrateStorage (s : σ) (t : τ) : τ × Except String Unit :=
  match source.list s "" with
  | .error e => (t, .error ("failed to list source files: " ++ e))
  | .ok files =>
      let r := migrateLoop source target s files (t, 0)
      if r.2 < files.length then
        (r.1, .error ("incomplete migration: " ++ String.mk (decimal r.2) ++ "/" ++
          String.mk (decimal files.length) ++ " files"))
      else (r.1, .ok ())

/-- A key `validateAndMigrate` takes for a config: it contains `/configs/`. -/
def isConfigFile (file : String) : Bool :=
  Journal.containsText "/configs/".data file.data

/-- A key `validateAndMigrate` takes for a journal: it ends in `.jsonl` or `.journal`. -/
def isJournalFile (file : String) : Bool :=
  hasSuffix file ".jsonl" || hasSuffix file ".journal"

/-- The bytes `validateAndMigrate` copies for a config: they decode as a config that
validates. -/
def validConfigData (float64Text : List Char → Option (List Char))
    (sha256 : String → List UInt8) (data : String) : Bool :=
  match unmarshalConfig data.data with
  | .error _ => false
  | .ok cfg =>
      match validate float64Text sha256 cfg with
      | .ok () => true
      | .error _ => false

/-- `validateAndMigrate`: the target after the copy, and the error answered. -/
def validateAndMigrate (float64Text : List Char → Option (List Char))
    (sha256 : String → List UInt8) (s : σ) (t : τ) : τ × Except String Unit :=
  match source.list s "" with
  | .error e => (t, .error e)
  | .ok files =>
      let configs := files.filter isConfigFile
      let journals := files.filter fun f => !isConfigFile f && isJournalFile f
      let t1 := configs.foldl (copyIf source target (validConfigData float64Text sha256) s) t
      (journals.foldl (copyIf source target (fun _ => true) s) t1, .ok ())

/-! ## The loops -/

variable {source target} {s : σ}

theorem migrateLoop_count_le :
    ∀ (files : List String) (t : τ) (n : Nat), (migrateLoop source target s files (t, n)).2 ≤
      n + files.length
  | [], _, _ => Nat.le_add_right _ _
  | file :: files, t, n => by
      simp only [migrateLoop, List.length_cons]
      split
      · exact (migrateLoop_count_le files t n).trans (by omega)
      · split
        · exact (migrateLoop_count_le files t n).trans (by omega)
        · exact (migrateLoop_count_le files _ _).trans (by omega)

/-- Over a target whose writes succeed, the loop counts every key exactly when
every key reads. -/
theorem migrateLoop_count_eq (hst : target.Lawful) :
    ∀ (files : List String) (t : τ) (n : Nat),
      (migrateLoop source target s files (t, n)).2 = n + files.length ↔
        ∀ f ∈ files, ∃ d, source.read s f = .ok d
  | [], _, _ => by simp [migrateLoop]
  | file :: files, t, n => by
      simp only [migrateLoop, List.length_cons, List.forall_mem_cons]
      cases hr : source.read s file with
      | error e =>
          have : (migrateLoop source target s files (t, n)).2 ≤ n + files.length :=
            migrateLoop_count_le files t n
          simp only [reduceCtorEq, exists_false, false_and, iff_false]
          omega
      | ok d =>
          obtain ⟨t', hw⟩ := hst.write_ok t file d
          rw [show n + (files.length + 1) = n + 1 + files.length by omega]
          simp only [hw, migrateLoop_count_eq hst files t' (n + 1), Except.ok.injEq, exists_eq',
            true_and]

/-- The loop of `migrateStorage` writes what copying every key would. -/
theorem migrateLoop_fst :
    ∀ (files : List String) (t : τ) (n : Nat),
      (migrateLoop source target s files (t, n)).1 = files.foldl (copyIf source target (fun _ => true) s) t
  | [], _, _ => rfl
  | file :: files, t, n => by
      simp only [migrateLoop, List.foldl_cons, copyIf, if_true]
      cases source.read s file with
      | error e => exact migrateLoop_fst files t n
      | ok d =>
          cases hw : target.write t file d <;> simp only [hw] <;> exact migrateLoop_fst files _ _

section Copy

variable (hst : target.Lawful) (hind : target.Independent)
include hst hind

/-- What one copy leaves at a key: the source's bytes at the key copied when they
read and are kept; what the target held everywhere else. -/
theorem read_copyIf (keep : String → Bool) (t : τ) (file k : String) :
    target.read (copyIf source target keep s t file) k =
      match source.read s k with
      | .ok d => if k = file ∧ keep d = true then .ok d else target.read t k
      | .error _ => target.read t k := by
  by_cases hk : k = file
  · subst hk
    unfold copyIf
    cases source.read s k with
    | error e => rfl
    | ok d =>
        by_cases hd : keep d = true
        · obtain ⟨t', hw⟩ := hst.write_ok t k d
          simp only [hd, if_true, hw, true_and]
          exact hst.read_write _ _ _ _ hw
        · simp [hd]
  · have hframe : target.read (copyIf source target keep s t file) k = target.read t k := by
      unfold copyIf
      split
      · rfl
      · split
        · split
          · next hw => exact hind.read_write_of_ne _ _ _ _ _ hw hk
          · rfl
        · rfl
    rw [hframe]
    split <;> simp only [hk, false_and, if_false]

/-- What a copy loop leaves at a key: the source's bytes when the key was in the loop,
reads in the source and its bytes were kept; what the target held otherwise. -/
theorem read_foldl_copyIf (keep : String → Bool) (k : String) :
    ∀ (L : List String) (t : τ), target.read (L.foldl (copyIf source target keep s) t) k =
      match source.read s k with
      | .ok d => if k ∈ L ∧ keep d = true then .ok d else target.read t k
      | .error _ => target.read t k
  | [], t => by split <;> simp
  | file :: L, t => by
      rw [List.foldl_cons, read_foldl_copyIf keep k L, read_copyIf hst hind]
      split
      · next d _ =>
          by_cases hk : k ∈ L <;> by_cases hf : k = file <;> by_cases hd : keep d = true <;>
            simp [hk, hf, hd]
      · rfl

end Copy

/-! ## The migration -/

/-- Over a target whose writes succeed, a migration answers nil exactly when the
source lists its keys and every listed key reads. -/
theorem migrateStorage_ok_iff (hst : target.Lawful) (t : τ) :
    (migrateStorage source target s t).2 = .ok () ↔
      ∃ files, source.list s "" = .ok files ∧ ∀ f ∈ files, ∃ d, source.read s f = .ok d := by
  cases hl : source.list s "" with
  | error e => simp [migrateStorage, hl]
  | ok files =>
      have hc : (migrateLoop source target s files (t, 0)).2 = 0 + files.length ↔ _ :=
        migrateLoop_count_eq hst files t 0
      have hle : (migrateLoop source target s files (t, 0)).2 ≤ 0 + files.length :=
        migrateLoop_count_le files t 0
      rw [Nat.zero_add] at hc hle
      simp only [migrateStorage, hl, Except.ok.injEq, exists_eq_left']
      split
      · simp only [reduceCtorEq, false_iff]
        exact fun h => absurd (hc.mpr h) (by omega)
      · exact ⟨fun _ => hc.mp (by omega), fun _ => rfl⟩

/-- After a migration that answered nil, over a target that reads back what it wrote
and keeps its keys apart, every key the source listed reads in the target as in the
source, and every other key of the target reads as before. -/
theorem migrateStorage_read (hst : target.Lawful) (hind : target.Independent) {t : τ}
    (h : (migrateStorage source target s t).2 = .ok ()) :
    ∃ files, source.list s "" = .ok files ∧ ∀ k,
      target.read (migrateStorage source target s t).1 k =
        if k ∈ files then source.read s k else target.read t k := by
  obtain ⟨files, hl, hread⟩ := (migrateStorage_ok_iff hst t).mp h
  refine ⟨files, hl, fun k => ?_⟩
  have ht : (migrateStorage source target s t).1 = (migrateLoop source target s files (t, 0)).1 := by
    simp only [migrateStorage, hl]
    split <;> rfl
  rw [ht, migrateLoop_fst, read_foldl_copyIf hst hind]
  by_cases hk : k ∈ files
  · obtain ⟨d, hd⟩ := hread k hk
    simp [hk, hd]
  · split <;> simp [hk]

/-- **A migration copies the source, or says it did not.**  Over a target whose
writes succeed and are read back and whose keys are apart, `migrateStorage` answers nil exactly when
the source lists its keys and every listed key reads; and when it does, every listed
key reads in the target as in the source, and every other key of the target reads as
before. -/
theorem migrate_copies (hst : target.Lawful) (hind : target.Independent) (t : τ) :
    ((migrateStorage source target s t).2 = .ok () ↔
      ∃ files, source.list s "" = .ok files ∧ ∀ f ∈ files, ∃ d, source.read s f = .ok d) ∧
    ((migrateStorage source target s t).2 = .ok () →
      ∃ files, source.list s "" = .ok files ∧ ∀ k,
        target.read (migrateStorage source target s t).1 k =
          if k ∈ files then source.read s k else target.read t k) :=
  ⟨migrateStorage_ok_iff hst t, migrateStorage_read hst hind⟩

/-- The copy of a `MemoryStorage` of one key into an empty one. -/
theorem migrate_copies_one :
    MemoryStorage.storage.Lawful ∧ MemoryStorage.storage.Independent ∧
      (((migrateStorage MemoryStorage.storage MemoryStorage.storage
          (MemoryStorage.empty.write "a" "1") .empty).2 = .ok () ↔
        ∃ files, MemoryStorage.storage.list (MemoryStorage.empty.write "a" "1") "" = .ok files ∧
          ∀ f ∈ files, ∃ d, MemoryStorage.storage.read (MemoryStorage.empty.write "a" "1") f =
            .ok d) ∧
      ((migrateStorage MemoryStorage.storage MemoryStorage.storage
          (MemoryStorage.empty.write "a" "1") .empty).2 = .ok () →
        ∃ files, MemoryStorage.storage.list (MemoryStorage.empty.write "a" "1") "" = .ok files ∧
          ∀ k, MemoryStorage.storage.read (migrateStorage MemoryStorage.storage
              MemoryStorage.storage (MemoryStorage.empty.write "a" "1") .empty).1 k =
            if k ∈ files then MemoryStorage.storage.read (MemoryStorage.empty.write "a" "1") k
            else MemoryStorage.storage.read .empty k)) :=
  ⟨MemoryStorage.lawful, MemoryStorage.independent,
    migrate_copies MemoryStorage.lawful MemoryStorage.independent _⟩

/-- **What a validated migration writes.**  Over a target whose writes succeed and
are read back and whose keys are apart, once the listing succeeded, `validateAndMigrate`
answers nil and leaves at each key the source's bytes when the key was listed, reads
in the source, and either contains `/configs/` and its bytes decode as a config that
validates, or does not and ends in `.jsonl` or `.journal`; every other key of the
target reads as before. -/
theorem validated_migration_copies (hst : target.Lawful) (hind : target.Independent)
    (float64Text : List Char → Option (List Char)) (sha256 : String → List UInt8)
    {files : List String} (hl : source.list s "" = .ok files) (t : τ) (k : String) :
    (validateAndMigrate source target float64Text sha256 s t).2 = .ok () ∧
      target.read (validateAndMigrate source target float64Text sha256 s t).1 k =
        match source.read s k with
        | .ok d =>
            if k ∈ files ∧ (isConfigFile k = true ∧ validConfigData float64Text sha256 d = true ∨
                isConfigFile k = false ∧ isJournalFile k = true) then .ok d
            else target.read t k
        | .error _ => target.read t k := by
  simp only [validateAndMigrate, hl, true_and]
  rw [read_foldl_copyIf hst hind, read_foldl_copyIf hst hind]
  split
  · next d _ =>
      by_cases hk : k ∈ files <;> cases hc : isConfigFile k <;>
        simp [hk, hc, List.mem_filter]
  · rfl

/-- The validated migration of a `MemoryStorage` holding a journal and, at the key a
`Manager` saves version 1 of `production-config` under, any bytes: it answers nil,
copies the journal, and not the snapshot, whose key does not contain `/configs/`. -/
theorem validated_migration_drops_snapshot :
    let src := (MemoryStorage.empty.write (makeKey "configs" "production-config" 1) "x").write
      "journal.jsonl" "j"
    makeKey "configs" "production-config" 1 = "configs/production-config/v1.json" ∧
      (validateAndMigrate MemoryStorage.storage MemoryStorage.storage (fun t => some t)
        codePointDigest src .empty).2 = .ok () ∧
      (validateAndMigrate MemoryStorage.storage MemoryStorage.storage (fun t => some t)
        codePointDigest src .empty).1.read (makeKey "configs" "production-config" 1) =
          .error errNotExist ∧
      (validateAndMigrate MemoryStorage.storage MemoryStorage.storage (fun t => some t)
        codePointDigest src .empty).1.read "journal.jsonl" = .ok "j" := by
  intro src
  have hkey : makeKey "configs" "production-config" 1 = "configs/production-config/v1.json" := by
    decide
  have hl : MemoryStorage.storage.list src "" =
      .ok ["journal.jsonl", "configs/production-config/v1.json"] := by
    simp only [src, hkey]
    rfl
  obtain ⟨hok, hsnap⟩ := validated_migration_copies MemoryStorage.lawful
    MemoryStorage.independent (fun t => some t) codePointDigest hl .empty
    (makeKey "configs" "production-config" 1)
  obtain ⟨-, hjournal⟩ := validated_migration_copies MemoryStorage.lawful
    MemoryStorage.independent (fun t => some t) codePointDigest hl .empty "journal.jsonl"
  refine ⟨hkey, hok, ?_, ?_⟩
  · rw [← MemoryStorage.storage_read, hsnap, hkey]
    decide
  · rw [← MemoryStorage.storage_read, hjournal]
    decide

end Migrate

/-! ## Copying a `MemoryStorage` -/

namespace MemoryStorage

theorem read_ok_of_mem {k : String} :
    ∀ {l : List (String × String)}, k ∈ l.map Prod.fst → ∃ d, lookupKey k l = some d
  | [], h => absurd h (List.not_mem_nil k)
  | (k', d) :: rest, h => by
      by_cases hk : k' = k
      · exact ⟨d, by simp [lookupKey, hk]⟩
      · have hr : k ∈ rest.map Prod.fst := by
          simpa [Ne.symm hk] using h
        simpa [lookupKey, hk] using read_ok_of_mem hr

theorem lookupKey_of_not_mem {k : String} :
    ∀ {l : List (String × String)}, k ∉ l.map Prod.fst → lookupKey k l = none
  | [], _ => rfl
  | (k', d) :: rest, h => by
      have hk : k' ≠ k := fun hk => h (by simp [hk])
      simpa [lookupKey, hk] using lookupKey_of_not_mem fun hr => h (List.mem_cons_of_mem _ hr)

end MemoryStorage

/-- **Copying a `MemoryStorage` into an empty one gives the same storage**: the
migration answers nil, and the copy reads as the source at every key. -/
theorem migrate_memory_reads_same (ms : MemoryStorage) :
    (migrateStorage MemoryStorage.storage MemoryStorage.storage ms .empty).2 = .ok () ∧
      ∀ k, (migrateStorage MemoryStorage.storage MemoryStorage.storage ms .empty).1.read k =
        ms.read k := by
  have hok : (migrateStorage MemoryStorage.storage MemoryStorage.storage ms .empty).2 = .ok () := by
    refine (migrateStorage_ok_iff MemoryStorage.lawful _).mpr ⟨_, rfl, fun f hf => ?_⟩
    obtain ⟨d, hd⟩ := MemoryStorage.read_ok_of_mem ((MemoryStorage.mem_list ms "" f).mp hf).1
    exact ⟨d, by simp [MemoryStorage.read, hd]⟩
  refine ⟨hok, fun k => ?_⟩
  obtain ⟨files, hl, hk⟩ := migrateStorage_read MemoryStorage.lawful MemoryStorage.independent hok
  cases hl
  rw [← MemoryStorage.storage_read, hk k]
  split
  · rfl
  · next hn =>
      have hkey : k ∉ ms.data.map Prod.fst := fun h =>
        hn ((MemoryStorage.mem_list ms "" k).mpr ⟨h, by simp [hasPrefix]⟩)
      simp [MemoryStorage.read, MemoryStorage.empty, lookupKey,
        MemoryStorage.lookupKey_of_not_mem hkey]

end Viracochan
