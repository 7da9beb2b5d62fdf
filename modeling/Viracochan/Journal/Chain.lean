import Viracochan.Journal.Log

/-!
# Viracochan: checking, rebuilding and compacting a journal

The operations of `Journal` that read every entry of one configuration and act
on its chain.

**ValidateChain.**  For each entry in turn: an embedded config must validate
and carry the entry's checksum; from the second entry on, the entry must name
the previous one's checksum as `PrevCS`, have the next version (`uint64`
arithmetic) and not be older.  The first failure is reported with its index.

**Reconstruct.**  The entries of the configuration are resequenced and
validated, and the config of the last one is returned: the embedded one, or
the snapshot of its version.  With no entry, the latest snapshot is loaded.

**Compact.**  The journal is read as `ReadAll` reads it, the entries are
grouped by configuration, each group is resequenced and cut to its last ten
entries (a group that does not resequence is kept as it was), and the groups
are written back, one encoding per line.  Go visits the groups in the random
order of its map iteration; `compact` takes that order as the argument `order`,
a function of the list of configurations (`Ordered` says it is a
permutation).  The warning `Compact` prints is not modelled.

`Resequence` may loop forever (`resequence_never_returns_on_repeated_checksum`),
so `reconstruct` and `compact` answer `none` when it does.
-/

namespace Viracochan

/-- The prefix of the `ConfigStorage` that `Reconstruct` and the `Manager` use. -/
def configsPrefix : String :=
  "configs"

namespace Journal

open Json

/-! ## `ValidateChain` -/

section Validate

variable (float64Text : List Char → Option (List Char)) (sha256 : String → List UInt8)

/-- The check of an embedded config at index `i`: it validates and carries the
entry's checksum. -/
def checkConfig (i : Nat) (entry : JournalEntry) : Except String Unit :=
  match entry.config with
  | none => .ok ()
  | some c =>
      match validate float64Text sha256 c with
      | .error e => .error (s!"entry {i} invalid: " ++ e)
      | .ok () => if entry.cs = c.meta.cs then .ok () else .error s!"entry {i} checksum mismatch"

/-- The checks of the entry at index `i` against the one before it, if any. -/
def checkLink (i : Nat) : Option JournalEntry → JournalEntry → Except String Unit
  | none, _ => .ok ()
  | some prev, entry =>
      if entry.prevCS ≠ prev.cs then .error s!"chain break at {i}: prev_cs mismatch"
      else if entry.version ≠ prev.version + 1 then
        .error (s!"version break at {i}: " ++ String.mk (decimal prev.version.toNat) ++ " -> " ++
          String.mk (decimal entry.version.toNat))
      else if entry.time.before prev.time then .error s!"timestamp regression at {i}"
      else .ok ()

/-- The loop of `ValidateChain` from index `i`, `prev` being the entry at `i - 1`. -/
def validateFrom : Nat → Option JournalEntry → List JournalEntry → Except String Unit
  | _, _, [] => .ok ()
  | i, prev, entry :: rest => do
      checkConfig float64Text sha256 i entry
      checkLink i prev entry
      validateFrom (i + 1) (some entry) rest

/-- `Journal.ValidateChain`. -/
def validateChain (entries : List JournalEntry) : Except String Unit :=
  validateFrom float64Text sha256 0 none entries

/-- The checks `ValidateChain` makes of an entry's embedded config: it validates
and carries the entry's checksum. -/
def ConfigOk (entry : JournalEntry) : Prop :=
  ∀ c ∈ entry.config, validate float64Text sha256 c = .ok () ∧ entry.cs = c.meta.cs

/-- The link `ValidateChain` requires of an entry to the one before it. -/
def Linked (prev entry : JournalEntry) : Prop :=
  entry.prevCS = prev.cs ∧ entry.version = prev.version + 1 ∧ entry.time.before prev.time = false

theorem checkConfig_eq_ok {i : Nat} {e : JournalEntry} :
    checkConfig float64Text sha256 i e = .ok () ↔ ConfigOk float64Text sha256 e := by
  unfold checkConfig ConfigOk
  cases e.config with
  | none => simp
  | some c =>
      simp only [Option.mem_def, Option.some.injEq, forall_eq']
      cases validate float64Text sha256 c with
      | error e => simp
      | ok u => by_cases hc : e.cs = c.meta.cs <;> simp [hc]

theorem checkLink_eq_ok {i : Nat} {p e : JournalEntry} :
    checkLink i (some p) e = .ok () ↔ Linked p e := by
  unfold checkLink Linked
  by_cases h1 : e.prevCS = p.cs <;> by_cases h2 : e.version = p.version + 1 <;>
    cases h3 : e.time.before p.time <;> simp [h1, h2, h3]

/-- `ValidateChain` from index `i` accepts exactly the entries whose configs pass
and each of which is linked to the one before it. -/
theorem validateFrom_eq_ok : ∀ (i : Nat) (prev : Option JournalEntry) (L : List JournalEntry),
    validateFrom float64Text sha256 i prev L = .ok () ↔
      (∀ e ∈ L, ConfigOk float64Text sha256 e) ∧ (∀ p ∈ prev, ∀ e ∈ L.head?, Linked p e) ∧
        L.Chain' Linked
  | _, _, [] => by simp [validateFrom]
  | i, prev, e :: rest => by
      have ih := validateFrom_eq_ok (i + 1) (some e) rest
      have hlink : checkLink i prev e = .ok () ↔ ∀ p ∈ prev, Linked p e := by
        cases prev with
        | none => simp [checkLink]
        | some p => simpa using checkLink_eq_ok
      simp only [List.mem_cons, forall_eq_or_imp, List.head?_cons, Option.mem_def,
        Option.some.injEq, forall_eq', List.chain'_cons'] at ih ⊢
      simp only [validateFrom, except_bind_eq_ok]
      constructor
      · rintro ⟨⟨⟩, hc, ⟨⟩, hl, hrest⟩
        obtain ⟨hrest, hhead, hchain⟩ := ih.mp hrest
        exact ⟨⟨(checkConfig_eq_ok float64Text sha256).mp hc, hrest⟩, hlink.mp hl, hhead, hchain⟩
      · rintro ⟨⟨hc, hrest⟩, hl, hhead, hchain⟩
        exact ⟨(), (checkConfig_eq_ok float64Text sha256).mpr hc, (), hlink.mpr hl, ih.mpr ⟨hrest, hhead, hchain⟩⟩

theorem validateChain_eq_ok (L : List JournalEntry) :
    validateChain float64Text sha256 L = .ok () ↔
      (∀ e ∈ L, ConfigOk float64Text sha256 e) ∧ L.Chain' Linked := by
  simp [validateChain, validateFrom_eq_ok]

end Validate

section Operations

variable {σ : Type} (st : Storage σ) (float64Text : List Char → Option (List Char))
  (sha256 : String → List UInt8) (path : String)

/-! ## `Reconstruct` -/

/-- What `Reconstruct` makes of a resequenced chain: the config of its last
entry, embedded or loaded from its snapshot. -/
def latestOf (s : σ) (id : String) (ordered : List JournalEntry) : Except String Config :=
  match validateChain float64Text sha256 ordered with
  | .error e => .error ("invalid chain: " ++ e)
  | .ok () =>
      match ordered.getLast? with
      | none => .error "runtime error: index out of range [-1]"
      | some latest =>
          match latest.config with
          | some c => .ok c
          | none => load st float64Text sha256 configsPrefix s id latest.version

/-- `Journal.Reconstruct` (`none`: `Resequence` does not return). -/
def reconstruct (s : σ) (id : String) : Option (Except String Config) :=
  match findByID st path s id with
  | .error e => some (.error e)
  | .ok entries =>
      if entries = [] then some (loadLatest st float64Text sha256 configsPrefix s id)
      else
        (resequence entries).map fun
          | .error e => .error ("failed to resequence: " ++ e.message)
          | .ok ordered => latestOf st float64Text sha256 s id ordered

theorem latestOf_eq_ok {s : σ} {id : String} {L : List JournalEntry} {c : Config}
    (h : latestOf st float64Text sha256 s id L = .ok c) :
    validateChain float64Text sha256 L = .ok () ∧ ∃ tail, L.getLast? = some tail ∧
      (tail.config = some c ∨
        tail.config = none ∧ load st float64Text sha256 configsPrefix s id tail.version = .ok c) := by
  unfold latestOf at h
  split at h
  · cases h
  · rename_i hv
    refine ⟨hv, ?_⟩
    split at h
    · cases h
    · rename_i tail htail
      refine ⟨tail, htail, ?_⟩
      split at h
      · rename_i hc
        cases h
        exact .inl hc
      · rename_i hc
        exact .inr ⟨hc, h⟩

/-- **What `Reconstruct` returns.**  For a configuration with journal entries, a
config returned by `Reconstruct` comes at the end of the resequenced chain, every
embedded config of which validates and carries its entry's checksum, and every
entry of which is linked to the one before it.  It is the config embedded in the
last entry, which therefore validates and carries that entry's checksum, or, when
the last entry embeds none, the snapshot `Load` reads at its version, checked only
when its checksum is not empty. -/
theorem reconstruct_ok {s : σ} {id : String} {entries : List JournalEntry} {c : Config}
    (hf : findByID st path s id = .ok entries) (hne : entries ≠ [])
    (h : reconstruct st float64Text sha256 path s id = some (.ok c)) :
    ∃ L tail, resequence entries = some (.ok L) ∧ L.getLast? = some tail ∧
      (∀ e ∈ L, ConfigOk float64Text sha256 e) ∧ L.Chain' Linked ∧
      ((tail.config = some c ∧ c.meta.cs = tail.cs ∧ validate float64Text sha256 c = .ok ()) ∨
        (tail.config = none ∧ load st float64Text sha256 configsPrefix s id tail.version = .ok c ∧
          (c.meta.cs ≠ "" → validate float64Text sha256 c = .ok ()))) := by
  unfold reconstruct at h
  rw [hf] at h
  dsimp only at h
  rw [if_neg hne] at h
  obtain ⟨r, hr, h⟩ := Option.map_eq_some'.mp h
  cases r with
  | error e => cases h
  | ok L =>
      obtain ⟨hv, tail, htail, hc⟩ := latestOf_eq_ok st float64Text sha256 h
      obtain ⟨hok, hchain⟩ := (validateChain_eq_ok float64Text sha256 L).mp hv
      refine ⟨L, tail, hr, htail, hok, hchain, ?_⟩
      rcases hc with hc | ⟨hc, hl⟩
      · obtain ⟨hv, hcs⟩ := hok tail (List.mem_of_getLast?_eq_some htail) c hc
        exact .inl ⟨hc, hcs.symm, hv⟩
      · obtain ⟨-, -, -, hv⟩ := load_eq_ok float64Text sha256 hl
        exact .inr ⟨hc, hl, hv⟩

/-! ## `Compact` -/

/-- The entries `Compact` keeps of one configuration: the last ten of its
chain, or all its entries when `Resequence` fails. -/
def keptEntries (idEntries : List JournalEntry) : Option (List JournalEntry) :=
  (resequence idEntries).map fun
    | .error _ => idEntries
    | .ok ordered => if ordered.length > 10 then ordered.drop (ordered.length - 10) else ordered

/-- The loop of `Compact` over the configurations, in the order visited. -/
def compactGroups (entries : List JournalEntry) : List String → Option (List JournalEntry)
  | [] => some []
  | id :: ids => do
      let kept ← keptEntries (entries.filter fun e => e.id = id)
      let rest ← compactGroups entries ids
      pure (kept ++ rest)

/-- The text `Compact` writes: each entry's encoding followed by a newline. -/
def encodeLines : List JournalEntry → Except String (List Char)
  | [] => .ok []
  | e :: es => do
      let data ← marshalEntry e
      let rest ← encodeLines es
      pure (data ++ '\n' :: rest)

/-- The configurations of a list of entries, each once, in order of first
appearance: the keys of the map `byID`. -/
def idsOf : List JournalEntry → List String
  | [] => []
  | e :: es => e.id :: (idsOf es).filter (· ≠ e.id)

/-- `Journal.Compact`, the groups visited in the order `order` gives their keys. -/
def compact (order : List String → List String) (s : σ) : Option (Except String σ) :=
  match st.read s path with
  | .error e => some (if isAbsent e then .ok s else .error e)
  | .ok data =>
      let scan := scanLines data.data
      match decodeLines scan.1, scan.2 with
      | .error e, _ => some (.error e)
      | .ok _, some e => some (.error e)
      | .ok entries, none =>
          (compactGroups entries (order (idsOf entries))).map fun compacted =>
            match encodeLines compacted with
            | .error e => .error e
            | .ok text => st.write s path (String.mk text)

end Operations

/-! ## What `Compact` keeps -/

section Kept

/-- The entries kept of a chain: the last ten, or all of a shorter one. -/
theorem keptEntries_ok {E L : List JournalEntry} (h : resequence E = some (.ok L)) :
    keptEntries E = some (L.drop (L.length - 10)) := by
  simp only [keptEntries, h, Option.map_some', Option.some.injEq]
  split
  · rfl
  · rw [Nat.sub_eq_zero_of_le (by omega), List.drop_zero]

theorem keptEntries_error {E : List JournalEntry} {err : ResequenceError}
    (h : resequence E = some (.error err)) : keptEntries E = some E := by
  simp [keptEntries, h]

/-- With distinct checksums, `Compact` gets an answer for every configuration. -/
theorem keptEntries_isSome {E : List JournalEntry} (hcs : (E.map JournalEntry.cs).Nodup) :
    (keptEntries E).isSome := by
  simpa [keptEntries] using resequence_isSome hcs

/-- `Compact` keeps only entries it was given. -/
theorem keptEntries_subset {E K : List JournalEntry} (h : keptEntries E = some K) : K ⊆ E := by
  cases hr : resequence E with
  | none => simp [keptEntries, hr] at h
  | some r =>
      cases r with
      | error err =>
          rw [keptEntries_error hr] at h
          cases h
          exact List.Subset.refl _
      | ok L =>
          rw [keptEntries_ok hr] at h
          cases h
          exact fun e he => (resequence_ok_chain hr).1.subset (List.mem_of_mem_drop he)

theorem mem_idsOf {id : String} : ∀ {es : List JournalEntry}, id ∈ idsOf es ↔ ∃ e ∈ es, e.id = id
  | [] => by simp [idsOf]
  | e :: es => by
      by_cases h : e.id = id
      · simp [idsOf, h]
      · simp [idsOf, h, Ne.symm h, mem_idsOf]

theorem nodup_idsOf : ∀ es : List JournalEntry, (idsOf es).Nodup
  | [] => List.nodup_nil
  | e :: es => List.nodup_cons.mpr ⟨by simp, (nodup_idsOf es).filter _⟩

/-- The groups `Compact` writes, once every configuration has an answer. -/
theorem compactGroups_eq (entries : List JournalEntry) :
    ∀ ids : List String, (∀ id ∈ ids, (keptEntries (entries.filter fun e => e.id = id)).isSome) →
      compactGroups entries ids =
        some (ids.flatMap fun id => (keptEntries (entries.filter fun e => e.id = id)).getD [])
  | [], _ => rfl
  | id :: ids, h => by
      obtain ⟨K, hK⟩ := Option.isSome_iff_exists.mp (h id (List.mem_cons_self _ _))
      simp only [compactGroups, hK, compactGroups_eq entries ids fun i hi =>
        h i (List.mem_cons_of_mem _ hi), Option.bind_eq_bind, Option.some_bind, List.flatMap_cons,
        Option.getD_some]
      rfl

/-- The entries of one configuration in what `Compact` writes: the ones it keeps
of that configuration. -/
theorem filter_groups {K : String → List JournalEntry} (hK : ∀ i, ∀ e ∈ K i, e.id = i)
    (id : String) : ∀ ids : List String, ids.Nodup →
      (ids.flatMap K).filter (fun e => e.id = id) = if id ∈ ids then K id else []
  | [], _ => rfl
  | i :: ids, hnd => by
      rw [List.nodup_cons] at hnd
      rw [List.flatMap_cons, List.filter_append, filter_groups hK id ids hnd.2]
      by_cases hi : i = id
      · subst hi
        rw [List.filter_eq_self.mpr fun e he => by simpa using hK i e he, if_neg hnd.1,
          if_pos (List.mem_cons_self _ _), List.append_nil]
      · rw [List.filter_eq_nil_iff.mpr fun e he => by simpa [hK i e he] using hi]
        simp [hi, Ne.symm hi]

theorem encodeLines_eq : ∀ {C : List JournalEntry}, (∀ e ∈ C, Storable e) →
    encodeLines C = .ok (journalText (C.map encoded))
  | [], _ => rfl
  | e :: C, h => by
      simp only [encodeLines, (h e (List.mem_cons_self _ _)).marshalEntry_eq,
        encodeLines_eq fun e' he' => h e' (List.mem_cons_of_mem _ he'), except_ok_bind,
        except_pure, List.map_cons, journalText_cons]

/-- A single entry is kept as it is. -/
theorem keptEntries_singleton (e : JournalEntry) : keptEntries [e] = some [e] := by
  obtain ⟨r, hr⟩ := Option.isSome_iff_exists.mp
    (@resequence_isSome [e] (by simp only [List.map_cons, List.map_nil]; exact List.nodup_singleton _))
  cases r with
  | error err => exact keptEntries_error hr
  | ok L => rw [keptEntries_ok hr, List.perm_singleton.mp (resequence_ok_chain hr).1]; rfl

end Kept

/-! ## What `Reconstruct` does not check -/

section Snapshot

variable (float64Text : List Char → Option (List Char)) (sha256 : String → List UInt8)

/-- A journal whose only line is a config-less entry of `cfg` at version 1:
`Reconstruct` returns the snapshot `Load` reads at that version. -/
theorem reconstruct_epoch_entry {σ : Type} {st : Storage σ} {path : String} {s : σ} {c : Config}
    (hj : st.read s path =
      .ok (String.mk (journalText [encoded ⟨"cfg", 1, "cs", "", ⟨0, 0⟩, "create", none⟩])))
    (hl : load st float64Text sha256 configsPrefix s "cfg" 1 = .ok c) :
    findByID st path s "cfg" = .ok [⟨"cfg", 1, "cs", "", ⟨0, 0⟩, "create", none⟩] ∧
      reconstruct st float64Text sha256 path s "cfg" = some (.ok c) := by
  have hread := @readAll_of_read _ st path s [⟨"cfg", 1, "cs", "", ⟨0, 0⟩, "create", none⟩]
    (by simpa using storable_epoch_entry) hj
  have hfind : findByID st path s "cfg" = .ok [⟨"cfg", 1, "cs", "", ⟨0, 0⟩, "create", none⟩] := by
    simp only [findByID, hread]
    rfl
  have hv : validateChain float64Text sha256 [⟨"cfg", 1, "cs", "", ⟨0, 0⟩, "create", none⟩] =
      .ok () := rfl
  have hr : resequence [⟨"cfg", 1, "cs", "", ⟨0, 0⟩, "create", none⟩] =
      some (.ok [⟨"cfg", 1, "cs", "", ⟨0, 0⟩, "create", none⟩]) :=
    resequence_singleton (.inr (by decide))
  refine ⟨hfind, ?_⟩
  simp only [reconstruct, hfind, if_neg (List.cons_ne_nil _ _), hr, Option.map_some', latestOf,
    hv, List.getLast?_singleton, hl]

/-- A journal whose only line is a config-less entry of `cfg` at version 1, and
a snapshot without checksum stored at that version. -/
theorem reconstruct_unchecked_snapshot {c : Config} {b : List Char} (hb : marshalConfig c = .ok b)
    (hz : c.meta.time.offset % 60 = 0) (hre : c.reread = c) (hcs : c.meta.cs = "") :
    ∃ s, findByID MemoryStorage.storage "journal.jsonl" s "cfg" =
        .ok [⟨"cfg", 1, "cs", "", ⟨0, 0⟩, "create", none⟩] ∧
      reconstruct MemoryStorage.storage float64Text sha256 "journal.jsonl" s "cfg" =
        some (.ok c) := by
  have hkey : "journal.jsonl" ≠ makeKey configsPrefix "cfg" 1 := by decide
  have hu := unmarshalConfig_marshalConfig hb hz
  rw [hre] at hu
  refine ⟨(MemoryStorage.empty.write "journal.jsonl"
      (String.mk (journalText [encoded ⟨"cfg", 1, "cs", "", ⟨0, 0⟩, "create", none⟩]))).write
      (makeKey configsPrefix "cfg" 1) (String.mk b), reconstruct_epoch_entry float64Text sha256 ?_
    (load_of_read_unchecked float64Text sha256 (by rw [MemoryStorage.storage_read,
      MemoryStorage.read_write]) hu hcs)⟩
  rw [MemoryStorage.storage_read, MemoryStorage.read_write_of_ne _ _ hkey, MemoryStorage.read_write]

/-- **`Reconstruct` does not compare what it returns with the chain.**  The
snapshot loaded for a config-less last entry is returned unchecked when its
checksum is empty, whatever its version; and after resequencing, a last entry
whose embedded config validates and carries its checksum has that config
returned, whatever its version. -/
theorem reconstruct_ignores_entry_fields :
    (∃ s : MemoryStorage,
      findByID MemoryStorage.storage "journal.jsonl" s "cfg" =
        .ok [⟨"cfg", 1, "cs", "", ⟨0, 0⟩, "create", none⟩] ∧
      reconstruct MemoryStorage.storage (fun t => some t) codePointDigest "journal.jsonl" s "cfg" =
        some (.ok ⟨⟨7, ⟨0, 0⟩, "", "", ""⟩, some "1"⟩) ∧
      validate (fun t => some t) codePointDigest ⟨⟨7, ⟨0, 0⟩, "", "", ""⟩, some "1"⟩ ≠ .ok ()) ∧
    ∃ cfg : Config, cfg.meta.version = 5 ∧
      validate (fun t => some t) codePointDigest cfg = .ok () ∧
      resequence [⟨"cfg", 1, cfg.meta.cs, "", ⟨0, 0⟩, "create", some cfg⟩] =
        some (.ok [⟨"cfg", 1, cfg.meta.cs, "", ⟨0, 0⟩, "create", some cfg⟩]) ∧
      latestOf MemoryStorage.storage (fun t => some t) codePointDigest MemoryStorage.empty "cfg"
        [⟨"cfg", 1, cfg.meta.cs, "", ⟨0, 0⟩, "create", some cfg⟩] = .ok cfg := by
  obtain ⟨b, hb, hre⟩ := marshalConfig_epoch_one ⟨7, ⟨0, 0⟩, "", "", ""⟩ rfl
  obtain ⟨s, hf, hr⟩ := reconstruct_unchecked_snapshot (fun t => some t) codePointDigest hb rfl hre rfl
  refine ⟨⟨s, hf, hr, validate_empty_cs _ _ (fun _ h => codePointDigest_ne_nil h) rfl⟩, ?_⟩
  obtain ⟨cs, hcs⟩ := computeChecksum_ok (fun t => some t) codePointDigest
    (c := ⟨⟨5, ⟨0, 0⟩, "", "", ""⟩, some "1"⟩) rfl
  have hv := validate_setChecksum _ _ hcs
  have hchain : validateChain (fun t => some t) codePointDigest
      [⟨"cfg", 1, cs, "", ⟨0, 0⟩, "create", some ⟨⟨5, ⟨0, 0⟩, "", cs, ""⟩, some "1"⟩⟩] = .ok () :=
    (validateChain_eq_ok _ _ _).mpr ⟨by simpa [ConfigOk] using hv, List.chain'_singleton _⟩
  exact ⟨⟨⟨5, ⟨0, 0⟩, "", cs, ""⟩, some "1"⟩, rfl, hv,
    resequence_singleton ((em _).imp_right Ne.symm), by simp only [latestOf, hchain, List.getLast?_singleton]⟩


/-- `reconstruct_ok` on the journal of one config-less entry with a snapshot at
its version. -/
theorem reconstruct_ok_epoch_snapshot :
    ∃ (s : MemoryStorage) (c : Config),
      (findByID MemoryStorage.storage "journal.jsonl" s "cfg" =
          .ok [⟨"cfg", 1, "cs", "", ⟨0, 0⟩, "create", none⟩] ∧
        [(⟨"cfg", 1, "cs", "", ⟨0, 0⟩, "create", none⟩ : JournalEntry)] ≠ [] ∧
        reconstruct MemoryStorage.storage (fun t => some t) codePointDigest "journal.jsonl" s "cfg" =
          some (.ok c)) ∧
      ∃ L tail, resequence [⟨"cfg", 1, "cs", "", ⟨0, 0⟩, "create", none⟩] = some (.ok L) ∧
        L.getLast? = some tail ∧ (∀ e ∈ L, ConfigOk (fun t => some t) codePointDigest e) ∧
        L.Chain' Linked ∧
        ((tail.config = some c ∧ c.meta.cs = tail.cs ∧
            validate (fun t => some t) codePointDigest c = .ok ()) ∨
          (tail.config = none ∧ load MemoryStorage.storage (fun t => some t) codePointDigest
              configsPrefix s "cfg" tail.version = .ok c ∧
            (c.meta.cs ≠ "" → validate (fun t => some t) codePointDigest c = .ok ()))) := by
  obtain ⟨b, hb, hre⟩ := marshalConfig_epoch_one ⟨7, ⟨0, 0⟩, "", "", ""⟩ rfl
  obtain ⟨s, hf, hr⟩ := reconstruct_unchecked_snapshot (fun t => some t) codePointDigest hb rfl hre rfl
  exact ⟨s, _, ⟨hf, List.cons_ne_nil _ _, hr⟩,
    reconstruct_ok MemoryStorage.storage _ _ _ hf (List.cons_ne_nil _ _) hr⟩

end Snapshot

/-- An order of visiting map keys: a permutation of the keys. -/
def Ordered (order : List String → List String) : Prop :=
  ∀ keys, (order keys).Perm keys

/-! ## What `Compact` preserves -/

section Compaction

variable {σ : Type} {st : Storage σ} (float64Text : List Char → Option (List Char))
  (sha256 : String → List UInt8) {path : String}

/-- `Load` reads one key: it answers the same wherever that key reads the same. -/
theorem load_congr {pre : String} {s s' : σ} {id : String} {v : UInt64}
    (h : st.read s' (makeKey pre id v) = st.read s (makeKey pre id v)) :
    load st float64Text sha256 pre s' id v = load st float64Text sha256 pre s id v := by
  simp only [load, h]

/-- The config `Reconstruct` makes of a chain, made of its last entries. -/
theorem latestOf_drop {s s' : σ} {id : String} {L : List JournalEntry} {c : Config}
    (h : latestOf st float64Text sha256 s id L = .ok c)
    (hload : ∀ v c, load st float64Text sha256 configsPrefix s id v = .ok c →
      load st float64Text sha256 configsPrefix s' id v = .ok c)
    {k : Nat} (hk : k < L.length) : latestOf st float64Text sha256 s' id (L.drop k) = .ok c := by
  obtain ⟨hv, tail, htail, hcase⟩ := latestOf_eq_ok st float64Text sha256 h
  obtain ⟨hok, hchain⟩ := (validateChain_eq_ok float64Text sha256 L).mp hv
  have hv' : validateChain float64Text sha256 (L.drop k) = .ok () :=
    (validateChain_eq_ok float64Text sha256 _).mpr
      ⟨fun e he => hok e (List.mem_of_mem_drop he), hchain.drop k⟩
  have htail' : (L.drop k).getLast? = some tail := by
    rw [List.getLast?_drop, if_neg (by omega), htail]
  unfold latestOf
  rw [hv', htail']
  rcases hcase with hc | ⟨hc, hl⟩
  · simp only [hc]
  · simp only [hc, hload _ _ hl]

theorem filter_map_reread (es : List JournalEntry) (id : String) :
    (es.map JournalEntry.reread).filter (fun e => e.id = id) =
      (es.filter fun e => e.id = id).map JournalEntry.reread := by
  rw [List.filter_map]
  rfl

/-- The groups `Compact` keeps, per configuration of the entries it read. -/
theorem mem_groups {entries : List JournalEntry} {ids : List String} {e : JournalEntry}
    (h : e ∈ ids.flatMap fun id => (keptEntries (entries.filter fun e => e.id = id)).getD []) :
    e ∈ entries := by
  obtain ⟨id, -, he⟩ := List.mem_flatMap.mp h
  cases hk : keptEntries (entries.filter fun e => e.id = id) with
  | none => simp [hk] at he
  | some K =>
      rw [hk, Option.getD_some] at he
      exact List.mem_of_mem_filter (keptEntries_subset hk he)

theorem groups_id (entries : List JournalEntry) (i : String) :
    ∀ e ∈ (keptEntries (entries.filter fun e => e.id = i)).getD [], e.id = i := by
  intro e he
  cases hk : keptEntries (entries.filter fun e => e.id = i) with
  | none => simp [hk] at he
  | some K =>
      rw [hk, Option.getD_some] at he
      simpa using (List.mem_filter.mp (keptEntries_subset hk he)).2

/-- The groups `Compact` writes, once its loop has returned. -/
theorem compactGroups_eq_some (entries : List JournalEntry) :
    ∀ {ids : List String} {C : List JournalEntry}, compactGroups entries ids = some C →
      C = ids.flatMap fun id => (keptEntries (entries.filter fun e => e.id = id)).getD []
  | [], _, h => by cases h; rfl
  | id :: ids, _, h => by
      obtain ⟨K, hK, h⟩ := Option.bind_eq_some.mp h
      obtain ⟨R, hR, h⟩ := Option.bind_eq_some.mp h
      cases h
      rw [List.flatMap_cons, hK, Option.getD_some, compactGroups_eq_some entries hR]

/-- The share of one configuration in the groups `Compact` writes: what it keeps of
that configuration's entries. -/
theorem filter_compacted {order : List String → List String} (hord : Ordered order)
    (entries : List JournalEntry) (id : String) :
    ((order (idsOf entries)).flatMap fun i =>
        (keptEntries (entries.filter fun e => e.id = i)).getD []).filter (fun e => e.id = id) =
      (keptEntries (entries.filter fun e => e.id = id)).getD [] := by
  rw [filter_groups (groups_id _) id _ ((hord _).nodup_iff.mpr (nodup_idsOf entries))]
  simp only [(hord _).mem_iff, mem_idsOf]
  split
  · rfl
  · rename_i hno
    rw [List.filter_eq_nil_iff.mpr fun e he hid => hno ⟨e, he, by simpa using hid⟩]
    rfl

/-- **What a `Compact` that returned wrote**: the entries it kept of each
configuration, as encodings. -/
theorem compact_eq_ok {order : List String → List String} (hord : Ordered order)
    {s s' : σ} {es : List JournalEntry} (hes : ∀ e ∈ es, Storable e)
    (hread : st.read s path = .ok (String.mk (journalText (es.map encoded))))
    (h : compact st path order s = some (.ok s')) :
    ∃ C : List JournalEntry, st.write s path (String.mk (journalText (C.map encoded))) = .ok s' ∧
      (∀ e ∈ C, e ∈ es.map JournalEntry.reread) ∧
      ∀ id, C.filter (fun e => e.id = id) =
        (keptEntries ((es.map JournalEntry.reread).filter fun e => e.id = id)).getD [] := by
  have hscan := @scanLines_journalText (es.map encoded) (by
    simpa using fun x hx => (hes x hx).oneLine.1)
  simp only [compact, hread, hscan, decodeLines_encoded hes] at h
  obtain ⟨C, hC, h⟩ := Option.map_eq_some'.mp h
  have hCeq := compactGroups_eq_some _ hC
  have hsub : ∀ e ∈ C, e ∈ es.map JournalEntry.reread := fun e he => mem_groups (hCeq ▸ he)
  have hst : ∀ e ∈ C, Storable e := fun e he => by
    obtain ⟨e0, he0, rfl⟩ := List.mem_map.mp (hsub e he)
    exact (hes e0 he0).reread.1
  rw [encodeLines_eq hst] at h
  exact ⟨C, h, hsub, fun id => hCeq ▸ filter_compacted hord _ id⟩

/-- **A `Compact` that returned keeps the journal one of storable entries**, the
entries of each configuration being now those `keptEntries` keeps of them, and
leaves every other key as it was. -/
theorem Journaled.compact (hst : st.Lawful) (hind : st.Independent) {s s' : σ}
    {es : List JournalEntry} (h : Journaled st path s es) {order : List String → List String}
    (hord : Ordered order) (hc : compact st path order s = some (.ok s')) :
    ∃ C, Journaled st path s' C ∧ (∀ k, k ≠ path → st.read s' k = st.read s k) ∧
      ∀ id, C.filter (fun e => e.id = id) =
        (keptEntries (es.filter fun e => e.id = id)).getD [] := by
  rcases h.text with hr | ⟨rfl, e, hr, ha⟩
  · obtain ⟨C, hw, hsub, hC⟩ := compact_eq_ok hord h.storable hr hc
    rw [List.map_congr_left h.reread, List.map_id'] at hsub hC
    exact ⟨C, ⟨.inl (hst.read_write _ _ _ _ hw), fun e he => h.storable e (hsub e he),
      fun e he => h.reread e (hsub e he)⟩, fun k hk => hind.read_write_of_ne _ _ _ _ _ hw hk, hC⟩
  · simp only [Journal.compact, hr, ha, if_true, Option.some.injEq, Except.ok.injEq] at hc
    subst hc
    exact ⟨[], h, fun _ _ => rfl, fun id => rfl⟩

/-- **What `Compact` writes.**  On a journal of storable encodings in which the
entries of each configuration have distinct checksums, `Compact` returns, having
written the entries it keeps as encodings; the journal reads back as those
entries, and each configuration has among them the entries kept of it. -/
theorem compact_eq (hst : st.Lawful) {order : List String → List String} (hord : Ordered order)
    {s : σ} {es : List JournalEntry} (hes : ∀ e ∈ es, Storable e)
    (hread : st.read s path = .ok (String.mk (journalText (es.map encoded))))
    (hcs : ∀ id, ((es.filter fun e => e.id = id).map JournalEntry.cs).Nodup) :
    ∃ (s' : σ) (C : List JournalEntry), compact st path order s = some (.ok s') ∧
      st.write s path (String.mk (journalText (C.map encoded))) = .ok s' ∧
      readAll st path s' = .ok C ∧ (∀ e ∈ C, e ∈ es.map JournalEntry.reread) ∧
      ∀ id, C.filter (fun e => e.id = id) =
        (keptEntries ((es.map JournalEntry.reread).filter fun e => e.id = id)).getD [] := by
  have hre : ∀ e ∈ es.map JournalEntry.reread, Storable e ∧ e.reread = e := by
    intro e he
    obtain ⟨e0, he0, rfl⟩ := List.mem_map.mp he
    exact (hes e0 he0).reread
  have hK : ∀ id ∈ order (idsOf (es.map JournalEntry.reread)),
      (keptEntries ((es.map JournalEntry.reread).filter fun e => e.id = id)).isSome := by
    intro id _
    refine keptEntries_isSome ?_
    rw [filter_map_reread, List.map_map]
    exact hcs id
  generalize hC : (order (idsOf (es.map JournalEntry.reread))).flatMap (fun id =>
    (keptEntries ((es.map JournalEntry.reread).filter fun e => e.id = id)).getD []) = C
  have hsub : ∀ e ∈ C, e ∈ es.map JournalEntry.reread := fun e he => mem_groups (hC ▸ he)
  have hscan := @scanLines_journalText (es.map encoded) (by
    simpa using fun x hx => (hes x hx).oneLine.1)
  obtain ⟨s', hw⟩ := hst.write_ok s path (String.mk (journalText (C.map encoded)))
  have hc : compact st path order s = some (.ok s') := by
    simp only [compact, hread, hscan, decodeLines_encoded hes, compactGroups_eq _ _ hK, hC,
      Option.map_some', encodeLines_eq fun e he => (hre e (hsub e he)).1, hw]
  obtain ⟨C', hw', hsub', hC'⟩ := compact_eq_ok hord hes hread hc
  have hr := @readAll_of_read _ st path s' C' (fun e he => (hre e (hsub' e he)).1)
    (hst.read_write _ _ _ _ hw')
  rw [List.map_congr_left fun e he => (hre e (hsub' e he)).2, List.map_id'] at hr
  exact ⟨s', C', hc, hw', hr, hsub', hC'⟩

/-- `Reconstruct` of a configuration whose entries resequence into a chain. -/
theorem reconstruct_of_latestOf {s : σ} {id : String} {E L : List JournalEntry}
    {c : Config} (hf : findByID st path s id = .ok E) (hne : E ≠ [])
    (hr : resequence E = some (.ok L)) (hl : latestOf st float64Text sha256 s id L = .ok c) :
    reconstruct st float64Text sha256 path s id = some (.ok c) := by
  simp only [reconstruct, hf, if_neg hne, hr, Option.map_some', hl]

/-- `Compact` of a journal of one line that decodes: the entry is written back
with `json.Marshal`. -/
theorem compact_one_line {s : σ} {l : List Char} {e : JournalEntry}
    {order : List String → List String} (hord : Ordered order) (hl : OneLine l) (hne : l ≠ []) (hdec : unmarshalEntry l = .ok e)
    (hr : st.read s path = .ok (String.mk (journalText [l]))) {b : List Char}
    (hb : marshalEntry e = .ok b) :
    compact st path order s = some (st.write s path (String.mk (journalText [b]))) := by
  have hscan := @scanLines_journalText [l] fun l' hl' => by rw [List.mem_singleton.mp hl']; exact hl
  have hord1 : order [e.id] = [e.id] := List.perm_singleton.mp (hord _)
  have hgroups : compactGroups [e] [e.id] = some [e] := by
    simp [compactGroups, keptEntries_singleton]
  have hdecs : decodeLines [l] = .ok [e] := by
    simp only [decodeLines, if_neg hne, hdec]
    rfl
  simp only [compact, hr, hscan, hdecs]
  simp [idsOf, hord1, hgroups, encodeLines, hb]

/-- When a journal that `Load` reads as a config is compacted, its text stays: such
a journal has one line at most, and `Compact` writes one line back as it was. -/
theorem compact_keeps_config_text {es C : List JournalEntry} (hes : ∀ e ∈ es, Storable e)
    {c : Config} (hu : unmarshalConfig (journalText (es.map encoded)) = .ok c)
    (hsub : ∀ e ∈ C, e ∈ es.map JournalEntry.reread)
    (hC : ∀ id, C.filter (fun e => e.id = id) =
      (keptEntries ((es.map JournalEntry.reread).filter fun e => e.id = id)).getD []) :
    C.map encoded = es.map encoded := by
  rcases es with _ | ⟨e, _ | ⟨e2, rest⟩⟩
  · have h0 : C = [] := List.eq_nil_iff_forall_not_mem.mpr fun x hx => by simpa using hsub x hx
    rw [h0]
  · have hall : ∀ x ∈ C, x.id = e.id := fun x hx => by
      have hx' : x = e.reread := by simpa using hsub x hx
      rw [hx']
      rfl
    have h1 := hC e.id
    have hre : e.reread.id = e.id := rfl
    rw [List.filter_eq_self.mpr fun x hx => by simpa using hall x hx, List.map_singleton,
      List.filter_singleton] at h1
    simp only [hre, decide_True, cond_true, keptEntries_singleton, Option.getD_some] at h1
    rw [h1, List.map_singleton, List.map_singleton, encoded_reread (hes e (List.mem_singleton_self _))]
  · rw [unmarshalConfig_journalText hes (by simp)] at hu
    cases hu

/-- **What `Compact` preserves.**  Take a journal of storable encodings, as
`Append` writes them, in which the entries of each configuration have distinct
checksums, on a storage whose writes succeed and are read back, leave the other
keys as they were, and list the same keys after a key is rewritten.  `Compact`
returns; afterwards, a configuration whose entries `Resequence` put in the
chain `L` has as entries the last `min(|L|, 10)` entries of `L`, which
`Resequence` accepts as that chain and which pass `ValidateChain` when `L` did; a
configuration whose entries `Resequence` rejected keeps them as they were; and
`Reconstruct` returns every config it returned before. -/
theorem compact_keeps_chain_tails (hst : st.Lawful) (hind : st.Independent) (hlk : st.ListsKeys)
    {order : List String → List String} (hord : Ordered order)
    {s : σ} {es : List JournalEntry} (hes : ∀ e ∈ es, Storable e)
    (hread : st.read s path = .ok (String.mk (journalText (es.map encoded))))
    (hcs : ∀ id, ((es.filter fun e => e.id = id).map JournalEntry.cs).Nodup) :
    ∃ s', compact st path order s = some (.ok s') ∧
      ∀ id E, findByID st path s id = .ok E →
        (∀ L, resequence E = some (.ok L) →
          findByID st path s' id = .ok (L.drop (L.length - 10)) ∧
          resequence (L.drop (L.length - 10)) = some (.ok (L.drop (L.length - 10))) ∧
          (validateChain float64Text sha256 L = .ok () →
            validateChain float64Text sha256 (L.drop (L.length - 10)) = .ok ())) ∧
        (∀ err, resequence E = some (.error err) → findByID st path s' id = .ok E) ∧
        (∀ c, reconstruct st float64Text sha256 path s id = some (.ok c) →
          reconstruct st float64Text sha256 path s' id = some (.ok c)) := by
  obtain ⟨s', C, hcomp, hw, hall', hsub, hC⟩ := compact_eq hst hord hes hread hcs
  have hfind : ∀ id, findByID st path s id = .ok ((es.map JournalEntry.reread).filter fun e => e.id = id) :=
    fun id => by simp only [findByID, readAll_of_read hes hread, except_ok_bind, except_pure]
  have hfind' : ∀ id, findByID st path s' id =
      .ok ((keptEntries ((es.map JournalEntry.reread).filter fun e => e.id = id)).getD []) :=
    fun id => by simp only [findByID, hall', except_ok_bind, except_pure, hC]
  have hload : ∀ id v c, load st float64Text sha256 configsPrefix s id v = .ok c →
      load st float64Text sha256 configsPrefix s' id v = .ok c := by
    intro id v c hl
    by_cases hk : makeKey configsPrefix id v = path
    · obtain ⟨data, hr, hu, -⟩ := load_eq_ok float64Text sha256 hl
      rw [hk, hread] at hr
      obtain rfl := Except.ok.inj hr
      have htext := compact_keeps_config_text hes hu hsub hC
      rw [@load_congr σ st float64Text sha256 configsPrefix s s' id v
        (by rw [hk, hst.read_write _ _ _ _ hw, hread, htext])]
      exact hl
    · rw [load_congr float64Text sha256 (hind.read_write_of_ne _ _ _ _ _ hw hk)]
      exact hl
  refine ⟨s', hcomp, fun id E hE => ?_⟩
  rw [hfind id] at hE
  obtain rfl := Except.ok.inj hE
  refine ⟨fun L hL => ?_, fun err herr => by rw [hfind' id, keptEntries_error herr]; rfl,
    fun c hc => ?_⟩
  · refine ⟨by rw [hfind' id, keptEntries_ok hL]; rfl, resequence_drop hL _, fun hv => ?_⟩
    obtain ⟨hok, hchain⟩ := (validateChain_eq_ok float64Text sha256 L).mp hv
    exact (validateChain_eq_ok float64Text sha256 _).mpr
      ⟨fun e he => hok e (List.mem_of_mem_drop he), hchain.drop _⟩
  · unfold reconstruct at hc ⊢
    rw [hfind id] at hc
    rw [hfind' id]
    dsimp only at hc ⊢
    by_cases hne : (es.map JournalEntry.reread).filter (fun e => e.id = id) = []
    · rw [if_pos hne] at hc
      rw [hne, keptEntries_ok (show resequence [] = some (.ok []) from rfl)]
      simp only [List.drop_nil, Option.getD_some, if_true]
      cases hlist : st.list s (join [configsPrefix, id]) with
      | error e => simp [loadLatest, listVersions, hlist] at hc
      | ok l =>
          obtain ⟨l', hl', hp⟩ := hlk.list_write_of_read s path _ _ s' _ l hread hw hlist
          exact congrArg some (loadLatest_of_load float64Text sha256 hlist hl' hp (hload id)
            (Option.some.inj hc))
    · rw [if_neg hne] at hc
      obtain ⟨r, hr, hrc⟩ := Option.map_eq_some'.mp hc
      cases r with
      | error e => cases hrc
      | ok L =>
          have hlen : 0 < L.length := by
            rw [(resequence_ok_chain hr).1.length_eq]
            exact List.length_pos.mpr hne
          have hT : L.drop (L.length - 10) ≠ [] := by
            simp only [ne_eq, List.drop_eq_nil_iff]
            omega
          rw [keptEntries_ok hr, Option.getD_some, if_neg hT, resequence_drop hr, Option.map_some']
          exact congrArg some (latestOf_drop float64Text sha256 hrc (hload id) (by omega))

/-- `compact_keeps_chain_tails` on the journal of one config-less entry. -/
theorem compact_keeps_chain_tails_epoch_entry :
    let e : JournalEntry := ⟨"cfg", 1, "cs", "", ⟨0, 0⟩, "create", none⟩
    let s := MemoryStorage.empty.write "journal.jsonl" (String.mk (journalText [encoded e]))
    ((∀ x ∈ [e], Storable x) ∧
      MemoryStorage.storage.read s "journal.jsonl" = .ok (String.mk (journalText ([e].map encoded))) ∧
      ∀ id, (([e].filter fun x => x.id = id).map JournalEntry.cs).Nodup) ∧
    ∃ s', compact MemoryStorage.storage "journal.jsonl" (fun keys => keys) s = some (.ok s') ∧
      ∀ id E, findByID MemoryStorage.storage "journal.jsonl" s id = .ok E →
        (∀ L, resequence E = some (.ok L) →
          findByID MemoryStorage.storage "journal.jsonl" s' id = .ok (L.drop (L.length - 10)) ∧
          resequence (L.drop (L.length - 10)) = some (.ok (L.drop (L.length - 10))) ∧
          (validateChain (fun t => some t) codePointDigest L = .ok () →
            validateChain (fun t => some t) codePointDigest (L.drop (L.length - 10)) = .ok ())) ∧
        (∀ err, resequence E = some (.error err) →
          findByID MemoryStorage.storage "journal.jsonl" s' id = .ok E) ∧
        (∀ c, reconstruct MemoryStorage.storage (fun t => some t) codePointDigest "journal.jsonl" s id =
            some (.ok c) →
          reconstruct MemoryStorage.storage (fun t => some t) codePointDigest "journal.jsonl" s' id =
            some (.ok c)) := by
  intro e s
  have h1 : ∀ x ∈ [e], Storable x := by simpa using storable_epoch_entry
  have h2 : MemoryStorage.storage.read s "journal.jsonl" =
      .ok (String.mk (journalText ([e].map encoded))) := by
    rw [MemoryStorage.storage_read, MemoryStorage.read_write]
    rfl
  have h3 : ∀ id, (([e].filter fun x => x.id = id).map JournalEntry.cs).Nodup := by
    intro id
    by_cases h : "cfg" = id <;> simp [e, List.filter_cons, h]
  exact ⟨⟨h1, h2, h3⟩, compact_keeps_chain_tails (fun t => some t) codePointDigest MemoryStorage.lawful
    MemoryStorage.independent MemoryStorage.listsKeys (fun keys => List.Perm.refl keys) h1 h2 h3⟩

end Compaction

/-- **`Compact` can make a readable journal unreadable.**  A journal whose only
line is an entry of `cfg` whose operation is written as eleven thousand raw `<`
is read, and `Reconstruct` returns the snapshot of that entry's version.
`Compact` writes the entry back with `json.Marshal`, which escapes each `<` as
`\u003c`: the line grows to more than 64 KiB, and afterwards `FindByID` and
`Reconstruct` fail with `ErrTooLong`. -/
theorem compact_breaks_long_line :
    ∃ (s s' : MemoryStorage) (c : Config),
      findByID MemoryStorage.storage "journal.jsonl" s "cfg" =
        .ok [⟨"cfg", 1, "cs", "", ⟨0, 0⟩, String.mk (List.replicate 11000 '<'), none⟩] ∧
      reconstruct MemoryStorage.storage (fun t => some t) codePointDigest "journal.jsonl" s "cfg" =
        some (.ok c) ∧
      compact MemoryStorage.storage "journal.jsonl" (fun keys => keys) s = some (.ok s') ∧
      findByID MemoryStorage.storage "journal.jsonl" s' "cfg" = .error errTooLong ∧
      reconstruct MemoryStorage.storage (fun t => some t) codePointDigest "journal.jsonl" s' "cfg" =
        some (.error errTooLong) := by
  obtain ⟨hone, hdec, b, hb, hbn, hblong⟩ := @rawOp_lt_facts 11000 (le_refl _) (by decide)
  have hne := rawOp_line_ne_nil "cfg" "cs" (List.replicate 11000 '<')
  obtain ⟨snap, hsnap, hre⟩ := marshalConfig_epoch_one ⟨1, ⟨0, 0⟩, "", "", ""⟩ rfl
  have hu := unmarshalConfig_marshalConfig hsnap rfl
  rw [hre] at hu
  have hkey : "journal.jsonl" ≠ makeKey configsPrefix "cfg" 1 := by decide
  generalize hline : render (bare (Value.object (rawOpMembers "cfg" "cs"
    (List.replicate 11000 '<'))).tokens) [] = line at hone hdec hne
  generalize he : (⟨"cfg", 1, "cs", "", ⟨0, 0⟩, String.mk (List.replicate 11000 '<'), none⟩ :
    JournalEntry) = e at hdec hb ⊢
  have hid : e.id = "cfg" := he ▸ rfl
  generalize hs : (MemoryStorage.empty.write "journal.jsonl" (String.mk (journalText [line]))).write
    (makeKey configsPrefix "cfg" 1) (String.mk snap) = s
  have hread : MemoryStorage.storage.read s "journal.jsonl" = .ok (String.mk (journalText [line])) := by
    rw [← hs, MemoryStorage.storage_read, MemoryStorage.read_write_of_ne _ _ hkey, MemoryStorage.read_write]
  have hsnapr : MemoryStorage.storage.read s (makeKey configsPrefix "cfg" 1) = .ok (String.mk snap) := by
    rw [← hs, MemoryStorage.storage_read, MemoryStorage.read_write]
  have hfind : findByID MemoryStorage.storage "journal.jsonl" s "cfg" = .ok [e] := by
    simp [findByID, readAll_one_line hone hne hdec hread, hid]
  have hcomp := compact_one_line (fun keys => List.Perm.refl keys) hone hne hdec hread hb
  have hread' : MemoryStorage.storage.read (s.write "journal.jsonl" (String.mk (journalText [b])))
      "journal.jsonl" = .ok (String.mk (journalText [b])) := by
    rw [MemoryStorage.storage_read, MemoryStorage.read_write]
  have hfind' : findByID MemoryStorage.storage "journal.jsonl"
      (s.write "journal.jsonl" (String.mk (journalText [b]))) "cfg" = .error errTooLong := by
    simp only [findByID, readAll_too_long hbn hblong hread']
    rfl
  have hres : resequence [e] = some (.ok [e]) := resequence_singleton (.inr (by rw [← he]; decide))
  have hv : validateChain (fun t => some t) codePointDigest [e] = .ok () :=
    (validateChain_eq_ok _ _ _).mpr ⟨fun x hx => by
      rw [List.mem_singleton.mp hx, ← he]
      simp [ConfigOk], List.chain'_singleton _⟩
  have hl := load_of_read_unchecked (fun t => some t) codePointDigest hsnapr hu rfl
  have hcfg : e.config = none := he ▸ rfl
  have hver : e.version = 1 := he ▸ rfl
  refine ⟨s, s.write "journal.jsonl" (String.mk (journalText [b])), ⟨⟨1, ⟨0, 0⟩, "", "", ""⟩, some "1"⟩,
    hfind, ?_, hcomp, hfind', ?_⟩
  · refine reconstruct_of_latestOf _ _ hfind (List.cons_ne_nil _ _) hres ?_
    unfold latestOf
    rw [hv]
    simp only [List.getLast?_singleton, hcfg, hver, hl]
  · simp only [reconstruct, hfind']

end Journal

end Viracochan
