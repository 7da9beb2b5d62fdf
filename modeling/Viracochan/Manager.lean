import Viracochan.Journal.Chain
import Viracochan.Signer

/-!
# Viracochan: the configuration manager

A `Manager` ties together a `Storage`, the journal at its journal path, the
`ConfigStorage` under `configs` and an optional `Signer`, and caches the
latest config of each id.

A Go `Manager` is changed in place, and an operation that fails part way keeps
what it did before failing: a snapshot saved before a failed journal append
stays, and `getLatest` caches a rebuilt config even when the operation that
called it fails later.  So each operation maps the state to the state after
the call, together with what the call returns; one that calls `Resequence`
answers `none` when that loops forever.

**Writers.**  `Create`, `Update`, `Rollback` and `Import` build a config and end
with the same three steps, `commit`: save the snapshot, append a journal entry
copying the config's metadata, and cache the config.

**Readers.**  `Get` loads a snapshot; `GetLatest` answers from the cache, or
rebuilds the config with `Journal.Reconstruct` and caches it; `Export` writes
the latest config with `json.MarshalIndent`.

The clock is an argument: the one reading `now` serves both `time.Now()` in
`UpdateMeta` and `nostr.Now()` in the signer.  `json.Marshal` of the content
handed to `Create` and `Update` is not modelled: `content` is its outcome.
`Watch`, a polling goroutine, is modelled in `Manager.Watch`.

**Results.**
* `import_export`: `Import(id2, Export(id))` keeps the metadata of the config
  `GetLatest(id)` answers; the content is cached as `MarshalIndent` lays it out,
  and stored re-encoded.
* `export_import_reindents_content`: so the cached content's bytes are not the
  exported config's: `[1]` comes back as `[\n    1\n  ]`.
* `failed_writers_keep_saved_snapshot`: a writer that answers an error leaves the
  state as it was, or with the snapshot of its config saved when the append
  failed after the save; `Update` and `Rollback` may also have cached the config
  the journal rebuilds.
* `create_keeps_snapshot_on_append_error`: so a failed `Create` can leave a
  snapshot that `Get` reads.
* `update_wraps_version`: `Import` takes any version whose checksum matches,
  and `UpdateMeta` adds one in `uint64` arithmetic.
-/

namespace Viracochan

/-- What a `Manager` is made with: the path of its journal and its signer. -/
structure Manager (S : SchnorrScheme) where
  journalPath : String
  signer : Option (Signer S)

/-- `ManagerOption`. -/
inductive ManagerOption (S : SchnorrScheme) where
  | withSigner (signer : Signer S)
  | withJournalPath (path : String)

/-- What an option sets. -/
def ManagerOption.apply {S : SchnorrScheme} : ManagerOption S → Manager S → Manager S
  | .withSigner signer, m => { m with signer := some signer }
  | .withJournalPath path, m => { m with journalPath := path }

/-- `NewManager`: the options applied in turn to the journal `journal.jsonl`
and no signer. -/
def newManager {S : SchnorrScheme} (opts : List (ManagerOption S)) : Manager S :=
  opts.foldl (fun m opt => opt.apply m) ⟨"journal.jsonl", none⟩

/-- What the operations of a `Manager` change: the storage and the cache. -/
structure ManagerState (σ : Type) where
  store : σ
  cache : String → Option Config

/-- A new `Manager` over a storage: nothing cached. -/
def ManagerState.fresh {σ : Type} (s : σ) : ManagerState σ :=
  ⟨s, fun _ => none⟩

namespace Manager

open Json

/-- The journal entry a writer appends for `cfg`. -/
def entryOf (id op : String) (cfg : Config) : JournalEntry :=
  ⟨id, cfg.meta.version, cfg.meta.cs, cfg.meta.prevCS, cfg.meta.time, op, some cfg⟩

section Operations

variable {σ : Type} (st : Storage σ) (float64Text : List Char → Option (List Char))
  (sha256 : String → List UInt8) {S : SchnorrScheme} (m : Manager S)

/-- A writer's new config: `UpdateMeta`, then `Sign` when there is a signer. -/
def prepare (now : GoTime) (meta : Meta) (content : Option String) : Except String Config := do
  let cfg ← updateMeta float64Text sha256 now ⟨meta, content⟩
  match m.signer with
  | none => pure cfg
  | some signer => sign S sha256 signer now cfg

/-- The steps every writer ends with: `Save`, `Append`, and the cache set. -/
def commit (ms : ManagerState σ) (id op : String) (cfg : Config) :
    ManagerState σ × Except String Config :=
  match save st configsPrefix ms.store id cfg with
  | .error e => (ms, .error e)
  | .ok s1 =>
      match Journal.append st m.journalPath s1 (entryOf id op cfg) with
      | .error e => ({ ms with store := s1 }, .error e)
      | .ok s2 => (⟨s2, Function.update ms.cache id (some cfg)⟩, .ok cfg)

/-- `Manager.Reconstruct`: rebuild the config from the journal and cache it. -/
def reconstruct (ms : ManagerState σ) (id : String) :
    Option (ManagerState σ × Except String Config) :=
  (Journal.reconstruct st float64Text sha256 m.journalPath ms.store id).map fun
    | .ok cfg => ({ ms with cache := Function.update ms.cache id (some cfg) }, .ok cfg)
    | .error e => (ms, .error e)

/-- `getLatest`: the cached config, or the rebuilt one. -/
def getLatest (ms : ManagerState σ) (id : String) :
    Option (ManagerState σ × Except String Config) :=
  match ms.cache id with
  | some cfg => some (ms, .ok cfg)
  | none => reconstruct st float64Text sha256 m ms id

/-- `Manager.Get`: the snapshot of a version. -/
def get (ms : ManagerState σ) (id : String) (version : UInt64) : Except String Config :=
  load st float64Text sha256 configsPrefix ms.store id version

/-- `Manager.Create`. -/
def create (now : GoTime) (ms : ManagerState σ) (id : String) (content : Except String String) :
    ManagerState σ × Except String Config :=
  match content >>= fun data => prepare float64Text sha256 m now Meta.zero (some data) with
  | .error e => (ms, .error e)
  | .ok cfg => commit st m ms id "create" cfg

/-- `Manager.Update`. -/
def update (now : GoTime) (ms : ManagerState σ) (id : String) (content : Except String String) :
    Option (ManagerState σ × Except String Config) :=
  (getLatest st float64Text sha256 m ms id).map fun
    | (ms1, .error e) => (ms1, .error e)
    | (ms1, .ok current) =>
        match content >>= fun data => prepare float64Text sha256 m now current.meta (some data) with
        | .error e => (ms1, .error e)
        | .ok cfg => commit st m ms1 id "update" cfg

/-- `Manager.Rollback`: the content of a version, continuing the chain from the
latest config. -/
def rollback (now : GoTime) (ms : ManagerState σ) (id : String) (version : UInt64) :
    Option (ManagerState σ × Except String Config) :=
  match get st float64Text sha256 ms id version with
  | .error e => some (ms, .error e)
  | .ok target =>
      (getLatest st float64Text sha256 m ms id).map fun
        | (ms1, .error e) => (ms1, .error e)
        | (ms1, .ok latest) =>
            match prepare float64Text sha256 m now latest.meta target.content with
            | .error e => (ms1, .error e)
            | .ok cfg =>
                commit st m ms1 id ("rollback_to_v" ++ String.mk (decimal version.toNat)) cfg

/-- `Manager.Export`: `json.MarshalIndent` of the latest config. -/
def exportConfig (ms : ManagerState σ) (id : String) :
    Option (ManagerState σ × Except String (List Char)) :=
  (getLatest st float64Text sha256 m ms id).map fun r => (r.1, r.2 >>= marshalIndentConfig)

/-- `Manager.Import`: decode, validate, and commit as an `import`. -/
def importConfig (ms : ManagerState σ) (id : String) (data : List Char) :
    ManagerState σ × Except String Unit :=
  match unmarshalConfig data with
  | .error e => (ms, .error e.text)
  | .ok cfg =>
      match validate float64Text sha256 cfg with
      | .error e => (ms, .error ("invalid configuration: " ++ e))
      | .ok () =>
          let r := commit st m ms id "import" cfg
          (r.1, r.2.map fun _ => ())

/-- `Manager.GetHistory`: the snapshots of the listed versions in increasing
order, those that do not load skipped. -/
def getHistory (ms : ManagerState σ) (id : String) : Except String (List Config) := do
  let versions ← listVersions st configsPrefix ms.store id
  pure ((versions.insertionSort (· ≤ ·)).filterMap fun v =>
    (get st float64Text sha256 ms id v).toOption)

/-- `Manager.ValidateChain`. -/
def validateChain (ms : ManagerState σ) (id : String) : Option (Except String Unit) :=
  match Journal.findByID st m.journalPath ms.store id with
  | .error e => some (.error e)
  | .ok entries =>
      if entries = [] then some (.ok ())
      else
        (Journal.resequence entries).map fun
          | .error e => .error e.message
          | .ok ordered => Journal.validateChain float64Text sha256 ordered

/-- `Manager.Compact`, the journal's groups visited in the order `order` gives. -/
def compact (order : List String → List String) (ms : ManagerState σ) :
    Option (ManagerState σ × Except String Unit) :=
  (Journal.compact st m.journalPath order ms.store).map fun
    | .ok s' => ({ ms with store := s' }, .ok ())
    | .error e => (ms, .error e)

/-- `Manager.List`: the ids of the journal's entries, each once. -/
def list (ms : ManagerState σ) : Except String (List String) := do
  let entries ← Journal.readAll st m.journalPath ms.store
  pure (Journal.idsOf entries)

/-- `Manager.Verify`. -/
def verify (now : GoTime) (cfg : Config) (publicKey : String) : Except String Unit :=
  match m.signer with
  | none => .error "no signer configured"
  | some _ => Viracochan.verify S sha256 now cfg publicKey

end Operations

/-! ## Exporting and importing -/

section Lemmas

variable {σ : Type} {st : Storage σ} {float64Text : List Char → Option (List Char)}
  {sha256 : String → List UInt8} {S : SchnorrScheme} {m : Manager S}

theorem getLatest_of_cache {ms : ManagerState σ} {id : String} {c : Config}
    (h : ms.cache id = some c) : getLatest st float64Text sha256 m ms id = some (ms, .ok c) := by
  unfold getLatest
  rw [h]

theorem reconstruct_cache {ms ms1 : ManagerState σ} {id : String} {c : Config}
    (h : reconstruct st float64Text sha256 m ms id = some (ms1, .ok c)) : ms1.cache id = some c := by
  obtain ⟨r, -, hr⟩ := Option.map_eq_some'.mp h
  cases r with
  | error e => cases hr
  | ok cfg =>
      cases hr
      exact Function.update_same _ _ _

theorem getLatest_cache {ms ms1 : ManagerState σ} {id : String} {c : Config}
    (h : getLatest st float64Text sha256 m ms id = some (ms1, .ok c)) : ms1.cache id = some c := by
  unfold getLatest at h
  cases hc : ms.cache id with
  | some cfg =>
      rw [hc] at h
      cases h
      exact hc
  | none =>
      rw [hc] at h
      exact reconstruct_cache h

theorem exportConfig_of_getLatest {ms ms1 : ManagerState σ} {id : String} {c : Config}
    (h : getLatest st float64Text sha256 m ms id = some (ms1, .ok c)) :
    exportConfig st float64Text sha256 m ms1 id = some (ms1, marshalIndentConfig c) := by
  unfold exportConfig
  rw [getLatest_of_cache (getLatest_cache h), Option.map_some', except_ok_bind]

theorem commit_ok {ms : ManagerState σ} {id op : String} {cfg : Config} {s1 s2 : σ}
    (hs : save st configsPrefix ms.store id cfg = .ok s1)
    (ha : Journal.append st m.journalPath s1 (entryOf id op cfg) = .ok s2) :
    commit st m ms id op cfg = (⟨s2, Function.update ms.cache id (some cfg)⟩, .ok cfg) := by
  unfold commit
  simp only [hs, ha]

theorem commit_eq_ok {ms ms' : ManagerState σ} {id op : String} {cfg r : Config}
    (h : commit st m ms id op cfg = (ms', .ok r)) :
    ∃ s1 s2, save st configsPrefix ms.store id cfg = .ok s1 ∧
      Journal.append st m.journalPath s1 (entryOf id op cfg) = .ok s2 ∧
      ms' = ⟨s2, Function.update ms.cache id (some cfg)⟩ ∧ r = cfg := by
  unfold commit at h
  cases hs : save st configsPrefix ms.store id cfg with
  | error e => simp only [hs] at h; cases h
  | ok s1 =>
      cases ha : Journal.append st m.journalPath s1 (entryOf id op cfg) with
      | error e => simp only [hs, ha] at h; cases h
      | ok s2 =>
          simp only [hs, ha, Prod.mk.injEq, Except.ok.injEq] at h
          exact ⟨s1, s2, rfl, ha, h.1.symm, h.2.symm⟩

/-- What a `commit` did: saved and appended, answering the config; or answered an
error, having at most saved the snapshot. -/
theorem commit_cases {ms ms' : ManagerState σ} {id op : String} {cfg : Config}
    {r : Except String Config} (h : commit st m ms id op cfg = (ms', r)) :
    (∃ s1 s2, save st configsPrefix ms.store id cfg = .ok s1 ∧
      Journal.append st m.journalPath s1 (entryOf id op cfg) = .ok s2 ∧
      ms' = ⟨s2, Function.update ms.cache id (some cfg)⟩ ∧ r = .ok cfg) ∨
    (∀ c, r ≠ .ok c) ∧
      (ms' = ms ∨ ∃ s1, save st configsPrefix ms.store id cfg = .ok s1 ∧ ms' = { ms with store := s1 }) := by
  unfold commit at h
  cases hs : save st configsPrefix ms.store id cfg with
  | error e =>
      simp only [hs, Prod.mk.injEq] at h
      exact .inr ⟨fun c hc => (by rw [← h.2] at hc; cases hc), .inl h.1.symm⟩
  | ok s1 =>
      cases ha : Journal.append st m.journalPath s1 (entryOf id op cfg) with
      | error e =>
          simp only [hs, ha, Prod.mk.injEq] at h
          exact .inr ⟨fun c hc => (by rw [← h.2] at hc; cases hc), .inr ⟨s1, rfl, h.1.symm⟩⟩
      | ok s2 =>
          simp only [hs, ha, Prod.mk.injEq] at h
          exact .inl ⟨s1, s2, rfl, ha, h.1.symm, h.2.symm⟩

/-- What a writer's new config is: the next version after `meta`, naming its
checksum, stamped with the clock in UTC to the microsecond, with the content
given; it validates. -/
theorem prepare_eq_ok {now : GoTime} {meta : Meta} {content : Option String} {cfg : Config}
    (h : prepare float64Text sha256 m now meta content = .ok cfg) :
    cfg.meta.version = meta.version + 1 ∧ cfg.meta.prevCS = meta.cs ∧
      cfg.meta.time = now.utc.truncateMicro ∧ cfg.content = content ∧
      validate float64Text sha256 cfg = .ok () := by
  obtain ⟨c0, hu, h⟩ := except_bind_eq_ok.mp h
  have hv := updateMeta_validate float64Text sha256 hu
  have hc0 : c0.meta.version = meta.version + 1 ∧ c0.meta.prevCS = meta.cs ∧
      c0.meta.time = now.utc.truncateMicro ∧ c0.content = content := by
    unfold updateMeta at hu
    dsimp only at hu
    split at hu
    · cases hu
    · cases hu
      exact ⟨rfl, rfl, rfl, rfl⟩
  cases hsig : m.signer with
  | none =>
      simp only [hsig, except_pure, Except.ok.injEq] at h
      subst h
      exact ⟨hc0.1, hc0.2.1, hc0.2.2.1, hc0.2.2.2, hv⟩
  | some signer =>
      simp only [hsig, sign] at h
      split at h
      · cases h
      · cases h
        exact ⟨hc0.1, hc0.2.1, hc0.2.2.1, hc0.2.2.2, by simpa [validate] using hv⟩

/-- What `Create` did: answered an error and changed nothing; or made the config
from the zero metadata and committed it. -/
theorem create_cases {now : GoTime} {ms ms' : ManagerState σ} {id : String}
    {content : Except String String} {r : Except String Config}
    (h : create st float64Text sha256 m now ms id content = (ms', r)) :
    (ms' = ms ∧ ∀ c, r ≠ .ok c) ∨
      ∃ data cfg, content = .ok data ∧
        prepare float64Text sha256 m now Meta.zero (some data) = .ok cfg ∧
        commit st m ms id "create" cfg = (ms', r) := by
  unfold create at h
  split at h
  · cases h
    exact .inl ⟨rfl, fun c hc => by cases hc⟩
  · obtain ⟨data, hd, hp⟩ := except_bind_eq_ok.mp ‹_›
    exact .inr ⟨data, _, hd, hp, h⟩

/-- What `Manager.Reconstruct` did: cached the config `Journal.Reconstruct` rebuilt;
or answered an error and changed nothing. -/
theorem reconstruct_cases {ms ms' : ManagerState σ} {id : String} {r : Except String Config}
    (h : reconstruct st float64Text sha256 m ms id = some (ms', r)) :
    (∃ c, Journal.reconstruct st float64Text sha256 m.journalPath ms.store id = some (.ok c) ∧
      ms' = { ms with cache := Function.update ms.cache id (some c) } ∧ r = .ok c) ∨
    ms' = ms ∧ ∀ c, r ≠ .ok c := by
  obtain ⟨r0, hr0, h⟩ := Option.map_eq_some'.mp h
  cases r0 with
  | ok c =>
      cases h
      exact .inl ⟨c, hr0, rfl, rfl⟩
  | error e =>
      cases h
      exact .inr ⟨rfl, fun c hc => by cases hc⟩

/-- What `getLatest` did: answered the cached config, or what `Manager.Reconstruct`
answered on a cache miss. -/
theorem getLatest_cases {ms ms' : ManagerState σ} {id : String} {r : Except String Config}
    (h : getLatest st float64Text sha256 m ms id = some (ms', r)) :
    (∃ c, ms.cache id = some c ∧ ms' = ms ∧ r = .ok c) ∨
      ms.cache id = none ∧ reconstruct st float64Text sha256 m ms id = some (ms', r) := by
  unfold getLatest at h
  cases hc : ms.cache id with
  | some c =>
      rw [hc] at h
      cases h
      exact .inl ⟨c, rfl, rfl, rfl⟩
  | none =>
      rw [hc] at h
      exact .inr ⟨rfl, h⟩

/-- What `Update` did: `getLatest`, then answered an error with the state it left;
or made the next config after the latest and committed it. -/
theorem update_cases {now : GoTime} {ms ms' : ManagerState σ} {id : String}
    {content : Except String String} {r : Except String Config}
    (h : update st float64Text sha256 m now ms id content = some (ms', r)) :
    ∃ ms1 r1, getLatest st float64Text sha256 m ms id = some (ms1, r1) ∧
      ((ms' = ms1 ∧ ∀ c, r ≠ .ok c) ∨
        ∃ current data cfg, r1 = .ok current ∧ content = .ok data ∧
          prepare float64Text sha256 m now current.meta (some data) = .ok cfg ∧
          commit st m ms1 id "update" cfg = (ms', r)) := by
  obtain ⟨⟨ms1, r1⟩, hg, h⟩ := Option.map_eq_some'.mp h
  refine ⟨ms1, r1, hg, ?_⟩
  rcases r1 with e | current
  · cases h
    exact .inl ⟨rfl, fun c hc => by cases hc⟩
  · dsimp only at h
    split at h
    · cases h
      exact .inl ⟨rfl, fun c hc => by cases hc⟩
    · obtain ⟨data, hd, hp⟩ := except_bind_eq_ok.mp ‹_›
      exact .inr ⟨current, data, _, rfl, hd, hp, h⟩

/-- What `Rollback` did: answered an error with the state it left; or loaded the
target snapshot, made the next config after the latest with the target's content,
and committed it. -/
theorem rollback_cases {now : GoTime} {ms ms' : ManagerState σ} {id : String}
    {version : UInt64} {r : Except String Config}
    (h : rollback st float64Text sha256 m now ms id version = some (ms', r)) :
    (ms' = ms ∧ ∀ c, r ≠ .ok c) ∨
      ∃ target ms1 r1, get st float64Text sha256 ms id version = .ok target ∧
        getLatest st float64Text sha256 m ms id = some (ms1, r1) ∧
        ((ms' = ms1 ∧ ∀ c, r ≠ .ok c) ∨
          ∃ current cfg, r1 = .ok current ∧
            prepare float64Text sha256 m now current.meta target.content = .ok cfg ∧
            commit st m ms1 id ("rollback_to_v" ++ String.mk (decimal version.toNat)) cfg =
              (ms', r)) := by
  unfold rollback at h
  split at h
  · cases h
    exact .inl ⟨rfl, fun c hc => by cases hc⟩
  · rename_i target ht
    obtain ⟨⟨ms1, r1⟩, hg, h⟩ := Option.map_eq_some'.mp h
    refine .inr ⟨target, ms1, r1, ht, hg, ?_⟩
    rcases r1 with e | current
    · cases h
      exact .inl ⟨rfl, fun c hc => by cases hc⟩
    · dsimp only at h
      split at h
      · cases h
        exact .inl ⟨rfl, fun c hc => by cases hc⟩
      · exact .inr ⟨current, _, rfl, ‹_›, h⟩

/-- What `Manager.Compact` did: rewrote the journal, changing only the storage; or
answered an error and changed nothing. -/
theorem compact_cases {order : List String → List String} {ms ms' : ManagerState σ}
    {r : Except String Unit} (h : compact st m order ms = some (ms', r)) :
    (∃ s', Journal.compact st m.journalPath order ms.store = some (.ok s') ∧
      ms' = { ms with store := s' } ∧ r = .ok ()) ∨ ms' = ms ∧ ∀ u, r ≠ .ok u := by
  obtain ⟨r0, hr0, h⟩ := Option.map_eq_some'.mp h
  cases r0 with
  | ok s' =>
      cases h
      exact .inl ⟨s', hr0, rfl, rfl⟩
  | error e =>
      cases h
      exact .inr ⟨rfl, fun u hu => by cases hu⟩

theorem importConfig_eq_ok {ms ms' : ManagerState σ} {id : String} {data : List Char}
    (h : importConfig st float64Text sha256 m ms id data = (ms', .ok ())) :
    ∃ cfg, unmarshalConfig data = .ok cfg ∧ validate float64Text sha256 cfg = .ok () ∧
      commit st m ms id "import" cfg = (ms', .ok cfg) := by
  unfold importConfig at h
  cases hu : unmarshalConfig data with
  | error e => simp only [hu] at h; cases h
  | ok cfg =>
      cases hv : validate float64Text sha256 cfg with
      | error e => simp only [hu, hv] at h; cases h
      | ok u =>
          simp only [hu, hv] at h
          rcases hc : commit st m ms id "import" cfg with ⟨ms2, _ | r⟩
          · rw [hc] at h
            cases h
          · rw [hc] at h
            cases h
            obtain ⟨-, -, -, -, -, rfl⟩ := commit_eq_ok hc
            exact ⟨_, rfl, hv, hc⟩

theorem importConfig_of_commit {ms ms' : ManagerState σ} {id : String} {data : List Char}
    {cfg : Config} (hu : unmarshalConfig data = .ok cfg)
    (hv : validate float64Text sha256 cfg = .ok ())
    (hc : commit st m ms id "import" cfg = (ms', .ok cfg)) :
    importConfig st float64Text sha256 m ms id data = (ms', .ok ()) := by
  unfold importConfig
  simp only [hu, hv]
  rw [hc]
  rfl

/-- The entry a writer appends encodes when its config does. -/
theorem marshalEntry_entryOf {c : Config} {b : List Char} (hb : marshalConfig c = .ok b)
    (id op : String) : ∃ eb, marshalEntry (entryOf id op c) = .ok eb := by
  obtain ⟨v, hv, -⟩ := except_bind_eq_ok.mp hb
  obtain ⟨tb, -, ht, -, -⟩ := marshalConfig_eq.mp hb
  have hcm : configMember (some c) = .ok [("config".data, v)] := by
    simp only [configMember, hv, except_ok_bind, except_pure]
  exact ⟨_, marshalEntry_eq_render (e := entryOf id op c) ht hcm⟩

end Lemmas

/-! ## What a writer that fails leaves -/

section Failures

variable {σ : Type} (st : Storage σ) (float64Text : List Char → Option (List Char))
  (sha256 : String → List UInt8) {S : SchnorrScheme} (m : Manager S)

/-- What a writer that answered an error left of the state `ms` it committed
from: `ms`, or `ms` with a snapshot of `id` saved and the cache as it was. -/
def SavedAtMost (ms ms' : ManagerState σ) (id : String) : Prop :=
  ms' = ms ∨ ∃ cfg s1, save st configsPrefix ms.store id cfg = .ok s1 ∧ ms' = { ms with store := s1 }

/-- What `getLatest` left of `ms`: `ms`, or `ms` caching the config that
`Journal.Reconstruct` rebuilds for `id`. -/
def Recached (ms ms1 : ManagerState σ) (id : String) : Prop :=
  ms1 = ms ∨ ∃ c, Journal.reconstruct st float64Text sha256 m.journalPath ms.store id = some (.ok c) ∧
    ms1 = { ms with cache := Function.update ms.cache id (some c) }

variable {st float64Text sha256 m}

theorem commit_error {ms ms' : ManagerState σ} {id op : String} {cfg : Config}
    {r : Except String Config} (h : commit st m ms id op cfg = (ms', r)) (hr : ∀ c, r ≠ .ok c) :
    SavedAtMost st ms ms' id := by
  rcases commit_cases h with ⟨-, -, -, -, -, rfl⟩ | ⟨-, h⟩
  · exact absurd rfl (hr cfg)
  · exact h.imp_right fun ⟨s1, hs, h⟩ => ⟨cfg, s1, hs, h⟩

theorem getLatest_recached {ms ms1 : ManagerState σ} {id : String} {r : Except String Config}
    (h : getLatest st float64Text sha256 m ms id = some (ms1, r)) :
    Recached st float64Text sha256 m ms ms1 id := by
  rcases getLatest_cases h with ⟨-, -, rfl, -⟩ | ⟨-, hr⟩
  · exact .inl rfl
  · rcases reconstruct_cases hr with ⟨c, hc, rfl, -⟩ | ⟨rfl, -⟩
    · exact .inr ⟨c, hc, rfl⟩
    · exact .inl rfl

/-- **A writer that answers an error undoes nothing it did.**  `Create` and `Import`
leave the state as it was, or with the snapshot of their config saved when the
journal's `Append` failed after `Save`; `Update` and `Rollback` do the same from the
state `getLatest` left, which may cache the config the journal rebuilds. -/
theorem failed_writers_keep_saved_snapshot {now : GoTime} {ms ms' : ManagerState σ} {id e : String} :
    (∀ content, create st float64Text sha256 m now ms id content = (ms', .error e) →
      SavedAtMost st ms ms' id) ∧
    (∀ content, update st float64Text sha256 m now ms id content = some (ms', .error e) →
      ∃ ms1, Recached st float64Text sha256 m ms ms1 id ∧ SavedAtMost st ms1 ms' id) ∧
    (∀ version, rollback st float64Text sha256 m now ms id version = some (ms', .error e) →
      ∃ ms1, Recached st float64Text sha256 m ms ms1 id ∧ SavedAtMost st ms1 ms' id) ∧
    (∀ data, importConfig st float64Text sha256 m ms id data = (ms', .error e) →
      SavedAtMost st ms ms' id) := by
  have herr : ∀ c, (Except.error e : Except String Config) ≠ .ok c := fun c h => by cases h
  refine ⟨fun content h => ?_, fun content h => ?_, fun version h => ?_, fun data h => ?_⟩
  · rcases create_cases h with ⟨rfl, -⟩ | ⟨_, _, -, -, hc⟩
    · exact .inl rfl
    · exact commit_error hc herr
  · obtain ⟨ms1, r1, hg, ⟨rfl, -⟩ | ⟨_, _, _, -, -, -, hc⟩⟩ := update_cases h
    · exact ⟨_, getLatest_recached hg, .inl rfl⟩
    · exact ⟨ms1, getLatest_recached hg, commit_error hc herr⟩
  · rcases rollback_cases h with ⟨rfl, -⟩ | ⟨_, ms1, r1, -, hg, ⟨rfl, -⟩ | ⟨_, _, -, -, hc⟩⟩
    · exact ⟨_, .inl rfl, .inl rfl⟩
    · exact ⟨_, getLatest_recached hg, .inl rfl⟩
    · exact ⟨ms1, getLatest_recached hg, commit_error hc herr⟩
  · unfold importConfig at h
    split at h
    · exact .inl (Prod.mk.inj h).1.symm
    · rename_i cfg hcfg
      split at h
      · exact .inl (Prod.mk.inj h).1.symm
      · obtain ⟨h1, h2⟩ := Prod.mk.inj h
        rw [← h1]
        exact commit_error (Prod.mk.eta (p := commit st m ms id "import" cfg)).symm
          fun c hc => by rw [hc] at h2; cases h2

/-- A `Create` whose content does not encode changes nothing. -/
theorem failed_writers_keep_saved_snapshot_unencodable :
    create MemoryStorage.storage (fun t => some t) codePointDigest (newManager (S := referenceScheme) [])
        ⟨0, 0⟩ (.fresh .empty) "a" (.error "json: unsupported value") =
      (.fresh .empty, .error "json: unsupported value") ∧
    SavedAtMost MemoryStorage.storage (.fresh .empty) (.fresh .empty) "a" :=
  have h : create MemoryStorage.storage (fun t => some t) codePointDigest
      (newManager (S := referenceScheme) []) ⟨0, 0⟩ (.fresh .empty) "a"
      (.error "json: unsupported value") = (.fresh .empty, .error "json: unsupported value") := rfl
  ⟨h, failed_writers_keep_saved_snapshot.1 _ h⟩

end Failures

section ExportImport

variable {σ τ : Type} {st : Storage σ} {st' : Storage τ}
  {float64Text : List Char → Option (List Char)} {sha256 : String → List UInt8}
  {S S' : SchnorrScheme}

/-- **Export then import.**  Let `GetLatest(id)` answer `c`, whose time has a
whole-minute zone offset, and let `Import(id2, Export(id))` succeed on a
manager over a lawful storage whose journal is not that snapshot's key.  The
imported config keeps `c`'s metadata; its content, as cached, is `c`'s content
as `json.MarshalIndent` lays it out at depth one, and, as stored, is `c`'s
content re-encoded by `json.Marshal`. -/
theorem import_export (hst : st'.Lawful) (hind : st'.Independent) {m : Manager S}
    {m' : Manager S'} {ms ms1 ms1' : ManagerState σ} {ms2 ms3 : ManagerState τ}
    {id id2 : String} {c : Config} {data : List Char}
    (hget : getLatest st float64Text sha256 m ms id = some (ms1, .ok c))
    (hz : c.meta.time.offset % 60 = 0)
    (hexp : exportConfig st float64Text sha256 m ms1 id = some (ms1', .ok data))
    (himp : importConfig st' float64Text sha256 m' ms2 id2 data = (ms3, .ok ()))
    (hpath : m'.journalPath ≠ makeKey configsPrefix id2 c.meta.version) :
    ∃ cv : Value, marshalWith "json.RawMessage" (rawMessageJSON c.content) = .ok cv ∧
      getLatest st' float64Text sha256 m' ms3 id2 =
        some (ms3, .ok ⟨c.meta, some (String.mk (indentAt 1 cv.tokens))⟩) ∧
      get st' float64Text sha256 ms3 id2 c.meta.version = .ok c.reread := by
  rw [exportConfig_of_getLatest hget] at hexp
  obtain ⟨tb, cv, ht, hcv, rfl⟩ := marshalIndentConfig_ok (Prod.mk.inj (Option.some.inj hexp)).2
  obtain ⟨cfg, hu, hv, hc⟩ := importConfig_eq_ok himp
  rw [unmarshalConfig_indent ht hz (marshalWith_clean hcv)] at hu
  obtain rfl := Except.ok.inj hu
  obtain ⟨s1, s2, hs1, hs2, rfl, -⟩ := commit_eq_ok hc
  refine ⟨cv, hcv, getLatest_of_cache (Function.update_same _ _ _), ?_⟩
  obtain ⟨b, hb, hw⟩ := save_eq_ok hs1
  obtain ⟨jd, hj⟩ := Journal.append_eq_ok hs2
  have hr : st'.read s2 (makeKey configsPrefix id2 c.meta.version) = .ok (String.mk b) :=
    (hind.read_write_of_ne _ _ _ _ _ hj (Ne.symm hpath)).trans (hst.read_write _ _ _ _ hw)
  rw [← reread_indentAt hcv 1]
  exact load_of_read float64Text sha256 hr (unmarshalConfig_marshalConfig hb hz)
    (by rw [validate_reread float64Text sha256 hb (Option.some_ne_none _), hv])

end ExportImport

/-! ## A content exported and imported -/

/-- The config `Create` makes of the content `[1]` at the Unix epoch. -/
theorem prepare_epoch : ∃ c : Config,
    prepare (fun t => some t) codePointDigest (newManager (S := referenceScheme) []) ⟨0, 0⟩
        Meta.zero (some "[1]") = .ok c ∧
      validate (fun t => some t) codePointDigest c = .ok () ∧
      c.meta.time = ⟨0, 0⟩ ∧ c.meta.version = 1 ∧ c.content = some "[1]" := by
  obtain ⟨cs, hcs⟩ := computeChecksum_ok (fun t => some t) codePointDigest
    (c := ⟨nextMeta ⟨0, 0⟩ Meta.zero, some "[1]"⟩) rfl
  have hupd : updateMeta (fun t => some t) codePointDigest ⟨0, 0⟩ ⟨Meta.zero, some "[1]"⟩ =
      .ok ⟨{ nextMeta ⟨0, 0⟩ Meta.zero with cs := cs }, some "[1]"⟩ := by
    unfold updateMeta
    dsimp only
    rw [hcs]
  refine ⟨_, ?_, updateMeta_validate _ _ hupd, rfl, rfl, rfl⟩
  unfold prepare
  rw [hupd]
  rfl

/-- `Create("a", [1])` on a new `Manager` over an empty `MemoryStorage` at the
Unix epoch, then `Import("b", Export("a"))` on the same manager. -/
theorem create_export_import_epoch :
    ∃ (c : Config) (ms1 ms2 : ManagerState MemoryStorage) (data : List Char),
      create MemoryStorage.storage (fun t => some t) codePointDigest
          (newManager (S := referenceScheme) []) ⟨0, 0⟩ (.fresh .empty) "a" (.ok "[1]") =
        (ms1, .ok c) ∧
      getLatest MemoryStorage.storage (fun t => some t) codePointDigest
          (newManager (S := referenceScheme) []) ms1 "a" = some (ms1, .ok c) ∧
      c.content = some "[1]" ∧ c.meta.time = ⟨0, 0⟩ ∧ c.meta.version = 1 ∧
      exportConfig MemoryStorage.storage (fun t => some t) codePointDigest
          (newManager (S := referenceScheme) []) ms1 "a" = some (ms1, .ok data) ∧
      importConfig MemoryStorage.storage (fun t => some t) codePointDigest
          (newManager (S := referenceScheme) []) ms1 "b" data = (ms2, .ok ()) ∧
      ms2.cache "b" = some ⟨c.meta, some "[\n    1\n  ]"⟩ := by
  obtain ⟨c, hprep, hv, htime, hver, hcont⟩ := prepare_epoch
  have hcv : marshalWith "json.RawMessage" (rawMessageJSON c.content) =
      .ok (.array [.num ['1']]) := by
    rw [hcont]
    rfl
  have ht : c.meta.time.marshalJSON = .ok "\"1970-01-01T00:00:00Z\"".data := by
    rw [htime]
    exact GoTime.marshalJSON_unixEpoch
  have hcl := marshalWith_clean hcv
  -- `Create("a", [1])`
  obtain ⟨b, hb⟩ : ∃ b, marshalConfig c = .ok b := ⟨_, marshalConfig_eq.mpr ⟨_, _, ht, hcv, rfl⟩⟩
  obtain ⟨eb, he⟩ := marshalEntry_entryOf hb "a" "create"
  obtain ⟨s2, hs2, -⟩ := @Journal.append_spec _ _ "journal.jsonl" MemoryStorage.lawful
    (MemoryStorage.empty.write (makeKey configsPrefix "a" c.meta.version) (String.mk b)) _ _ he
  have hcr : create MemoryStorage.storage (fun t => some t) codePointDigest
      (newManager (S := referenceScheme) []) ⟨0, 0⟩ (.fresh .empty) "a" (.ok "[1]") =
        (⟨s2, Function.update (fun _ => none) "a" (some c)⟩, .ok c) := by
    unfold create
    simp only [except_ok_bind, hprep]
    exact commit_ok (save_memoryStorage hb configsPrefix _ "a") hs2
  have hget : getLatest MemoryStorage.storage (fun t => some t) codePointDigest
      (newManager (S := referenceScheme) []) ⟨s2, Function.update (fun _ => none) "a" (some c)⟩ "a" =
        some (⟨s2, Function.update (fun _ => none) "a" (some c)⟩, .ok c) :=
    getLatest_of_cache (by simp)
  -- `Import("b", Export("a"))`
  have hu := unmarshalConfig_indent ht (by rw [htime]; rfl) hcl
  have hv' := (validate_indent (fun t => some t) codePointDigest hcont hcv 1).trans hv
  obtain ⟨b', hb'⟩ : ∃ b', marshalConfig
      ⟨c.meta, some (String.mk (indentAt 1 (Value.array [.num ['1']]).tokens))⟩ = .ok b' :=
    ⟨_, marshalConfig_eq.mpr ⟨_, _, ht, marshalWith_indentAt hcl 1, rfl⟩⟩
  obtain ⟨eb', he'⟩ := marshalEntry_entryOf hb' "b" "import"
  obtain ⟨s3, hs3, -⟩ := @Journal.append_spec _ _ "journal.jsonl" MemoryStorage.lawful
    (s2.write (makeKey configsPrefix "b" c.meta.version) (String.mk b')) _ _ he'
  have hexp := exportConfig_of_getLatest hget
  rw [marshalIndentConfig_eq ht hcv] at hexp
  exact ⟨c, _, _, _, hcr, hget, hcont, htime, hver, hexp,
    importConfig_of_commit hu hv' (commit_ok (save_memoryStorage hb' configsPrefix _ "b") hs3),
    by simp only [Function.update_same]; rfl⟩

/-- **An import re-lays the content out.**  A config created with content `[1]`
is exported with `json.MarshalIndent`, and `Import("b", …)` caches the content
as the indented text has it: `GetLatest("b")` answers `[\n    1\n  ]`, not
`[1]`. -/
theorem export_import_reindents_content :
    ∃ (c : Config) (ms1 ms2 : ManagerState MemoryStorage) (data : List Char),
      create MemoryStorage.storage (fun t => some t) codePointDigest
          (newManager (S := referenceScheme) []) ⟨0, 0⟩ (.fresh .empty) "a" (.ok "[1]") =
        (ms1, .ok c) ∧
      getLatest MemoryStorage.storage (fun t => some t) codePointDigest
          (newManager (S := referenceScheme) []) ms1 "a" = some (ms1, .ok c) ∧
      c.content = some "[1]" ∧
      exportConfig MemoryStorage.storage (fun t => some t) codePointDigest
          (newManager (S := referenceScheme) []) ms1 "a" = some (ms1, .ok data) ∧
      importConfig MemoryStorage.storage (fun t => some t) codePointDigest
          (newManager (S := referenceScheme) []) ms1 "b" data = (ms2, .ok ()) ∧
      getLatest MemoryStorage.storage (fun t => some t) codePointDigest
          (newManager (S := referenceScheme) []) ms2 "b" =
        some (ms2, .ok ⟨c.meta, some "[\n    1\n  ]"⟩) := by
  obtain ⟨c, ms1, ms2, data, hcr, hget, hc, -, -, hexp, himp, hcache⟩ := create_export_import_epoch
  exact ⟨c, ms1, ms2, data, hcr, hget, hc, hexp, himp, getLatest_of_cache hcache⟩

theorem import_export_epoch :
    ∃ (c : Config) (ms1 ms3 : ManagerState MemoryStorage) (data : List Char),
      getLatest MemoryStorage.storage (fun t => some t) codePointDigest
          (newManager (S := referenceScheme) []) ms1 "a" = some (ms1, .ok c) ∧
      c.meta.time.offset % 60 = 0 ∧
      exportConfig MemoryStorage.storage (fun t => some t) codePointDigest
          (newManager (S := referenceScheme) []) ms1 "a" = some (ms1, .ok data) ∧
      importConfig MemoryStorage.storage (fun t => some t) codePointDigest
          (newManager (S := referenceScheme) []) ms1 "b" data = (ms3, .ok ()) ∧
      (newManager (S := referenceScheme) []).journalPath ≠
        makeKey configsPrefix "b" c.meta.version ∧
      ∃ cv : Value, marshalWith "json.RawMessage" (rawMessageJSON c.content) = .ok cv ∧
        getLatest MemoryStorage.storage (fun t => some t) codePointDigest
            (newManager (S := referenceScheme) []) ms3 "b" =
          some (ms3, .ok ⟨c.meta, some (String.mk (indentAt 1 cv.tokens))⟩) ∧
        get MemoryStorage.storage (fun t => some t) codePointDigest ms3 "b" c.meta.version =
          .ok c.reread := by
  obtain ⟨c, ms1, ms3, data, -, hget, -, htime, hver, hexp, himp, -⟩ := create_export_import_epoch
  have hz : c.meta.time.offset % 60 = 0 := by rw [htime]; rfl
  have hpath : (newManager (S := referenceScheme) []).journalPath ≠
      makeKey configsPrefix "b" c.meta.version := by
    rw [hver]
    decide
  exact ⟨c, ms1, ms3, data, hget, hz, hexp, himp, hpath,
    import_export MemoryStorage.lawful MemoryStorage.independent hget hz hexp himp hpath⟩

/-! ## A write that fails part way -/

/-- **A failed `Create` leaves its snapshot.**  Over a storage whose journal
write fails (a full disk), `Create("a", [1])` saves the snapshot, fails to
append the entry and returns the error, and `Get("a", 1)`, which failed before
the call, now answers the config. -/
theorem create_keeps_snapshot_on_append_error :
    ∃ (c : Config) (ms' : ManagerState MemoryStorage),
      create (MemoryStorage.failingWritesTo "journal.jsonl" "no space left on device")
          (fun t => some t) codePointDigest (newManager (S := referenceScheme) []) ⟨0, 0⟩
          (.fresh .empty) "a" (.ok "[1]") = (ms', .error "no space left on device") ∧
      get (MemoryStorage.failingWritesTo "journal.jsonl" "no space left on device")
          (fun t => some t) codePointDigest (.fresh .empty) "a" 1 = .error errNotExist ∧
      get (MemoryStorage.failingWritesTo "journal.jsonl" "no space left on device")
          (fun t => some t) codePointDigest ms' "a" 1 = .ok c := by
  obtain ⟨c, hprep, hv, htime, hver, hcont⟩ := prepare_epoch
  have ht : c.meta.time.marshalJSON = .ok "\"1970-01-01T00:00:00Z\"".data := by
    rw [htime]
    exact GoTime.marshalJSON_unixEpoch
  have hcv : marshalWith "json.RawMessage" (rawMessageJSON c.content) =
      .ok (.array [.num ['1']]) := by
    rw [hcont]
    rfl
  obtain ⟨b, hb⟩ : ∃ b, marshalConfig c = .ok b := ⟨_, marshalConfig_eq.mpr ⟨_, _, ht, hcv, rfl⟩⟩
  obtain ⟨eb, he⟩ := marshalEntry_entryOf hb "a" "create"
  have hkey : makeKey configsPrefix "a" c.meta.version = "configs/a/v1.json" := by
    rw [hver]
    decide
  have hsave : save (MemoryStorage.failingWritesTo "journal.jsonl" "no space left on device")
      configsPrefix MemoryStorage.empty "a" c =
        .ok (MemoryStorage.empty.write "configs/a/v1.json" (String.mk b)) := by
    unfold save
    simp only [hb, hkey]
    rfl
  have happ : Journal.append (MemoryStorage.failingWritesTo "journal.jsonl" "no space left on device")
      (newManager (S := referenceScheme) []).journalPath (MemoryStorage.empty.write "configs/a/v1.json" (String.mk b))
        (entryOf "a" "create" c) = .error "no space left on device" := by
    simp [Journal.append, he, MemoryStorage.failingWritesTo, newManager]
  have hcr : create (MemoryStorage.failingWritesTo "journal.jsonl" "no space left on device")
      (fun t => some t) codePointDigest (newManager (S := referenceScheme) []) ⟨0, 0⟩
      (.fresh .empty) "a" (.ok "[1]") =
        (⟨MemoryStorage.empty.write "configs/a/v1.json" (String.mk b), fun _ => none⟩,
          .error "no space left on device") := by
    unfold create
    simp only [except_ok_bind, hprep]
    unfold commit
    simp only [ManagerState.fresh, hsave]
    rw [happ]
  refine ⟨c.reread, _, hcr, rfl, ?_⟩
  have hr : MemoryStorage.read (MemoryStorage.empty.write "configs/a/v1.json" (String.mk b))
      (makeKey configsPrefix "a" 1) = .ok (String.mk b) := by
    rw [← hver, hkey]
    exact MemoryStorage.read_write _ _ _
  exact load_of_read _ _ hr (unmarshalConfig_marshalConfig hb (by rw [htime]; rfl))
    (by rw [validate_reread _ _ hb (by rw [hcont]; simp), hv])

/-! ## A version past `2^64 - 1` -/

/-- **The version wraps around.**  `Import` accepts a config of version
`2^64 - 1` whose checksum matches, and the next `Update` gives version `0`. -/
theorem update_wraps_version :
    ∃ (data : List Char) (c c' : Config) (ms1 ms2 : ManagerState MemoryStorage),
      importConfig MemoryStorage.storage (fun t => some t) codePointDigest
          (newManager (S := referenceScheme) []) (.fresh .empty) "x" data = (ms1, .ok ()) ∧
      getLatest MemoryStorage.storage (fun t => some t) codePointDigest
          (newManager (S := referenceScheme) []) ms1 "x" = some (ms1, .ok c) ∧
      c.meta.version = 18446744073709551615 ∧
      update MemoryStorage.storage (fun t => some t) codePointDigest
          (newManager (S := referenceScheme) []) ⟨0, 0⟩ ms1 "x" (.ok "2") = some (ms2, .ok c') ∧
      c'.meta.version = 0 := by
  obtain ⟨cs0, hcs0⟩ := computeChecksum_ok (fun t => some t) codePointDigest
    (c := ⟨⟨18446744073709551615, ⟨0, 0⟩, "", "", ""⟩, some "1"⟩) rfl
  have hv0 := validate_setChecksum _ _ hcs0
  set c0 : Config := ⟨{ (⟨18446744073709551615, ⟨0, 0⟩, "", "", ""⟩ : Meta) with cs := cs0 }, some "1"⟩
  have hcv0 : marshalWith "json.RawMessage" (rawMessageJSON c0.content) = .ok (.num ['1']) := rfl
  obtain ⟨b0, hb0⟩ : ∃ b, marshalConfig c0 = .ok b :=
    ⟨_, marshalConfig_eq.mpr ⟨_, _, GoTime.marshalJSON_unixEpoch, hcv0, rfl⟩⟩
  have hre : c0.reread = c0 := by
    rw [reread_of_marshalWith hcv0]
    rfl
  have hu0 := unmarshalConfig_marshalConfig hb0 rfl
  rw [hre] at hu0
  obtain ⟨eb0, he0⟩ := marshalEntry_entryOf hb0 "x" "import"
  obtain ⟨s2, hs2, -⟩ := @Journal.append_spec _ _ "journal.jsonl" MemoryStorage.lawful
    (MemoryStorage.empty.write (makeKey configsPrefix "x" c0.meta.version) (String.mk b0)) _ _ he0
  have himp := @importConfig_of_commit _ MemoryStorage.storage _ _ _
    (newManager (S := referenceScheme) []) (.fresh .empty) _ _ _ _ hu0 hv0 (commit_ok (save_memoryStorage hb0 configsPrefix _ "x") hs2)
  have hget : getLatest MemoryStorage.storage (fun t => some t) codePointDigest
      (newManager (S := referenceScheme) []) ⟨s2, Function.update (fun _ => none) "x" (some c0)⟩ "x" =
        some (⟨s2, Function.update (fun _ => none) "x" (some c0)⟩, .ok c0) :=
    getLatest_of_cache (by simp)
  -- `Update("x", 2)`
  obtain ⟨cs1, hcs1⟩ := computeChecksum_ok (fun t => some t) codePointDigest
    (c := ⟨nextMeta ⟨0, 0⟩ c0.meta, some "2"⟩) rfl
  set c1 : Config := ⟨{ nextMeta ⟨0, 0⟩ c0.meta with cs := cs1 }, some "2"⟩
  have hprep : prepare (fun t => some t) codePointDigest (newManager (S := referenceScheme) [])
      ⟨0, 0⟩ c0.meta (some "2") = .ok c1 := by
    unfold prepare updateMeta
    dsimp only
    rw [hcs1]
    rfl
  have hcv1 : marshalWith "json.RawMessage" (rawMessageJSON c1.content) = .ok (.num ['2']) := rfl
  obtain ⟨b1, hb1⟩ : ∃ b, marshalConfig c1 = .ok b :=
    ⟨_, marshalConfig_eq.mpr ⟨_, _, GoTime.marshalJSON_unixEpoch, hcv1, rfl⟩⟩
  obtain ⟨eb1, he1⟩ := marshalEntry_entryOf hb1 "x" "update"
  obtain ⟨s3, hs3, -⟩ := @Journal.append_spec _ _ "journal.jsonl" MemoryStorage.lawful
    (s2.write (makeKey configsPrefix "x" c1.meta.version) (String.mk b1)) _ _ he1
  have hupd : update MemoryStorage.storage (fun t => some t) codePointDigest
      (newManager (S := referenceScheme) []) ⟨0, 0⟩ ⟨s2, Function.update (fun _ => none) "x" (some c0)⟩
        "x" (.ok "2") =
      some (⟨s3, Function.update (Function.update (fun _ => none) "x" (some c0)) "x" (some c1)⟩,
        .ok c1) := by
    unfold update
    rw [hget, Option.map_some']
    simp only [except_ok_bind, hprep]
    exact congrArg some (commit_ok (save_memoryStorage hb1 configsPrefix _ "x") hs3)
  exact ⟨b0, c0, c1, _, _, himp, hget, rfl, hupd, by show (18446744073709551615 : UInt64) + 1 = 0; rfl⟩

end Manager

end Viracochan
