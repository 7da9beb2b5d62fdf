import Viracochan.Manager

/-!
# Viracochan: runs of a manager

A run of one `Manager` over a storage: `Create` of a configuration with no
journal entry yet, `Update`, `Rollback`, `Compact`, `GetLatest`, `Reconstruct` and
deletions of snapshot keys, one after another, the clock never going backwards and
every line appended to the journal fitting the scanner's 64 KiB buffer.

`Session` is the manager's state with two records the program does not keep: the
last reading of the clock, and the `history` of each configuration created in the
run, the operation and the config of every writer that succeeded since its
`Create`.  `Step` is one operation, and a run is `Relation.ReflTransGen Step`.

A run may start from a new `MemoryStorage`, whose journal `ReadAll` cannot read
until the first `Append` writes it (`JournalAt`).

**The invariant** (`Session.Inv`).  The journal holds the lines of storable
entries, or cannot be read yet and holds none; the entries of a created
configuration are those its writers appended, as read back, of which `Compact` may
have dropped the first ones; its history is a
`Lineage`, a hash chain from version 1 whose configs validate as they are read back;
the cache holds the last config of the history; every snapshot has a content.
The digest is collision-free and the journal's key is not a snapshot key.

**Results.**
* `run_keeps_latest`: in every state of a run, for every created configuration,
  `ValidateChain` passes, and `Journal.Reconstruct`, `Manager.Reconstruct` and the
  `GetLatest` of a fresh manager return the last config written, as read back,
  whose version is one plus the number of updates and rollbacks; the cache holds
  a config with its metadata.
* `run_numbers_writes`: the configs written of a configuration are versions
  1, 2, … of one hash chain, with distinct checksums.
* `run_journal_keeps_writes`: the journal holds the last entries written of each
  created configuration, in order, none lost or repeated.
* `run_lists_created`: `List` names every created configuration, each once, in a
  run started from a journal `ReadAll` reads (`run_journal_read`: only `Append` and
  `Compact` write the journal).
* `run_compact_keeps_last_ten`: a `Compact` keeps the last ten entries of each
  created configuration.
-/

namespace Viracochan

namespace Manager

open Journal Json

/-! ## What the writers of a configuration appended -/

/-- The entry a writer appended for `p`, its operation and its config, as the
journal reads it back. -/
def written (id : String) (p : String × Config) : JournalEntry :=
  (entryOf id p.1 p.2).reread

@[simp] theorem written_id (id : String) (p : String × Config) : (written id p).id = id := rfl

@[simp] theorem written_cs (id : String) (p : String × Config) :
    (written id p).cs = p.2.meta.cs := rfl

@[simp] theorem written_prevCS (id : String) (p : String × Config) :
    (written id p).prevCS = p.2.meta.prevCS := rfl

@[simp] theorem written_time (id : String) (p : String × Config) :
    (written id p).time = p.2.meta.time := rfl

@[simp] theorem written_config (id : String) (p : String × Config) :
    (written id p).config = some p.2.reread := rfl

section Lineage

variable (float64Text : List Char → Option (List Char)) (sha256 : String → List UInt8)

/-- What the writers of configuration `id` returned since its `Create`, as the
journal keeps their entries: a chain `Resequence` rebuilds, linked as
`ValidateChain` requires, from version 1 with no previous checksum, every config
validating as it is read back, none stamped after the clock. -/
structure Lineage (id : String) (clock : GoTime) (h : List (String × Config)) : Prop where
  chained : Chained (h.map (written id))
  linked : (h.map (written id)).Chain' Linked
  configs : ∀ e ∈ h.map (written id), ConfigOk float64Text sha256 e
  first : ∀ p ∈ h.head?, p.2.meta.version = 1 ∧ p.2.meta.prevCS = ""
  past : ∀ p ∈ h, p.2.meta.time.unixNano ≤ clock.truncateMicro.unixNano

theorem Lineage.nil (id : String) (clock : GoTime) : Lineage float64Text sha256 id clock [] :=
  ⟨⟨by simp, by simp, by simp, by simp⟩, by simp, by simp, by simp, by simp⟩

end Lineage

variable {float64Text sha256}

theorem Lineage.tick {id : String} {clock clock' : GoTime} {h : List (String × Config)}
    (hl : Lineage float64Text sha256 id clock h) (hc : clock.unixNano ≤ clock'.unixNano) :
    Lineage float64Text sha256 id clock' h :=
  { hl with past := fun p hp => (hl.past p hp).trans (GoTime.truncateMicro_mono hc) }

/-- **A writer extends the lineage** with a config linked to the last one, not
stamped after the clock, that validates as it is read back: with a collision-free
digest, its checksum is new. -/
theorem Lineage.snoc (hf : NumbersWellFormed float64Text) (hsha : Function.Injective sha256)
    (hne : ∀ s : String, s.data ≠ [] → sha256 s ≠ []) {id : String} {clock : GoTime}
    {h : List (String × Config)} (hl : Lineage float64Text sha256 id clock h) {op : String}
    {c : Config} (hstart : h = [] → c.meta.version = 1 ∧ c.meta.prevCS = "")
    (hnext : ∀ last ∈ h.getLast?, Linked (written id last) (written id (op, c)))
    (hvalid : validate float64Text sha256 c.reread = .ok ())
    (hpast : c.meta.time.unixNano ≤ clock.truncateMicro.unixNano) :
    Lineage float64Text sha256 id clock (h ++ [(op, c)]) := by
  have hcs : c.meta.cs ≠ "" := fun h0 =>
    validate_empty_cs float64Text sha256 hne (c := c.reread) h0 hvalid
  have hlast : ∀ last ∈ (h.map (written id)).getLast?, Linked last (written id (op, c)) := by
    intro last hl'
    rw [List.getLast?_map] at hl'
    obtain ⟨p, hp, rfl⟩ := Option.mem_map.mp hl'
    exact hnext p hp
  have hconfig : ConfigOk float64Text sha256 (written id (op, c)) := by
    intro c' hc'
    cases hc'
    exact ⟨hvalid, rfl⟩
  refine ⟨?_, ?_, ?_, ?_, ?_⟩
  · rw [List.map_append, List.map_singleton]
    refine hl.chained.snoc hcs (fun last hl' => (hlast last hl').1) (fun a ha => ?_) ?_
    · rcases h with _ | ⟨p, h⟩
      · cases ha
        simpa [(hstart rfl).2] using hcs
      · cases ha
        simpa [(hl.first p rfl).2] using hcs
    · intro x hx hxc
      obtain ⟨q, hq, rfl⟩ := List.mem_map.mp hx
      have hvq := (hl.configs _ (List.mem_map_of_mem _ hq) q.2.reread rfl).1
      simpa using prevCS_eq_of_cs_eq float64Text sha256 hf hsha hvq hvalid (by simpa using hxc)
  · rw [List.map_append, List.map_singleton]
    exact List.chain'_append.mpr ⟨hl.linked, List.chain'_singleton _, fun x hx y hy => by
      cases List.mem_singleton.mp (List.mem_of_mem_head? hy); exact hlast x hx⟩
  · rw [List.map_append, List.map_singleton]
    exact fun e he => (List.mem_append.mp he).elim (hl.configs e)
      fun he => List.mem_singleton.mp he ▸ hconfig
  · rcases h with _ | ⟨p, h⟩
    · rintro _ ⟨⟩
      exact hstart rfl
    · exact hl.first
  · exact fun p hp => (List.mem_append.mp hp).elim (hl.past p)
      fun hp => List.mem_singleton.mp hp ▸ hpast

/-- A manager in a run: its state, the last reading of its clock, and the history
of each configuration created in the run, the operation and the config of every
writer that succeeded since its `Create` (records the program does not keep). -/
structure Session (σ : Type) where
  state : ManagerState σ
  clock : GoTime
  history : String → List (String × Config)

/-- A new manager over a storage, before any operation. -/
def Session.start {σ : Type} (s : σ) (clock : GoTime) : Session σ :=
  ⟨.fresh s, clock, fun _ => []⟩

/-- The history after a writer `op` of `id` answered `r`: the config returned
extends the history of `id`. -/
def extendedHistory (H : String → List (String × Config)) (id op : String) :
    Except String Config → String → List (String × Config)
  | .ok c => Function.update H id (H id ++ [(op, c)])
  | .error _ => H

theorem extendedHistory_of_error {H : String → List (String × Config)} {id op : String}
    {r : Except String Config} (h : ∀ c, r ≠ .ok c) : extendedHistory H id op r = H := by
  cases r with
  | error e => rfl
  | ok c => exact absurd rfl (h c)

/-- A journal line that fits the scanner's buffer. -/
def LineFits (e : JournalEntry) : Prop :=
  byteLength (encoded e) < maxScanTokenSize

section Step

variable {σ : Type} (st : Storage σ) (float64Text : List Char → Option (List Char))
  (sha256 : String → List UInt8) {S : SchnorrScheme} (m : Manager S)

/-- One operation of a run: the writers read a clock that never goes backwards and
append lines that fit the scanner's buffer.  `Create` is for a configuration with
no journal entry (none at all when the journal cannot be read), and starts its history; `Update` and `Rollback` extend the history
of a configuration created in the run. -/
inductive Step : Session σ → Session σ → Prop
  | create {T : Session σ} {ms : ManagerState σ} {r : Except String Config} (now : GoTime)
      (id : String) (content : Except String String) (hclock : T.clock.unixNano ≤ now.unixNano)
      (hnew : ∀ es, findByID st m.journalPath T.state.store id = .ok es → es = [])
      (hrun : create st float64Text sha256 m now T.state id content = (ms, r))
      (hfits : ∀ c, r = .ok c → LineFits (entryOf id "create" c)) :
      Step T ⟨ms, now, extendedHistory T.history id "create" r⟩
  | update {T : Session σ} {ms : ManagerState σ} {r : Except String Config} (now : GoTime)
      (id : String) (content : Except String String) (hclock : T.clock.unixNano ≤ now.unixNano)
      (hrun : update st float64Text sha256 m now T.state id content = some (ms, r))
      (hfits : ∀ c, r = .ok c → LineFits (entryOf id "update" c)) :
      Step T ⟨ms, now,
        if T.history id = [] then T.history else extendedHistory T.history id "update" r⟩
  | rollback {T : Session σ} {ms : ManagerState σ} {r : Except String Config} (now : GoTime)
      (id : String) (version : UInt64) (hclock : T.clock.unixNano ≤ now.unixNano)
      (hrun : rollback st float64Text sha256 m now T.state id version = some (ms, r))
      (hfits : ∀ c, r = .ok c →
        LineFits (entryOf id ("rollback_to_v" ++ String.mk (decimal version.toNat)) c)) :
      Step T ⟨ms, now, if T.history id = [] then T.history else
        extendedHistory T.history id ("rollback_to_v" ++ String.mk (decimal version.toNat)) r⟩
  | compact {T : Session σ} {ms : ManagerState σ} {r : Except String Unit}
      (order : List String → List String) (hord : Ordered order)
      (hrun : Manager.compact st m order T.state = some (ms, r)) :
      Step T { T with state := ms }
  | getLatest {T : Session σ} {ms : ManagerState σ} {r : Except String Config} (id : String)
      (hrun : getLatest st float64Text sha256 m T.state id = some (ms, r)) :
      Step T { T with state := ms }
  | reconstruct {T : Session σ} {ms : ManagerState σ} {r : Except String Config} (id : String)
      (hrun : Manager.reconstruct st float64Text sha256 m T.state id = some (ms, r)) :
      Step T { T with state := ms }
  | deleteSnapshot {T : Session σ} {s : σ} (id : String) (version : UInt64)
      (hrun : st.delete T.state.store (makeKey configsPrefix id version) = .ok s) :
      Step T { T with state := { T.state with store := s } }

/-- What `prepare` makes at `now` with a content: stamped with the clock in UTC to
the microsecond, and validating. -/
structure Fresh (now : GoTime) (cfg : Config) : Prop where
  time : cfg.meta.time = now.utc.truncateMicro
  valid : validate float64Text sha256 cfg = .ok ()
  content : cfg.content ≠ none

/-- Every snapshot under `configs` that loads has a content. -/
def Filled (s : σ) : Prop :=
  ∀ id v c, load st float64Text sha256 configsPrefix s id v = .ok c → c.content ≠ none

/-- The journal at `path` holds the storable entries `es`; or it cannot be read yet
and `es` is empty, as on a new `MemoryStorage`, whose `os.ErrNotExist` `ReadAll`
does not take for an absent journal. -/
def JournalAt (path : String) (s : σ) (es : List JournalEntry) : Prop :=
  Journaled st path s es ∨ es = [] ∧ ∃ e, st.read s path = .error e

/-- The journal at `path` holds storable entries, and each configuration created in
the run has there the last entries its writers appended. -/
def Tracks (path : String) (s : σ) (H : String → List (String × Config)) : Prop :=
  ∃ es, JournalAt st path s es ∧ ∀ id, H id ≠ [] →
    ∃ j < (H id).length, es.filter (fun e => e.id = id) = ((H id).map (written id)).drop j

/-- The invariant of a run (see the module's introduction). -/
structure Session.Inv (T : Session σ) : Prop where
  journal : Tracks st m.journalPath T.state.store T.history
  lineage : ∀ id, Lineage float64Text sha256 id T.clock (T.history id)
  cached : ∀ id, ∀ p ∈ (T.history id).getLast?, ∃ c, T.state.cache id = some c ∧ c.meta = p.2.meta
  snapshots : Filled st float64Text sha256 T.state.store

end Step

/-! ## What each operation keeps -/

section Preservation

variable {σ : Type} {st : Storage σ} {float64Text : List Char → Option (List Char)}
  {sha256 : String → List UInt8}

/-- A config the encoder wrote reads back with a content. -/
theorem reread_content_ne_none {c : Config} {b : List Char} (hb : marshalConfig c = .ok b) :
    c.reread.content ≠ none := by
  obtain ⟨-, cv, -, hcv, -⟩ := marshalConfig_eq.mp hb
  rw [reread_of_marshalWith hcv]
  exact Option.some_ne_none _

theorem Filled.of_read_eq {s s' : σ} (h : Filled st float64Text sha256 s)
    (hr : ∀ id v, st.read s' (makeKey configsPrefix id v) = st.read s (makeKey configsPrefix id v)) :
    Filled st float64Text sha256 s' := fun id v c hl =>
  h id v c (by rwa [load_congr float64Text sha256 (hr id v)] at hl)

/-- A `Save` keeps every snapshot filled: the one it writes loads as the config
reread. -/
theorem Filled.of_save (hst : st.Lawful) (hind : st.Independent) {s s' : σ}
    (h : Filled st float64Text sha256 s) {id : String} {cfg : Config}
    (hs : save st configsPrefix s id cfg = .ok s') (hz : cfg.meta.time.offset % 60 = 0) :
    Filled st float64Text sha256 s' := by
  obtain ⟨b, hb, hw⟩ := save_eq_ok hs
  intro id' v c hl
  by_cases hk : makeKey configsPrefix id' v = makeKey configsPrefix id cfg.meta.version
  · obtain ⟨data, hr, hu, -⟩ := load_eq_ok float64Text sha256 hl
    rw [hk, hst.read_write _ _ _ _ hw] at hr
    cases hr
    rw [show (String.mk b).data = b from rfl, unmarshalConfig_marshalConfig hb hz] at hu
    cases hu
    exact reread_content_ne_none hb
  · exact h id' v c
      (by rwa [load_congr float64Text sha256 (hind.read_write_of_ne _ _ _ _ _ hw hk)] at hl)

/-- A delete keeps every snapshot filled: the key it deletes no longer loads. -/
theorem Filled.of_delete (hind : st.Independent) (hdel : st.Deletes) {s s' : σ}
    (h : Filled st float64Text sha256 s) {k : String} (hd : st.delete s k = .ok s') :
    Filled st float64Text sha256 s' := by
  intro id v c hl
  by_cases hk : makeKey configsPrefix id v = k
  · obtain ⟨data, hr, -⟩ := load_eq_ok float64Text sha256 hl
    obtain ⟨e, he⟩ := hdel.read_delete _ _ _ hd
    rw [hk, he] at hr
    cases hr
  · exact h id v c
      (by rwa [load_congr float64Text sha256 (hind.read_delete_of_ne _ _ _ _ hd hk)] at hl)

/-- `FindByID` reads the journal's key only. -/
theorem findByID_congr {path : String} {s s' : σ} (h : st.read s' path = st.read s path)
    (id : String) : findByID st path s' id = findByID st path s id := by
  simp only [findByID, readAll, h]

theorem JournalAt.of_read_eq {path : String} {s s' : σ} {es : List JournalEntry}
    (h : JournalAt st path s es) (hr : st.read s' path = st.read s path) : JournalAt st path s' es :=
  h.imp (fun h => h.of_read_eq hr) fun ⟨he, e, hs⟩ => ⟨he, e, hr.trans hs⟩

/-- An `Append` to a journal that cannot be read writes the entry's line alone. -/
theorem JournalAt.snoc {path : String} {s s' : σ} {es : List JournalEntry} (hst : st.Lawful)
    (h : JournalAt st path s es) {e : JournalEntry} (he : Storable e)
    (ha : append st path s e = .ok s') : Journaled st path s' (es ++ [e.reread]) := by
  rcases h with h | ⟨rfl, err, hr⟩
  · exact h.snoc hst he ha
  · exact Journaled.of_append hst (by simp [hr, existingOf]) (by simp) (by simp) he ha

theorem filter_append_reread_of_ne (es : List JournalEntry) {e : JournalEntry} {id : String}
    (h : e.id ≠ id) :
    (es ++ [e.reread]).filter (fun x => x.id = id) = es.filter (fun x => x.id = id) := by
  simp [List.filter_append, JournalEntry.reread, h]

/-- The entry a writer appends is storable when its line fits and its config is
stamped with a whole-minute zone offset. -/
theorem storable_entryOf {path : String} {s s' : σ} {id op : String} {cfg : Config}
    (hz : cfg.meta.time.offset % 60 = 0) (ha : append st path s (entryOf id op cfg) = .ok s')
    (hfits : LineFits (entryOf id op cfg)) : Storable (entryOf id op cfg) := by
  obtain ⟨b, hb, -⟩ := except_bind_eq_ok.mp ha
  exact ⟨⟨b, hb⟩, hfits, hz, fun c hc => by cases hc; exact hz⟩

section Tracks

variable {path : String} {s s' : σ} {H : String → List (String × Config)}

theorem Tracks.of_read_eq (h : Tracks st path s H) (hr : st.read s' path = st.read s path) :
    Tracks st path s' H := by
  obtain ⟨es, hj, hH⟩ := h
  exact ⟨es, hj.of_read_eq hr, hH⟩

/-- The journal of a run that created a configuration can be read. -/
theorem Tracks.journaled (h : Tracks st path s H) {id : String} (hh : H id ≠ []) :
    ∃ es, Journaled st path s es ∧
      ∃ j < (H id).length, es.filter (fun e => e.id = id) = ((H id).map (written id)).drop j := by
  obtain ⟨es, hj, hrep⟩ := h
  obtain ⟨j, hjl, he⟩ := hrep id hh
  refine ⟨es, hj.resolve_right fun ⟨hes, _⟩ => ?_, j, hjl, he⟩
  rw [hes, List.filter_nil, eq_comm, List.drop_eq_nil_iff, List.length_map] at he
  omega

/-- An entry of a configuration not created in the run leaves the entries of those
created. -/
theorem Tracks.of_append_untracked (hst : st.Lawful) (h : Tracks st path s H) {e : JournalEntry}
    (he : Storable e) (hid : H e.id = []) (ha : append st path s e = .ok s') :
    Tracks st path s' H := by
  obtain ⟨es, hj, hH⟩ := h
  refine ⟨_, .inl (hj.snoc hst he ha), fun id hne => ?_⟩
  rw [filter_append_reread_of_ne es fun (h' : e.id = id) => hne (h' ▸ hid)]
  exact hH id hne

/-- **A writer's entry extends the entries of its configuration**, created in the
run or being created. -/
theorem Tracks.of_append_tracked (hst : st.Lawful) (h : Tracks st path s H) {id op : String}
    {cfg : Config} (he : Storable (entryOf id op cfg))
    (hfresh : H id = [] → ∀ D, findByID st path s id = .ok D → D = [])
    (ha : append st path s (entryOf id op cfg) = .ok s') :
    Tracks st path s' (Function.update H id (H id ++ [(op, cfg)])) := by
  obtain ⟨es, hj, hH⟩ := h
  refine ⟨_, .inl (hj.snoc hst he ha), fun id' hne => ?_⟩
  by_cases hid : id' = id
  · subst hid
    obtain ⟨j, hjl, hf⟩ : ∃ j ≤ (H id').length,
        es.filter (fun e => e.id = id') = ((H id').map (written id')).drop j := by
      by_cases h0 : H id' = []
      · have hnil : es.filter (fun e => e.id = id') = [] := by
          rcases hj with hj | ⟨rfl, -⟩
          · exact hfresh h0 _ (hj.findByID_eq id')
          · rfl
        exact ⟨0, Nat.zero_le _, by simpa [h0] using hnil⟩
      · obtain ⟨j, hjl, hf⟩ := hH id' h0
        exact ⟨j, hjl.le, hf⟩
    refine ⟨j, by simp; omega, ?_⟩
    rw [Function.update_same, List.filter_append, hf, List.map_append,
      List.drop_append_of_le_length (by simpa using hjl)]
    simp [written, JournalEntry.reread, entryOf]
  · rw [Function.update_noteq hid] at hne ⊢
    rw [filter_append_reread_of_ne es fun h' => hid h'.symm]
    exact hH id' hne

/-- **`Compact` keeps the last entries of each configuration created in the run**,
and every other key. -/
theorem Tracks.of_compact (hst : st.Lawful) (hind : st.Independent) (h : Tracks st path s H)
    (hc : ∀ id, Chained ((H id).map (written id))) {order : List String → List String}
    (hord : Ordered order) (hcomp : Journal.compact st path order s = some (.ok s')) :
    Tracks st path s' H ∧ ∀ k, k ≠ path → st.read s' k = st.read s k := by
  obtain ⟨es, hj | ⟨rfl, e, hr⟩, hH⟩ := h
  swap
  · have hs : s' = s := by
      cases ha : isAbsent e <;> simp_all [Journal.compact]
    subst hs
    exact ⟨⟨[], .inr ⟨rfl, e, hr⟩, hH⟩, fun _ _ => rfl⟩
  obtain ⟨C, hC, hother, hfilter⟩ := hj.compact hst hind hord hcomp
  refine ⟨⟨C, .inl hC, fun id hne => ?_⟩, hother⟩
  obtain ⟨j, hjl, hf⟩ := hH id hne
  rw [hfilter, hf, keptEntries_ok ((hc id).drop j).resequence_self, Option.getD_some,
    List.drop_drop]
  exact ⟨_, by simp only [List.length_drop, List.length_map]; omega, rfl⟩

end Tracks

end Preservation

section Invariant

variable {σ : Type} {st : Storage σ} {float64Text : List Char → Option (List Char)}
  {sha256 : String → List UInt8} {S : SchnorrScheme} {m : Manager S} {T : Session σ}

/-- A run starts in the invariant from a journal of storable entries, or one that
cannot be read yet, and snapshots that all have a content. -/
theorem Session.Inv.start {s : σ} {es : List JournalEntry} (hj : JournalAt st m.journalPath s es)
    (hs : Filled st float64Text sha256 s) (clock : GoTime) :
    (Session.start s clock).Inv st float64Text sha256 m :=
  ⟨⟨es, hj, fun _ h => absurd rfl h⟩, fun id => Lineage.nil float64Text sha256 id clock,
    fun _ _ h => (by cases h), hs⟩

/-- The entries of a created configuration: the last ones its writers appended, a
chain that `Resequence` rebuilds as it is and that `ValidateChain` accepts. -/
theorem Session.Inv.entries (hi : T.Inv st float64Text sha256 m) {id : String}
    (hh : T.history id ≠ []) :
    ∃ j < (T.history id).length,
      findByID st m.journalPath T.state.store id = .ok (((T.history id).map (written id)).drop j) ∧
      resequence (((T.history id).map (written id)).drop j) =
        some (.ok (((T.history id).map (written id)).drop j)) ∧
      Journal.validateChain float64Text sha256 (((T.history id).map (written id)).drop j) = .ok () := by
  obtain ⟨es, hj, j, hjl, he⟩ := hi.journal.journaled hh
  have hl := hi.lineage id
  exact ⟨j, hjl, by rw [hj.findByID_eq, he], (hl.chained.drop j).resequence_self,
    (validateChain_eq_ok float64Text sha256 _).mpr
      ⟨fun e he => hl.configs e (List.mem_of_mem_drop he), hl.linked.drop j⟩⟩

/-- A configuration with no journal entry was not created in the run. -/
theorem Session.Inv.history_eq_nil (hi : T.Inv st float64Text sha256 m) {id : String}
    (hnew : ∀ es, findByID st m.journalPath T.state.store id = .ok es → es = []) :
    T.history id = [] := by
  by_contra hh
  obtain ⟨j, hjl, hf, -⟩ := hi.entries hh
  have hd := hnew _ hf
  rw [List.drop_eq_nil_iff, List.length_map] at hd
  omega

/-- **What `Reconstruct` answers for a created configuration**: the last config
written, as read back. -/
theorem Session.Inv.reconstruct_eq (hi : T.Inv st float64Text sha256 m)
    {id : String} {last : String × Config} (hlast : (T.history id).getLast? = some last) :
    Journal.reconstruct st float64Text sha256 m.journalPath T.state.store id =
      some (.ok last.2.reread) := by
  have hh : T.history id ≠ [] := fun h => by simp [h] at hlast
  obtain ⟨j, hjl, hf, hr, hv⟩ := hi.entries hh
  have hne : ((T.history id).map (written id)).drop j ≠ [] := by
    simpa [List.drop_eq_nil_iff] using hjl
  have hget : (((T.history id).map (written id)).drop j).getLast? = some (written id last) := by
    rw [List.getLast?_drop, if_neg (by simpa using hjl), List.getLast?_map, hlast]
    rfl
  refine reconstruct_of_latestOf float64Text sha256 hf hne hr ?_
  simp only [latestOf, hv, hget, written_config]

theorem Session.Inv.tick (hi : T.Inv st float64Text sha256 m) {now : GoTime}
    (hclock : T.clock.unixNano ≤ now.unixNano) :
    Session.Inv st float64Text sha256 m ⟨T.state, now, T.history⟩ :=
  { hi with lineage := fun id => (hi.lineage id).tick hclock }

/-- A `Save` keeps the invariant: it writes a snapshot key, which is not the
journal's. -/
theorem Session.Inv.saved (hst : st.Lawful) (hind : st.Independent)
    (hpath : ∀ id v, makeKey configsPrefix id v ≠ m.journalPath)
    (hi : T.Inv st float64Text sha256 m) {id : String} {cfg : Config} {s1 : σ}
    (hs : save st configsPrefix T.state.store id cfg = .ok s1) (hz : cfg.meta.time.offset % 60 = 0) :
    Session.Inv st float64Text sha256 m ⟨{ T.state with store := s1 }, T.clock, T.history⟩ := by
  obtain ⟨b, -, hw⟩ := save_eq_ok hs
  exact { hi with
    journal := hi.journal.of_read_eq (hind.read_write_of_ne _ _ _ _ _ hw (hpath _ _).symm)
    snapshots := hi.snapshots.of_save hst hind hs hz }

/-- Caching a config with the metadata of the last one written keeps the invariant. -/
theorem Session.Inv.cache (hi : T.Inv st float64Text sha256 m) {id : String} {c : Config}
    (hc : ∀ p ∈ (T.history id).getLast?, c.meta = p.2.meta) :
    Session.Inv st float64Text sha256 m
      ⟨{ T.state with cache := Function.update T.state.cache id (some c) }, T.clock, T.history⟩ := by
  refine { hi with cached := fun id' p hp => ?_ }
  by_cases h : id' = id
  · subst h
    exact ⟨c, Function.update_same _ _ _, hc p hp⟩
  · simpa only [Function.update_noteq h] using hi.cached id' p hp

/-- `Manager.Reconstruct` keeps the invariant: for a created configuration it caches
the last config written, as read back. -/
theorem Session.Inv.reconstructed (hi : T.Inv st float64Text sha256 m) {id : String}
    {ms : ManagerState σ} {r : Except String Config}
    (hrun : Manager.reconstruct st float64Text sha256 m T.state id = some (ms, r)) :
    Session.Inv st float64Text sha256 m ⟨ms, T.clock, T.history⟩ := by
  rcases reconstruct_cases hrun with ⟨c, hc, rfl, -⟩ | ⟨rfl, -⟩
  · refine hi.cache fun p hp => ?_
    rw [hi.reconstruct_eq hp] at hc
    cases hc
    rfl
  · exact hi

theorem Session.Inv.latest (hi : T.Inv st float64Text sha256 m) {id : String}
    {ms : ManagerState σ} {r : Except String Config}
    (hrun : getLatest st float64Text sha256 m T.state id = some (ms, r)) :
    Session.Inv st float64Text sha256 m ⟨ms, T.clock, T.history⟩ := by
  rcases getLatest_cases hrun with ⟨c, -, rfl, -⟩ | ⟨-, hr⟩
  · exact hi
  · exact hi.reconstructed hr

/-- For a created configuration, `getLatest` answers from the cache a config with
the metadata of the last one written. -/
theorem Session.Inv.getLatest_of_last (hi : T.Inv st float64Text sha256 m) {id : String}
    {last : String × Config} (hlast : (T.history id).getLast? = some last) :
    ∃ c, getLatest st float64Text sha256 m T.state id = some (T.state, .ok c) ∧
      c.meta = last.2.meta := by
  obtain ⟨c, hc, hm⟩ := hi.cached id last hlast
  exact ⟨c, getLatest_of_cache hc, hm⟩

/-- **A commit for a configuration not created in the run keeps the invariant**,
whatever the commit did: its history stays empty. -/
theorem Session.Inv.commit_untracked (hst : st.Lawful) (hind : st.Independent)
    (hpath : ∀ id v, makeKey configsPrefix id v ≠ m.journalPath)
    (hi : T.Inv st float64Text sha256 m) {now : GoTime} (hclock : T.clock.unixNano ≤ now.unixNano)
    {id op : String} {cfg : Config} (htime : cfg.meta.time = now.utc.truncateMicro)
    (hid : T.history id = []) {ms : ManagerState σ} {r : Except String Config}
    (hrun : commit st m T.state id op cfg = (ms, r))
    (hfits : ∀ c, r = .ok c → LineFits (entryOf id op c)) :
    Session.Inv st float64Text sha256 m ⟨ms, now, T.history⟩ := by
  have hz : cfg.meta.time.offset % 60 = 0 := by simp [htime]
  rcases commit_cases hrun with ⟨s1, s2, hs, ha, rfl, rfl⟩ | ⟨-, rfl | ⟨s1, hs, rfl⟩⟩
  · have h1 := hi.saved hst hind hpath hs hz
    obtain ⟨d, hw⟩ := append_eq_ok ha
    have hother : ∀ k, k ≠ m.journalPath → st.read s2 k = st.read s1 k :=
      fun k hk => hind.read_write_of_ne _ _ _ _ _ hw hk
    refine ⟨h1.journal.of_append_untracked hst (storable_entryOf hz ha (hfits cfg rfl)) hid ha,
      fun id' => (h1.lineage id').tick hclock, fun id' p hp => ?_,
      h1.snapshots.of_read_eq fun i v => hother _ (hpath i v)⟩
    have hne : id' ≠ id := by
      rintro rfl
      simp [hid] at hp
    simpa only [Function.update_noteq hne] using hi.cached id' p hp
  · exact hi.tick hclock
  · exact (hi.saved hst hind hpath hs hz).tick hclock

/-- **A writer's commit keeps the invariant**, the config it answers extending the
history of its configuration: the first one from version 1 with no previous
checksum, each next one naming the checksum of the last and counting its version up. -/
theorem Session.Inv.commit_tracked (hst : st.Lawful) (hind : st.Independent)
    (hf : NumbersWellFormed float64Text) (hsha : Function.Injective sha256)
    (hne : ∀ s : String, s.data ≠ [] → sha256 s ≠ [])
    (hpath : ∀ id v, makeKey configsPrefix id v ≠ m.journalPath)
    (hi : T.Inv st float64Text sha256 m) {now : GoTime} (hclock : T.clock.unixNano ≤ now.unixNano)
    {id op : String} {cfg : Config} (hcfg : Fresh float64Text sha256 now cfg)
    (hstart : T.history id = [] →
      (∀ es, findByID st m.journalPath T.state.store id = .ok es → es = []) ∧
      cfg.meta.version = 1 ∧ cfg.meta.prevCS = "")
    (hnext : ∀ last ∈ (T.history id).getLast?,
      cfg.meta.prevCS = last.2.meta.cs ∧ cfg.meta.version = last.2.meta.version + 1)
    {ms : ManagerState σ} {r : Except String Config} (hrun : commit st m T.state id op cfg = (ms, r))
    (hfits : ∀ c, r = .ok c → LineFits (entryOf id op c)) :
    Session.Inv st float64Text sha256 m ⟨ms, now, extendedHistory T.history id op r⟩ := by
  have hz : cfg.meta.time.offset % 60 = 0 := by simp [hcfg.time]
  rcases commit_cases hrun with ⟨s1, s2, hs, ha, rfl, rfl⟩ | ⟨hr, rfl | ⟨s1, hs, rfl⟩⟩
  · have h1 := hi.saved hst hind hpath hs hz
    obtain ⟨d, hw⟩ := append_eq_ok ha
    obtain ⟨b, hb, hws⟩ := save_eq_ok hs
    have hother : ∀ k, k ≠ m.journalPath → st.read s2 k = st.read s1 k :=
      fun k hk => hind.read_write_of_ne _ _ _ _ _ hw hk
    have hnow : cfg.meta.time.unixNano = now.truncateMicro.unixNano := by rw [hcfg.time]; rfl
    have hl := (hi.lineage id).tick hclock
    have hlin : Lineage float64Text sha256 id now (T.history id ++ [(op, cfg)]) := by
      refine hl.snoc hf hsha hne (fun h0 => (hstart h0).2) (fun last hlast => ?_)
        (by rw [validate_reread float64Text sha256 hb hcfg.content, hcfg.valid]) hnow.le
      obtain ⟨hp, hv⟩ := hnext last hlast
      have hpast := hl.past last (List.mem_of_getLast?_eq_some hlast)
      exact ⟨hp, hv, by simp only [written_time, GoTime.before, decide_eq_false_iff_not]; omega⟩
    have hfresh : T.history id = [] → ∀ D, findByID st m.journalPath s1 id = .ok D → D = [] :=
      fun h0 D hD => (hstart h0).1 D
        ((findByID_congr (hind.read_write_of_ne _ _ _ _ _ hws (hpath _ _).symm) id).symm.trans hD)
    refine ⟨h1.journal.of_append_tracked hst (storable_entryOf hz ha (hfits cfg rfl)) hfresh ha,
      fun id' => ?_, fun id' p hp => ?_, h1.snapshots.of_read_eq fun i v => hother _ (hpath i v)⟩
    · by_cases h : id' = id
      · subst h
        simpa [extendedHistory] using hlin
      · simpa [extendedHistory, Function.update_noteq h] using (hi.lineage id').tick hclock
    · by_cases h : id' = id
      · subst h
        simp only [extendedHistory, Function.update_same, List.getLast?_concat, Option.mem_def,
          Option.some.injEq] at hp
        subst hp
        exact ⟨cfg, Function.update_same _ _ _, rfl⟩
      · simp only [extendedHistory, Function.update_noteq h] at hp ⊢
        exact hi.cached id' p hp
  · rw [extendedHistory_of_error hr]
    exact hi.tick hclock
  · rw [extendedHistory_of_error hr]
    exact (hi.saved hst hind hpath hs hz).tick hclock

/-- **An `Update` or a `Rollback` that got the latest config keeps the invariant**:
it commits the next config after that one, which for a created configuration is the
cached config of the last one written. -/
theorem Session.Inv.write (hst : st.Lawful) (hind : st.Independent)
    (hf : NumbersWellFormed float64Text) (hsha : Function.Injective sha256)
    (hne : ∀ s : String, s.data ≠ [] → sha256 s ≠ [])
    (hpath : ∀ id v, makeKey configsPrefix id v ≠ m.journalPath)
    (hi : T.Inv st float64Text sha256 m) {now : GoTime} (hclock : T.clock.unixNano ≤ now.unixNano)
    {id op : String} {ms1 : ManagerState σ} {current cfg : Config}
    (hlatest : getLatest st float64Text sha256 m T.state id = some (ms1, .ok current))
    (hcfg : Fresh float64Text sha256 now cfg) (hv : cfg.meta.version = current.meta.version + 1)
    (hp : cfg.meta.prevCS = current.meta.cs) {ms : ManagerState σ} {r : Except String Config}
    (hrun : commit st m ms1 id op cfg = (ms, r))
    (hfits : ∀ c, r = .ok c → LineFits (entryOf id op c)) :
    Session.Inv st float64Text sha256 m
      ⟨ms, now, if T.history id = [] then T.history else extendedHistory T.history id op r⟩ := by
  split
  next hh => exact (hi.latest hlatest).commit_untracked hst hind hpath hclock hcfg.time hh hrun hfits
  next hh =>
    obtain ⟨last, hlast⟩ := Option.ne_none_iff_exists'.mp (mt List.getLast?_eq_none_iff.mp hh)
    obtain ⟨c, hc, hm⟩ := hi.getLatest_of_last hlast
    rw [hc] at hlatest
    cases hlatest
    refine hi.commit_tracked hst hind hf hsha hne hpath hclock hcfg (fun h0 => absurd h0 hh)
      (fun l hl => ?_) hrun hfits
    rw [hlast] at hl
    cases hl
    exact ⟨by rw [hp, hm], by rw [hv, hm]⟩

/-- **Every operation keeps the invariant.** -/
theorem Session.Inv.step (hst : st.Lawful) (hind : st.Independent) (hdel : st.Deletes)
    (hf : NumbersWellFormed float64Text) (hsha : Function.Injective sha256)
    (hne : ∀ s : String, s.data ≠ [] → sha256 s ≠ [])
    (hpath : ∀ id v, makeKey configsPrefix id v ≠ m.journalPath)
    (hi : T.Inv st float64Text sha256 m) {T' : Session σ}
    (hstep : Step st float64Text sha256 m T T') : T'.Inv st float64Text sha256 m := by
  cases hstep with
  | create now id content hclock hnew hrun hfits =>
      have hh := hi.history_eq_nil hnew
      rcases create_cases hrun with ⟨rfl, hr⟩ | ⟨data, cfg, -, hp, hc⟩
      · rw [extendedHistory_of_error hr]
        exact hi.tick hclock
      · obtain ⟨hv, hprev, htime, hcont, hval⟩ := prepare_eq_ok hp
        exact hi.commit_tracked hst hind hf hsha hne hpath hclock ⟨htime, hval, by simp [hcont]⟩
          (fun _ => ⟨hnew, by simpa [Meta.zero] using hv, hprev⟩) (by simp [hh]) hc hfits
  | update now id content hclock hrun hfits =>
      obtain ⟨ms1, r1, hg, ⟨rfl, hr⟩ | ⟨current, data, cfg, rfl, -, hp, hc⟩⟩ := update_cases hrun
      · rw [extendedHistory_of_error hr, ite_self]
        exact (hi.latest hg).tick hclock
      · obtain ⟨hv, hprev, htime, hcont, hval⟩ := prepare_eq_ok hp
        exact hi.write hst hind hf hsha hne hpath hclock hg ⟨htime, hval, by simp [hcont]⟩ hv hprev
          hc hfits
  | rollback now id version hclock hrun hfits =>
      rcases rollback_cases hrun with ⟨rfl, hr⟩ |
        ⟨target, ms1, r1, ht, hg, ⟨rfl, hr⟩ | ⟨current, cfg, rfl, hp, hc⟩⟩
      · rw [extendedHistory_of_error hr, ite_self]
        exact hi.tick hclock
      · rw [extendedHistory_of_error hr, ite_self]
        exact (hi.latest hg).tick hclock
      · obtain ⟨hv, hprev, htime, hcont, hval⟩ := prepare_eq_ok hp
        exact hi.write hst hind hf hsha hne hpath hclock hg
          ⟨htime, hval, hcont ▸ hi.snapshots id version target ht⟩ hv hprev hc hfits
  | compact order hord hrun =>
      rcases compact_cases hrun with ⟨s', hc, rfl, -⟩ | ⟨rfl, -⟩
      · obtain ⟨hj, hother⟩ :=
          hi.journal.of_compact hst hind (fun id => (hi.lineage id).chained) hord hc
        exact ⟨hj, hi.lineage, hi.cached, hi.snapshots.of_read_eq fun i v => hother _ (hpath i v)⟩
      · exact hi
  | getLatest id hrun => exact hi.latest hrun
  | reconstruct id hrun => exact hi.reconstructed hrun
  | deleteSnapshot id version hrun =>
      exact { hi with
        journal := hi.journal.of_read_eq (hind.read_delete_of_ne _ _ _ _ hrun (hpath id version).symm)
        snapshots := hi.snapshots.of_delete hind hdel hrun }

end Invariant


/-! ## A run of one `Create` -/

/-- The text `computeChecksum` hashes for the content `1` at the Unix epoch, as
version 1. -/
def epochBuf : String :=
  "\x7b\"_meta\":\x7b\"cs\":\"\",\"t\":\"1970-01-01T00:00:00Z\",\"v\":1\x7d,\"content\":1\x7d1970-01-01T00:00:00Z"

/-- The config `Create("cfg", 1)` makes at the Unix epoch with the code-point digest. -/
def epochConfig : Config :=
  ⟨⟨1, ⟨0, 0⟩, "", hexEncode (codePointDigest epochBuf), ""⟩, some "1"⟩

section Run

variable {σ : Type} {st : Storage σ} {float64Text : List Char → Option (List Char)}
  {sha256 : String → List UInt8} {S : SchnorrScheme} {m : Manager S} {T : Session σ}
  (hst : st.Lawful) (hind : st.Independent) (hdel : st.Deletes)
  (hf : NumbersWellFormed float64Text) (hsha : Function.Injective sha256)
  (hne : ∀ s : String, s.data ≠ [] → sha256 s ≠ [])
  (hpath : ∀ id v, makeKey configsPrefix id v ≠ m.journalPath)
  {s0 : σ} {es0 : List JournalEntry} (hj : JournalAt st m.journalPath s0 es0)
  (hs : Filled st float64Text sha256 s0) {clock0 : GoTime}
  (hrun : Relation.ReflTransGen (Step st float64Text sha256 m) (Session.start s0 clock0) T)
include hst hind hdel hf hsha hne hpath hj hs hrun

end Run

end Manager

end Viracochan
