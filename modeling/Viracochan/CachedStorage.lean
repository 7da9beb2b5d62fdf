import Viracochan.Storage

/-!
# Viracochan: a write-through cache in front of a storage

The `CachedStorage` of the migration demo puts a `MemoryStorage` in front of a
primary `Storage`: `Read` answers from the cache and, on a miss, from the primary,
whose bytes then fill the cache; `Write` writes the primary and then the cache;
`Delete` deletes the cache's key and then the primary's; `List` asks the primary.
A `Read` changes the cache, so each call maps the pair of states to the pair after
the call, with what the call answers.  The hit and miss counters are not modelled
(only `GetMetrics` reads them), nor is `Exists` (the model's `Storage` has none).

`Storage.call` is a call made on a storage directly, the behaviour the cache must
keep.

**The invariant** (`Coherent`): every key the cache holds reads the same bytes in the
primary.  An empty cache is coherent, and every call keeps the cache coherent when
the primary reads back what it wrote and keeps its keys apart.

**Results.**
* `run_refines_primary`: every sequence of calls on a new `CachedStorage` answers
  what the same calls made on the primary directly answer, and leaves the primary
  as they would.
-/

namespace Viracochan

/-- A call of the `Storage` interface. -/
inductive StorageCall where
  | read (path : String)
  | write (path data : String)
  | list (pre : String)
  | delete (path : String)

/-- What a call of the `Storage` interface answers. -/
inductive StorageAnswer where
  | data (r : Except String String)
  | done (r : Except String Unit)
  | paths (r : Except String (List String))

/-- A `CachedStorage`: the state of its primary storage and its cache. -/
structure CachedStorage (σ : Type) where
  primary : σ
  cache : MemoryStorage

section Calls

variable {σ : Type} (st : Storage σ)

/-- A call made on a storage directly. -/
def Storage.call (s : σ) : StorageCall → σ × StorageAnswer
  | .read path => (s, .data (st.read s path))
  | .write path data =>
      match st.write s path data with
      | .error e => (s, .done (.error e))
      | .ok s' => (s', .done (.ok ()))
  | .list pre => (s, .paths (st.list s pre))
  | .delete path =>
      match st.delete s path with
      | .error e => (s, .done (.error e))
      | .ok s' => (s', .done (.ok ()))

/-- Calls made on a storage directly, in turn, with their answers. -/
def Storage.run : σ → List StorageCall → σ × List StorageAnswer
  | s, [] => (s, [])
  | s, k :: ks =>
      let r := st.call s k
      let rest := Storage.run r.1 ks
      (rest.1, r.2 :: rest.2)

namespace CachedStorage

/-- `NewCachedStorage`: an empty cache. -/
def new (primary : σ) : CachedStorage σ :=
  ⟨primary, .empty⟩

/-- `CachedStorage.Read`: the cache's bytes; on a miss the primary's, which then
fill the cache. -/
def read (c : CachedStorage σ) (path : String) : CachedStorage σ × Except String String :=
  match c.cache.read path with
  | .ok data => (c, .ok data)
  | .error _ =>
      match st.read c.primary path with
      | .error e => (c, .error e)
      | .ok data => ({ c with cache := c.cache.write path data }, .ok data)

/-- `CachedStorage.Write`: the primary, then the cache. -/
def write (c : CachedStorage σ) (path data : String) : Except String (CachedStorage σ) :=
  match st.write c.primary path data with
  | .error e => .error e
  | .ok p => .ok ⟨p, c.cache.write path data⟩

/-- `CachedStorage.List`: the primary's listing. -/
def list (c : CachedStorage σ) (pre : String) : Except String (List String) :=
  st.list c.primary pre

/-- `CachedStorage.Delete`: the cache's key, then the primary's; the cache's key is
gone even when the primary's delete fails. -/
def delete (c : CachedStorage σ) (path : String) : CachedStorage σ × Except String Unit :=
  match st.delete c.primary path with
  | .error e => (⟨c.primary, c.cache.erase path⟩, .error e)
  | .ok p => (⟨p, c.cache.erase path⟩, .ok ())

/-- A call made on the cached storage. -/
def call (c : CachedStorage σ) : StorageCall → CachedStorage σ × StorageAnswer
  | .read path => ((read st c path).1, .data (read st c path).2)
  | .write path data =>
      match write st c path data with
      | .error e => (c, .done (.error e))
      | .ok c' => (c', .done (.ok ()))
  | .list pre => (c, .paths (list st c pre))
  | .delete path => ((delete st c path).1, .done (delete st c path).2)

/-- Calls made on the cached storage, in turn, with their answers. -/
def run : CachedStorage σ → List StorageCall → CachedStorage σ × List StorageAnswer
  | c, [] => (c, [])
  | c, k :: ks =>
      let r := call st c k
      let rest := run r.1 ks
      (rest.1, r.2 :: rest.2)

/-- Every key the cache holds reads the same bytes in the primary. -/
def Coherent (c : CachedStorage σ) : Prop :=
  ∀ path data, c.cache.read path = .ok data → st.read c.primary path = .ok data

end CachedStorage

end Calls

namespace CachedStorage

section Coherence

variable {σ : Type} {st : Storage σ} {p p' : σ} {cache : MemoryStorage} {path data : String}

theorem coherent_new (p : σ) : Coherent st (new p) := fun _ _ h => by cases h

/-- Caching bytes that the primary reads at their key, the primary's other keys
unchanged, keeps the cache coherent. -/
theorem Coherent.write_cache (hc : Coherent st ⟨p, cache⟩) (hpath : st.read p' path = .ok data)
    (hother : ∀ k, k ≠ path → st.read p' k = st.read p k) :
    Coherent st ⟨p', cache.write path data⟩ := by
  intro k d hk
  by_cases h : k = path
  · subst h
    rw [MemoryStorage.read_write] at hk
    cases hk
    exact hpath
  · rw [hother k h]
    exact hc k d (by rwa [MemoryStorage.read_write_of_ne _ _ h] at hk)

/-- Dropping a key from the cache, the primary's other keys unchanged, keeps the
cache coherent. -/
theorem Coherent.erase_cache (hc : Coherent st ⟨p, cache⟩)
    (hother : ∀ k, k ≠ path → st.read p' k = st.read p k) :
    Coherent st ⟨p', cache.erase path⟩ := by
  intro k d hk
  by_cases h : k = path
  · subst h
    rw [MemoryStorage.read_erase] at hk
    cases hk
  · rw [hother k h]
    exact hc k d (by rwa [MemoryStorage.read_erase_of_ne _ h] at hk)

/-- A read of a coherent cache answers the primary's bytes, leaves the primary, and
keeps the cache coherent. -/
theorem read_coherent {c : CachedStorage σ} (hc : Coherent st c) (path : String) :
    (read st c path).1.primary = c.primary ∧ (read st c path).2 = st.read c.primary path ∧
      Coherent st (read st c path).1 := by
  unfold read
  cases hr : c.cache.read path with
  | ok data => exact ⟨rfl, (hc path data hr).symm, hc⟩
  | error e =>
      cases hp : st.read c.primary path with
      | error e' => exact ⟨rfl, rfl, hc⟩
      | ok data => exact ⟨rfl, rfl, Coherent.write_cache hc hp fun _ _ => rfl⟩

/-- **One call**: on a coherent cache it answers what the call made on the primary
directly answers, leaves the primary as that call would, and keeps the cache
coherent. -/
theorem call_coherent (hst : st.ReadsBack) (hind : st.Independent) {c : CachedStorage σ}
    (hc : Coherent st c) (k : StorageCall) :
    (call st c k).1.primary = (st.call c.primary k).1 ∧ (call st c k).2 = (st.call c.primary k).2 ∧
      Coherent st (call st c k).1 := by
  cases k with
  | read path =>
      obtain ⟨h1, h2, h3⟩ := read_coherent hc path
      exact ⟨h1, congrArg _ h2, h3⟩
  | write path data =>
      simp only [call, Storage.call, write]
      cases hw : st.write c.primary path data with
      | error e => exact ⟨rfl, rfl, hc⟩
      | ok p' =>
          exact ⟨rfl, rfl, Coherent.write_cache hc (hst.read_write _ _ _ _ hw)
            fun k hk => hind.read_write_of_ne _ _ _ _ _ hw hk⟩
  | list pre => exact ⟨rfl, rfl, hc⟩
  | delete path =>
      simp only [call, Storage.call, delete]
      cases hd : st.delete c.primary path with
      | error e => exact ⟨rfl, rfl, Coherent.erase_cache hc fun _ _ => rfl⟩
      | ok p' =>
          exact ⟨rfl, rfl, Coherent.erase_cache hc fun k hk => hind.read_delete_of_ne _ _ _ _ hd hk⟩

/-- Every sequence of calls on a coherent cache answers what the calls made on the
primary directly answer, and leaves the primary as they would. -/
theorem run_coherent (hst : st.ReadsBack) (hind : st.Independent) :
    ∀ (ks : List StorageCall) {c : CachedStorage σ}, Coherent st c →
      (run st c ks).1.primary = (st.run c.primary ks).1 ∧ (run st c ks).2 = (st.run c.primary ks).2
  | [], _, _ => ⟨rfl, rfl⟩
  | k :: ks, c, hc => by
      obtain ⟨h1, h2, h3⟩ := call_coherent hst hind hc k
      obtain ⟨ih1, ih2⟩ := run_coherent hst hind ks h3
      simp only [run, Storage.run, ih1, ih2, h1, h2, and_self]

end Coherence

/-- **A cached storage behaves as its primary.**  Over a primary that reads back what
it wrote and whose writes and deletes leave its other keys as they were, every
sequence of calls on a new `CachedStorage` answers what the same calls made on the
primary directly answer, and leaves the primary as they would. -/
theorem run_refines_primary {σ : Type} {st : Storage σ} (hst : st.ReadsBack) (hind : st.Independent)
    (p : σ) (ks : List StorageCall) :
    (run st (new p) ks).2 = (st.run p ks).2 ∧ (run st (new p) ks).1.primary = (st.run p ks).1 :=
  (run_coherent hst hind ks (coherent_new p)).symm

/-- The calls of a round trip on a new cache over an empty `MemoryStorage` answer as
they do on the `MemoryStorage`. -/
theorem run_refines_primary_memory :
    (run MemoryStorage.storage (new .empty)
        [.write "k" "a", .read "k", .delete "k", .read "k"]).2 =
      (MemoryStorage.storage.run .empty [.write "k" "a", .read "k", .delete "k", .read "k"]).2 ∧
    (run MemoryStorage.storage (new .empty)
        [.write "k" "a", .read "k", .delete "k", .read "k"]).1.primary =
      (MemoryStorage.storage.run .empty [.write "k" "a", .read "k", .delete "k", .read "k"]).1 :=
  run_refines_primary MemoryStorage.lawful.toReadsBack MemoryStorage.independent _ _

end CachedStorage

end Viracochan
