import Viracochan.Journal.Entry
import Mathlib.Data.List.Perm.Subperm
import Mathlib.Data.List.Nodup
import Mathlib.Data.List.Chain

/-!
# Viracochan: resequencing scattered journal entries

`Journal.Resequence` rebuilds the ordered chain of one configuration from its
journal entries given in any order.

**Algorithm.**  Three loops over the input:

* the indexing loop builds `csToEntry` (checksum to entry, the last one wins) and
  `prevToEntries` (predecessor checksum to the entries naming it, in input
  order), skipping entries whose checksum is empty;
* the head loop picks the unique entry whose `PrevCS` is empty or is no indexed
  checksum, failing on a second candidate and when there is none;
* the traversal loop starts at the head and repeatedly moves to the only entry of
  `prevToEntries[current.CS]`: it stops when there is none, fails on a fork when
  there are several, and keeps no visited set.

A final comparison of lengths rejects traversals that missed entries.

The traversal is an unbounded `for` loop.  `traverse` runs it for at most `fuel`
iterations and answers `none` when they ran out.  `resequence` gives it
`len(entries) + 1` iterations, and `traverse_eq_none_forever` shows that this
loses nothing: a traversal that has not finished by then never finishes, so
`resequence entries = none` means that the Go loop does not terminate.

**Results.**
* `Run.cs_nodup`: a finished traversal never meets the same checksum twice.
* `resequence_never_returns_on_repeated_checksum`: two entries sharing a
  checksum can close a cycle, and the loop then runs forever.
* `resequence_ok_sound`: an accepted output is a permutation of the input
  linked by `PrevCS`, with distinct checksums and a head pointing outside.
* `resequence_of_chain`: every permutation of such a chain is put back in order.
-/

namespace Viracochan

/-- Results are compared by value, so that a result can be checked by `decide`. -/
instance instDecidableEqExcept {ε α : Type} [DecidableEq ε] [DecidableEq α] :
    DecidableEq (Except ε α)
  | .error a, .error b => decidable_of_iff (a = b) ⟨congrArg _, Except.error.inj⟩
  | .ok a, .ok b => decidable_of_iff (a = b) ⟨congrArg _, Except.ok.inj⟩
  | .error _, .ok _ => isFalse fun h => Except.noConfusion h
  | .ok _, .error _ => isFalse fun h => Except.noConfusion h

namespace Journal

/-- The errors `Resequence` reports. -/
inductive ResequenceError where
  | multipleHeads
  | noHead
  | forkDetected (version : UInt64)
  | incompleteChain (found total : Nat)
deriving DecidableEq, Repr

/-- The text of each error, as `fmt.Errorf` formats it. -/
def ResequenceError.message : ResequenceError → String
  | .multipleHeads => "multiple chain heads found"
  | .noHead => "no chain head found"
  | .forkDetected v => s!"fork detected at version {v}"
  | .incompleteChain found total => s!"incomplete chain: found {found} of {total} entries"

/-- The two maps built by the indexing loop of `Resequence`. -/
structure Index where
  csToEntry : String → Option JournalEntry
  prevToEntries : String → List JournalEntry

/-- The empty maps. -/
def Index.empty : Index :=
  ⟨fun _ => none, fun _ => []⟩

/-- One iteration of the indexing loop. -/
def Index.add (ix : Index) (entry : JournalEntry) : Index :=
  if entry.cs = "" then ix
  else
    { csToEntry := Function.update ix.csToEntry entry.cs (some entry)
      prevToEntries :=
        Function.update ix.prevToEntries entry.prevCS
          (ix.prevToEntries entry.prevCS ++ [entry]) }

/-- The indexing loop. -/
def buildIndex (entries : List JournalEntry) : Index :=
  entries.foldl Index.add Index.empty

/-- The head test: an empty `PrevCS`, or one that no indexed entry has as checksum. -/
def isHead (ix : Index) (entry : JournalEntry) : Bool :=
  entry.prevCS = "" || (entry.prevCS != "" && (ix.csToEntry entry.prevCS).isNone)

/-- The head loop, with the head found so far. -/
def findHead (ix : Index) :
    Option JournalEntry → List JournalEntry → Except ResequenceError (Option JournalEntry)
  | head, [] => .ok head
  | head, entry :: rest =>
      if isHead ix entry then
        match head with
        | some _ => .error .multipleHeads
        | none => findHead ix (some entry) rest
      else findHead ix head rest

/-- The traversal loop, run for at most `fuel` iterations (`none`: they ran out). -/
def traverse (ix : Index) :
    Nat → JournalEntry → List JournalEntry →
      Option (Except ResequenceError (List JournalEntry))
  | 0, _, _ => none
  | fuel + 1, current, ordered =>
      match ix.prevToEntries current.cs with
      | [] => some (.ok (ordered ++ [current]))
      | [next] => traverse ix fuel next (ordered ++ [current])
      | _ :: _ :: _ => some (.error (.forkDetected current.version))

/-- The final length check of `Resequence`. -/
def checkComplete (entries ordered : List JournalEntry) :
    Except ResequenceError (List JournalEntry) :=
  if ordered.length ≠ entries.length then
    .error (.incompleteChain ordered.length entries.length)
  else .ok ordered

/-- `Journal.Resequence`; `none` when the traversal loop does not terminate. -/
def resequence (entries : List JournalEntry) :
    Option (Except ResequenceError (List JournalEntry)) :=
  if entries.isEmpty then some (.ok [])
  else
    let ix := buildIndex entries
    match findHead ix none entries with
    | .error e => some (.error e)
    | .ok none => some (.error .noHead)
    | .ok (some head) =>
        (traverse ix (entries.length + 1) head []).map
          fun r => r.bind (checkComplete entries)

/-! ## The maps -/

/-- The entries the indexing loop files under predecessor `p`. -/
def successorsIn (entries : List JournalEntry) (p : String) : List JournalEntry :=
  entries.filter fun e => e.cs ≠ "" ∧ e.prevCS = p

theorem foldl_add_prevToEntries (entries : List JournalEntry) (ix : Index) (p : String) :
    (entries.foldl Index.add ix).prevToEntries p =
      ix.prevToEntries p ++ successorsIn entries p := by
  induction entries generalizing ix with
  | nil =>
      simp [successorsIn]
  | cons e rest ih =>
      rw [List.foldl_cons, ih]
      by_cases he : e.cs = ""
      · simp [Index.add, successorsIn, List.filter_cons, he]
      · by_cases hp : e.prevCS = p
        · subst hp
          simp [Index.add, successorsIn, List.filter_cons, he]
        · simp [Index.add, successorsIn, List.filter_cons, he, hp,
            Function.update_noteq (Ne.symm hp)]

@[simp] theorem buildIndex_prevToEntries (entries : List JournalEntry) (p : String) :
    (buildIndex entries).prevToEntries p = successorsIn entries p := by
  simp [buildIndex, foldl_add_prevToEntries, Index.empty]

theorem foldl_add_csToEntry_isSome (entries : List JournalEntry) (ix : Index) (c : String) :
    ((entries.foldl Index.add ix).csToEntry c).isSome ↔
      (ix.csToEntry c).isSome ∨ ∃ e ∈ entries, e.cs ≠ "" ∧ e.cs = c := by
  induction entries generalizing ix with
  | nil =>
      simp
  | cons e rest ih =>
      rw [List.foldl_cons, ih]
      by_cases he : e.cs = ""
      · simp [Index.add, he]
      · by_cases hc : e.cs = c
        · subst hc
          simp [Index.add, he]
        · simp [Index.add, he, hc, Function.update_noteq (Ne.symm hc)]

/-- `csToEntry[c]` is set exactly when some entry has the non-empty checksum `c`. -/
theorem buildIndex_csToEntry_isSome (entries : List JournalEntry) (c : String) :
    ((buildIndex entries).csToEntry c).isSome ↔ ∃ e ∈ entries, e.cs ≠ "" ∧ e.cs = c := by
  simp [buildIndex, foldl_add_csToEntry_isSome, Index.empty]

/-- The head test over the built maps, in terms of the input. -/
theorem isHead_buildIndex (entries : List JournalEntry) (e : JournalEntry) :
    isHead (buildIndex entries) e = true ↔
      e.prevCS = "" ∨ ∀ x ∈ entries, x.cs ≠ e.prevCS := by
  have h := buildIndex_csToEntry_isSome entries e.prevCS
  by_cases hp : e.prevCS = ""
  · simp [isHead, hp]
  · have hnone : isHead (buildIndex entries) e =
        !((buildIndex entries).csToEntry e.prevCS).isSome := by
      cases hc : (buildIndex entries).csToEntry e.prevCS <;> simp [isHead, hp, hc]
    rw [hnone, Bool.not_eq_true', ← Bool.not_eq_true, h]
    constructor
    · rintro hn
      exact .inr fun x hx hxc => hn ⟨x, hx, hxc ▸ hp, hxc⟩
    · rintro (hp' | hall) ⟨x, hx, -, hxc⟩
      · exact hp hp'
      · exact hall x hx hxc

/-! ## The head loop -/

theorem findHead_some (ix : Index) (h : JournalEntry) (entries : List JournalEntry) :
    findHead ix (some h) entries =
      if entries.filter (isHead ix) = [] then .ok (some h) else .error .multipleHeads := by
  induction entries with
  | nil =>
      rfl
  | cons e rest ih =>
      by_cases he : isHead ix e = true
      · simp [findHead, he]
      · simp [findHead, he, ih]

/-- The head loop fails exactly on a second candidate, and otherwise returns the
only candidate, if any. -/
theorem findHead_none (ix : Index) (entries : List JournalEntry) :
    findHead ix none entries =
      match entries.filter (isHead ix) with
      | [] => .ok none
      | [h] => .ok (some h)
      | _ :: _ :: _ => .error .multipleHeads := by
  induction entries with
  | nil =>
      rfl
  | cons e rest ih =>
      by_cases he : isHead ix e = true
      · rw [findHead, if_pos he, findHead_some, List.filter_cons_of_pos he]
        cases rest.filter (isHead ix) <;> rfl
      · rw [findHead, if_neg he, ih, List.filter_cons_of_neg he]

/-! ## The traversal loop -/

/-- `Run ix e V`: the traversal started at `e` visits exactly `V` and then stops,
at an entry with no successor or at a fork. -/
inductive Run (ix : Index) : JournalEntry → List JournalEntry → Prop
  | stop {e : JournalEntry} :
      ix.prevToEntries e.cs = [] → Run ix e [e]
  | fork {e a b : JournalEntry} {rest : List JournalEntry} :
      ix.prevToEntries e.cs = a :: b :: rest → Run ix e [e]
  | step {e next : JournalEntry} {V : List JournalEntry} :
      ix.prevToEntries e.cs = [next] → Run ix next V → Run ix e (e :: V)

/-- What the traversal returns after visiting `V` from the accumulated `ordered`. -/
def runResult (ix : Index) (ordered V : List JournalEntry) :
    Except ResequenceError (List JournalEntry) :=
  match V.getLast? with
  | none => .ok ordered
  | some last =>
      if ix.prevToEntries last.cs = [] then .ok (ordered ++ V)
      else .error (.forkDetected last.version)

namespace Run

variable {ix : Index}

theorem eq_cons {e : JournalEntry} {V : List JournalEntry} (h : Run ix e V) :
    ∃ V', V = e :: V' := by
  cases h with
  | stop _ => exact ⟨[], rfl⟩
  | fork _ => exact ⟨[], rfl⟩
  | step _ _ => exact ⟨_, rfl⟩

/-- Within a run, the successor of a visited entry is visited after it. -/
theorem succ_mem_tail {e v w : JournalEntry} {V : List JournalEntry}
    (h : Run ix e V) (hv : v ∈ V) (hs : ix.prevToEntries v.cs = [w]) :
    w ∈ V.tail := by
  induction h with
  | stop hn =>
      simp only [List.mem_singleton] at hv
      subst hv
      simp [hn] at hs
  | fork hf =>
      simp only [List.mem_singleton] at hv
      subst hv
      simp [hf] at hs
  | @step e next V hn hrun ih =>
      rcases List.mem_cons.mp hv with rfl | hv
      · rw [hn, List.singleton_inj] at hs
        subst hs
        obtain ⟨V', rfl⟩ := hrun.eq_cons
        simp
      · exact List.mem_of_mem_tail (ih hv)

/-- A finished traversal never meets the same checksum twice: after a repeated
checksum it would repeat its steps forever. -/
theorem cs_nodup {e : JournalEntry} {V : List JournalEntry} (h : Run ix e V) :
    (V.map JournalEntry.cs).Nodup := by
  induction h with
  | stop _ =>
      simp
  | fork _ =>
      simp
  | @step e next V hn hrun ih =>
      refine List.nodup_cons.mpr ⟨?_, ih⟩
      rintro hmem
      obtain ⟨v, hv, hvc⟩ := List.mem_map.mp hmem
      have hw := hrun.succ_mem_tail hv (hvc ▸ hn)
      obtain ⟨V', rfl⟩ := hrun.eq_cons
      simp only [List.map_cons, List.nodup_cons, List.mem_map] at ih
      exact ih.1 ⟨next, hw, rfl⟩

theorem nodup {e : JournalEntry} {V : List JournalEntry} (h : Run ix e V) : V.Nodup :=
  List.Nodup.of_map _ h.cs_nodup

/-- Consecutive visited entries are linked: each names its predecessor's checksum. -/
theorem chain_prev_succ {e : JournalEntry} {V : List JournalEntry} (h : Run ix e V) :
    V.Chain' fun a b => ix.prevToEntries a.cs = [b] := by
  induction h with
  | stop _ =>
      exact List.chain'_singleton _
  | fork _ =>
      exact List.chain'_singleton _
  | @step e next V hn hrun ih =>
      obtain ⟨V', rfl⟩ := hrun.eq_cons
      exact List.Chain'.cons hn ih

/-- Every entry a run visits is the start or a filed successor. -/
theorem mem_of_mem {e v : JournalEntry} {V : List JournalEntry} (h : Run ix e V)
    (hv : v ∈ V) : v = e ∨ ∃ u, v ∈ ix.prevToEntries u := by
  induction h with
  | stop _ =>
      exact .inl (List.mem_singleton.mp hv)
  | fork _ =>
      exact .inl (List.mem_singleton.mp hv)
  | @step e next V hn hrun ih =>
      rcases List.mem_cons.mp hv with rfl | hv
      · exact .inl rfl
      · rcases ih hv with rfl | hu
        · exact .inr ⟨e.cs, by simp [hn]⟩
        · exact .inr hu

end Run

/-- Soundness of the bounded loop: when it finishes, it has walked a run no longer
than its fuel and returns that run's result. -/
theorem traverse_sound (ix : Index) :
    ∀ (fuel : Nat) (e : JournalEntry) (ordered : List JournalEntry)
      (r : Except ResequenceError (List JournalEntry)),
      traverse ix fuel e ordered = some r →
        ∃ V, Run ix e V ∧ V.length ≤ fuel ∧ r = runResult ix ordered V
  | 0, _, _, _, h => by simp [traverse] at h
  | fuel + 1, e, ordered, r, h => by
      simp only [traverse] at h
      split at h
      · rename_i hn
        cases h
        exact ⟨[e], .stop hn, by simp, by simp [runResult, hn]⟩
      · rename_i next hn
        obtain ⟨V, hrun, hlen, rfl⟩ := traverse_sound ix fuel next _ r h
        refine ⟨e :: V, .step hn hrun, by simp; omega, ?_⟩
        obtain ⟨V', rfl⟩ := hrun.eq_cons
        simp [runResult, List.getLast?_cons]
      · rename_i a b rest hn
        cases h
        exact ⟨[e], .fork hn, by simp, by simp [runResult, hn]⟩

/-- Completeness of the bounded loop: enough fuel lets it walk any run to its end. -/
theorem traverse_complete (ix : Index) {e : JournalEntry} {V : List JournalEntry}
    (h : Run ix e V) :
    ∀ (fuel : Nat) (ordered : List JournalEntry), V.length ≤ fuel →
      traverse ix fuel e ordered = some (runResult ix ordered V) := by
  induction h with
  | stop hn =>
      intro fuel ordered hf
      obtain ⟨fuel, rfl⟩ : ∃ k, fuel = k + 1 := ⟨fuel - 1, by simp at hf; omega⟩
      simp [traverse, hn, runResult]
  | fork hf =>
      intro fuel ordered hle
      obtain ⟨fuel, rfl⟩ : ∃ k, fuel = k + 1 := ⟨fuel - 1, by simp at hle; omega⟩
      simp [traverse, hf, runResult]
  | @step e next V hn hrun ih =>
      intro fuel ordered hf
      obtain ⟨fuel, rfl⟩ : ∃ k, fuel = k + 1 := ⟨fuel - 1, by simp at hf; omega⟩
      rw [traverse, hn]
      simp only
      rw [ih fuel _ (by simpa using hf)]
      obtain ⟨V', rfl⟩ := hrun.eq_cons
      simp [runResult, List.getLast?_cons]

/-- A run from an input entry stays in the input, so it is no longer than the input. -/
theorem Run.length_le {entries : List JournalEntry} {e : JournalEntry}
    {V : List JournalEntry} (h : Run (buildIndex entries) e V) (he : e ∈ entries) :
    V.length ≤ entries.length := by
  have hsub : V ⊆ entries := by
    intro v hv
    rcases h.mem_of_mem hv with rfl | ⟨u, hu⟩
    · exact he
    · simp only [buildIndex_prevToEntries, successorsIn] at hu
      exact List.mem_of_mem_filter hu
  exact (h.nodup.subperm hsub).length_le

/-- The fuel `resequence` gives is enough: if the traversal from an input entry has
not finished after `len(entries) + 1` iterations, it never finishes. -/
theorem traverse_eq_none_forever {entries : List JournalEntry} {e : JournalEntry}
    (he : e ∈ entries)
    (h : traverse (buildIndex entries) (entries.length + 1) e [] = none) :
    ∀ fuel, traverse (buildIndex entries) fuel e [] = none := by
  intro fuel
  cases hr : traverse (buildIndex entries) fuel e [] with
  | none =>
      rfl
  | some r =>
      obtain ⟨V, hrun, -, -⟩ := traverse_sound _ fuel e [] r hr
      rw [traverse_complete _ hrun _ _ (by have := hrun.length_le he; omega)] at h
      cases h


/-! ## Chains linked by `PrevCS` -/

section Chains

variable {L : List JournalEntry}

/-- In a chain, every entry but the first is related to an entry before it; for a
list linked by `PrevCS`, it names that entry's checksum. -/
theorem exists_pred_of_mem_tail {R : JournalEntry → JournalEntry → Prop} (hlink : L.Chain' R) :
    ∀ x ∈ L.tail, ∃ y ∈ L.dropLast, R y x := by
  induction L with
  | nil =>
      simp
  | cons a L ih =>
      cases L with
      | nil =>
          simp
      | cons b rest =>
          intro x hx
          obtain ⟨hab, hrest⟩ := List.chain'_cons.mp hlink
          rcases List.mem_cons.mp hx with rfl | hx
          · exact ⟨a, by simp, hab⟩
          · obtain ⟨y, hy, hxy⟩ := ih hrest x hx
            exact ⟨y, by rw [List.dropLast_cons₂]; exact List.mem_cons_of_mem _ hy, hxy⟩

/-- In a linked list, the predecessors named after the head are the checksums of
all entries but the last. -/
theorem map_prevCS_tail (h : JournalEntry) :
    ∀ {L' : List JournalEntry}, (h :: L').Chain' (fun a b => b.prevCS = a.cs) →
      L'.map JournalEntry.prevCS = (h :: L').dropLast.map JournalEntry.cs
  | [], _ => rfl
  | b :: rest, hlink => by
      obtain ⟨hab, hrest⟩ := List.chain'_cons.mp hlink
      rw [List.dropLast_cons₂, List.map_cons, List.map_cons, hab, map_prevCS_tail b hrest]

/-- In a linked list with distinct checksums whose head names no earlier entry,
no two entries name the same predecessor. -/
theorem prevCS_nodup_of_chain (hnodup : (L.map JournalEntry.cs).Nodup)
    (hlink : L.Chain' fun a b => b.prevCS = a.cs)
    (hhead : ∀ h ∈ L.head?, ∀ y ∈ L.dropLast, y.cs ≠ h.prevCS) :
    (L.map JournalEntry.prevCS).Nodup := by
  cases L with
  | nil =>
      simp
  | cons h L' =>
      rw [List.map_cons, List.nodup_cons, map_prevCS_tail h hlink]
      refine ⟨?_, ((List.dropLast_sublist _).map _).nodup hnodup⟩
      rintro hmem
      obtain ⟨y, hy, hyc⟩ := List.mem_map.mp hmem
      exact hhead h rfl y hy hyc

/-- An entry of a chain other than its last has a successor in the chain. -/
theorem exists_succ_of_mem_dropLast {R : JournalEntry → JournalEntry → Prop}
    (hR : L.Chain' R) : ∀ y ∈ L.dropLast, ∃ z ∈ L.tail, R y z := by
  induction L with
  | nil =>
      simp
  | cons a L ih =>
      cases L with
      | nil =>
          simp
      | cons b rest =>
          obtain ⟨hab, hrest⟩ := List.chain'_cons.mp hR
          intro y hy
          rw [List.dropLast_cons₂] at hy
          rcases List.mem_cons.mp hy with rfl | hy
          · exact ⟨b, by simp, hab⟩
          · obtain ⟨z, hz, hyz⟩ := ih hrest y hy
            exact ⟨z, List.mem_cons_of_mem _ hz, hyz⟩

theorem last_not_mem_dropLast (hnodup : L.Nodup) {last : JournalEntry}
    (hlast : L.getLast? = some last) : last ∉ L.dropLast := by
  rw [← List.dropLast_append_getLast? last hlast] at hnodup
  exact fun hmem => (List.nodup_append.mp hnodup).2.2 hmem (List.mem_singleton_self _)

end Chains

/-! ## What an accepted output is -/

theorem runResult_nil_eq_ok {ix : Index} {e : JournalEntry} {V L : List JournalEntry}
    (hrun : Run ix e V) (h : runResult ix [] V = .ok L) :
    L = V ∧ ∀ last ∈ V.getLast?, ix.prevToEntries last.cs = [] := by
  obtain ⟨V', rfl⟩ := hrun.eq_cons
  rw [runResult, List.getLast?_eq_getLast _ (List.cons_ne_nil _ _)] at h
  simp only at h
  split at h
  · rename_i hn
    cases h
    refine ⟨by simp, fun last hl => ?_⟩
    rw [List.getLast?_eq_getLast _ (List.cons_ne_nil _ _), Option.mem_def,
      Option.some.injEq] at hl
    exact hl ▸ hn
  · cases h

/-- Inversion of an accepted `resequence`: the input has a single head, and the
output is the traversal's run from it, as long as the input. -/
theorem resequence_eq_ok {entries L : List JournalEntry}
    (h : resequence entries = some (.ok L)) (hne : entries ≠ []) :
    ∃ head, entries.filter (isHead (buildIndex entries)) = [head] ∧
      Run (buildIndex entries) head L ∧ L.length = entries.length ∧
      ∀ last ∈ L.getLast?, (buildIndex entries).prevToEntries last.cs = [] := by
  have hne' : entries.isEmpty = false := by simpa using hne
  simp only [resequence, hne', Bool.false_eq_true, if_false, findHead_none] at h
  rcases hf : entries.filter (isHead (buildIndex entries)) with _ | ⟨head, _ | ⟨h2, rest⟩⟩
  · simp [hf] at h
  · simp only [hf, Option.map_eq_some'] at h
    obtain ⟨r, hr, hrL⟩ := h
    obtain ⟨V, hrun, -, rfl⟩ := traverse_sound _ _ _ _ r hr
    cases hres : runResult (buildIndex entries) [] V with
    | error err =>
        rw [hres] at hrL
        cases hrL
    | ok L' =>
        rw [hres] at hrL
        obtain ⟨rfl, hlast⟩ := runResult_nil_eq_ok hrun hres
        simp only [Except.bind, checkComplete] at hrL
        split at hrL
        · cases hrL
        · cases hrL
          exact ⟨head, rfl, hrun, by omega, hlast⟩
  · simp [hf] at h

/-- An accepted output is a permutation of its input, with distinct checksums,
each entry naming the one before it. -/
theorem resequence_ok_chain {entries L : List JournalEntry}
    (h : resequence entries = some (.ok L)) :
    L.Perm entries ∧ (L.map JournalEntry.cs).Nodup ∧ L.Chain' (fun a b => b.prevCS = a.cs) := by
  by_cases hne : entries = []
  · subst hne
    simp only [resequence, List.isEmpty_nil, if_true, Option.some.injEq, Except.ok.injEq] at h
    subst h
    simp
  obtain ⟨head, hheads, hrun, hlen, -⟩ := resequence_eq_ok h hne
  have hsub : L ⊆ entries := by
    intro v hv
    rcases hrun.mem_of_mem hv with rfl | ⟨u, hu⟩
    · exact List.mem_of_mem_filter (hheads ▸ List.mem_singleton_self v)
    · simp only [buildIndex_prevToEntries, successorsIn] at hu
      exact List.mem_of_mem_filter hu
  refine ⟨(hrun.nodup.subperm hsub).perm_of_length_le (by omega), hrun.cs_nodup,
    hrun.chain_prev_succ.imp fun a b hab => ?_⟩
  have hb : b ∈ successorsIn entries a.cs := by
    rw [← buildIndex_prevToEntries, hab]
    exact List.mem_singleton_self _
  simp only [successorsIn, List.mem_filter, decide_eq_true_eq] at hb
  exact hb.2.2

/-- Everything `resequence` accepts is a permutation of its input, linked by
`PrevCS`, with distinct checksums and a head that names no input entry; so an
input in which two entries name the same predecessor is never accepted. -/
theorem resequence_ok_sound {entries L : List JournalEntry}
    (h : resequence entries = some (.ok L)) :
    L.Perm entries ∧
      (L.map JournalEntry.cs).Nodup ∧
      (∀ head ∈ L.head?, head.prevCS = "" ∨ ∀ e ∈ entries, e.cs ≠ head.prevCS) ∧
      L.Chain' (fun a b => b.prevCS = a.cs) ∧
      (entries.map JournalEntry.prevCS).Nodup := by
  by_cases hne : entries = []
  · subst hne
    simp only [resequence, List.isEmpty_nil, if_true, Option.some.injEq,
      Except.ok.injEq] at h
    subst h
    simp
  obtain ⟨head, hheads, hrun, hlen, -⟩ := resequence_eq_ok h hne
  have hhead_mem : head ∈ entries.filter (isHead (buildIndex entries)) := by simp [hheads]
  have hsub : L ⊆ entries := by
    intro v hv
    rcases hrun.mem_of_mem hv with rfl | ⟨u, hu⟩
    · exact List.mem_of_mem_filter hhead_mem
    · simp only [buildIndex_prevToEntries, successorsIn] at hu
      exact List.mem_of_mem_filter hu
  have hperm : L.Perm entries :=
    (hrun.nodup.subperm hsub).perm_of_length_le (by omega)
  have hlink : L.Chain' (fun a b => b.prevCS = a.cs) :=
    hrun.chain_prev_succ.imp fun a b hab => by
      have hb : b ∈ successorsIn entries a.cs := by
        rw [← buildIndex_prevToEntries, hab]
        exact List.mem_singleton_self _
      simp only [successorsIn, List.mem_filter, decide_eq_true_eq] at hb
      exact hb.2.2
  obtain ⟨L', rfl⟩ := hrun.eq_cons
  have hisHead := (isHead_buildIndex entries head).mp (List.mem_filter.mp hhead_mem).2
  refine ⟨hperm, hrun.cs_nodup, fun h' hh' => ?_, hlink, ?_⟩
  · cases hh'
    exact hisHead
  · rw [← (hperm.map JournalEntry.prevCS).nodup_iff]
    refine prevCS_nodup_of_chain hrun.cs_nodup hlink fun h' hh' y hy hyc => ?_
    cases hh'
    rcases hisHead with hemp | hall
    · obtain ⟨z, hz, hyz⟩ := exists_succ_of_mem_dropLast hrun.chain_prev_succ y hy
      have hzs : z ∈ successorsIn entries "" := by
        rw [← hemp, ← hyc, ← buildIndex_prevToEntries, hyz]
        exact List.mem_singleton_self _
      have hzHead : z ∈ entries.filter (isHead (buildIndex entries)) := by
        simp only [successorsIn, List.mem_filter, decide_eq_true_eq] at hzs
        exact List.mem_filter.mpr ⟨hzs.1, (isHead_buildIndex entries z).mpr (.inl hzs.2.2)⟩
      rw [hheads, List.mem_singleton] at hzHead
      subst hzHead
      exact (List.nodup_cons.mp hrun.nodup).1 hz
    · exact hall y (hsub (List.dropLast_subset _ hy)) hyc

theorem resequence_ok_sound_two_entries :
    let e1 : JournalEntry := ⟨"cfg", 1, "a", "", ⟨0, 0⟩, "create", none⟩
    let e2 : JournalEntry := ⟨"cfg", 2, "b", "a", ⟨0, 0⟩, "update", none⟩
    resequence [e2, e1] = some (.ok [e1, e2]) ∧
      ([e1, e2].Perm [e2, e1] ∧
        ([e1, e2].map JournalEntry.cs).Nodup ∧
        (∀ head ∈ [e1, e2].head?, head.prevCS = "" ∨ ∀ e ∈ [e2, e1], e.cs ≠ head.prevCS) ∧
        [e1, e2].Chain' (fun a b => b.prevCS = a.cs) ∧
        ([e2, e1].map JournalEntry.prevCS).Nodup) :=
  have h : resequence _ = _ := by decide
  ⟨h, resequence_ok_sound h⟩

/-! ## Every permutation of a chain is put back in order -/

theorem run_of_chain {ix : Index} :
    ∀ {e : JournalEntry} {L' : List JournalEntry},
      (e :: L').Chain' (fun a b => ix.prevToEntries a.cs = [b]) →
      (∀ last ∈ (e :: L').getLast?, ix.prevToEntries last.cs = []) →
      Run ix e (e :: L')
  | e, [], _, hlast => .stop (hlast e rfl)
  | _, b :: rest, hchain, hlast => by
      obtain ⟨heb, hrest⟩ := List.chain'_cons.mp hchain
      exact .step heb (run_of_chain hrest (by simpa only [List.getLast?_cons_cons] using hlast))

theorem eq_singleton_of_nodup {l : List JournalEntry} {y : JournalEntry} (hnd : l.Nodup)
    (hall : ∀ z ∈ l, z = y) (hy : y ∈ l) : l = [y] := by
  rcases l with _ | ⟨a, l'⟩
  · cases hy
  · obtain rfl := hall a (List.mem_cons_self _ _)
    rw [List.eq_nil_iff_forall_not_mem.mpr fun z hz =>
      (List.nodup_cons.mp hnd).1 (hall z (List.mem_cons_of_mem _ hz) ▸ hz)]

section Chains

variable {L : List JournalEntry}

/-- In a chain in which no two entries name the same predecessor, the entries filed
under a checksum are exactly the one naming it. -/
theorem successorsIn_chain (hcs : ∀ e ∈ L, e.cs ≠ "")
    (hprev : (L.map JournalEntry.prevCS).Nodup) {x y : JournalEntry} (hy : y ∈ L)
    (hyx : y.prevCS = x.cs) : successorsIn L x.cs = [y] := by
  refine eq_singleton_of_nodup ((List.Nodup.of_map _ hprev).filter _) (fun z hz => ?_) ?_
  · simp only [successorsIn, List.mem_filter, decide_eq_true_eq] at hz
    exact List.inj_on_of_nodup_map hprev hz.1 hy (hz.2.2.trans hyx.symm)
  · simp [successorsIn, hy, hyx, hcs y hy]

end Chains

/-- The converse of `resequence_eq_ok`: a single head, and a run from it as long
as the input that ends at an entry with no successor. -/
theorem resequence_of_run {P L : List JournalEntry} {head : JournalEntry}
    (hheads : P.filter (isHead (buildIndex P)) = [head]) (hrun : Run (buildIndex P) head L)
    (hlast : ∀ last ∈ L.getLast?, (buildIndex P).prevToEntries last.cs = [])
    (hlen : L.length = P.length) : resequence P = some (.ok L) := by
  have hne : P.isEmpty = false := by
    cases P with
    | nil => simp at hheads
    | cons _ _ => rfl
  obtain ⟨L', rfl⟩ := hrun.eq_cons
  have hl := hlast _ (List.getLast?_eq_getLast _ (List.cons_ne_nil _ _))
  rw [buildIndex_prevToEntries] at hl
  simp only [resequence, hne, Bool.false_eq_true, if_false, findHead_none, hheads]
  rw [traverse_complete _ hrun _ _ (by omega)]
  simp [runResult, List.getLast?_eq_getLast _ (List.cons_ne_nil head L'), hl, checkComplete,
    Except.bind, hlen]

/-- Every permutation of a chain with non-empty, distinct checksums, linked by
`PrevCS`, whose head names no entry's checksum, is resequenced to that chain. -/
theorem resequence_of_chain {L P : List JournalEntry}
    (hcs : ∀ e ∈ L, e.cs ≠ "")
    (hnodup : (L.map JournalEntry.cs).Nodup)
    (hlink : L.Chain' fun a b => b.prevCS = a.cs)
    (hhead : ∀ head ∈ L.head?, ∀ e ∈ L, e.cs ≠ head.prevCS)
    (hperm : P.Perm L) :
    resequence P = some (.ok L) := by
  rcases L with _ | ⟨a, L'⟩
  · rw [List.perm_nil] at hperm
    subst hperm
    rfl
  have hprev := prevCS_nodup_of_chain hnodup hlink fun h hh y hy =>
    hhead h hh y (List.dropLast_subset _ hy)
  have hLnd : (a :: L').Nodup := List.Nodup.of_map _ hnodup
  have hsucc : ∀ c, ((buildIndex P).prevToEntries c).Perm (successorsIn (a :: L') c) :=
    fun c => by simpa only [buildIndex_prevToEntries, successorsIn] using hperm.filter _
  have hstep : (a :: L').Chain' fun x y => (buildIndex P).prevToEntries x.cs = [y] :=
    (List.Chain'.iff_mem.mp hlink).imp fun x y ⟨_, hy, hyx⟩ =>
      List.perm_singleton.mp (by rw [← successorsIn_chain hcs hprev hy hyx]; exact hsucc _)
  have hend : ∀ last ∈ (a :: L').getLast?, (buildIndex P).prevToEntries last.cs = [] := by
    intro last hl
    have hlL := List.mem_of_getLast?_eq_some hl
    refine List.Perm.eq_nil ((hsucc _).trans (List.Perm.of_eq ?_))
    refine List.eq_nil_iff_forall_not_mem.mpr fun z hz => ?_
    simp only [successorsIn, List.mem_filter, decide_eq_true_eq] at hz
    obtain ⟨hzL, -, hzc⟩ := hz
    rcases List.mem_cons.mp hzL with rfl | hzL'
    · exact hhead z rfl last hlL hzc.symm
    · obtain ⟨y, hy, hyc⟩ := exists_pred_of_mem_tail hlink z hzL'
      have hyl : y = last :=
        List.inj_on_of_nodup_map hnodup (List.dropLast_subset _ hy) hlL (hyc ▸ hzc)
      exact last_not_mem_dropLast hLnd hl (hyl ▸ hy)
  have hheads : P.filter (isHead (buildIndex P)) = [a] := by
    refine List.perm_singleton.mp ((hperm.filter _).trans ?_)
    have ha : isHead (buildIndex P) a = true :=
      (isHead_buildIndex P a).mpr (.inr fun x hx => hhead a rfl x (hperm.subset hx))
    have hrest : L'.filter (isHead (buildIndex P)) = [] := by
      refine List.filter_eq_nil_iff.mpr fun z hz hzh => ?_
      obtain ⟨y, hy, hyc⟩ := exists_pred_of_mem_tail hlink z hz
      have hyL := List.dropLast_subset _ hy
      rcases (isHead_buildIndex P z).mp hzh with hemp | hall
      · exact hcs y hyL (hyc ▸ hemp)
      · exact hall y (hperm.symm.subset hyL) hyc.symm
    rw [List.filter_cons_of_pos ha, hrest]
  exact resequence_of_run hheads (run_of_chain hstep hend) hend hperm.length_eq.symm

theorem resequence_of_chain_reversed :
    let e1 : JournalEntry := ⟨"cfg", 4, "a", "z", ⟨0, 0⟩, "update", none⟩
    let e2 : JournalEntry := ⟨"cfg", 5, "b", "a", ⟨0, 0⟩, "update", none⟩
    ((∀ e ∈ [e1, e2], e.cs ≠ "") ∧
      ([e1, e2].map JournalEntry.cs).Nodup ∧
      [e1, e2].Chain' (fun a b => b.prevCS = a.cs) ∧
      (∀ head ∈ [e1, e2].head?, ∀ e ∈ [e1, e2], e.cs ≠ head.prevCS) ∧
      [e2, e1].Perm [e1, e2]) ∧
    resequence [e2, e1] = some (.ok [e1, e2]) := by
  intro e1 e2
  have h1 : ∀ e ∈ [e1, e2], e.cs ≠ "" := by decide
  have h2 : ([e1, e2].map JournalEntry.cs).Nodup := by decide
  have h3 : [e1, e2].Chain' (fun a b => b.prevCS = a.cs) := List.chain'_pair.mpr rfl
  have h4 : ∀ head ∈ [e1, e2].head?, ∀ e ∈ [e1, e2], e.cs ≠ head.prevCS := by decide
  have h5 : [e2, e1].Perm [e1, e2] := List.Perm.swap _ _ _
  exact ⟨⟨h1, h2, h3, h4, h5⟩, resequence_of_chain h1 h2 h3 h4 h5⟩

/-! ## A single entry -/

/-- One entry that does not name itself as predecessor is a chain of its own. -/
theorem resequence_singleton {e : JournalEntry} (h : e.cs = "" ∨ e.prevCS ≠ e.cs) :
    resequence [e] = some (.ok [e]) := by
  have hne : e.cs ≠ "" → e.prevCS ≠ e.cs := h.resolve_left
  have hhead : isHead (buildIndex [e]) e = true := by
    refine (isHead_buildIndex [e] e).mpr (or_iff_not_imp_left.mpr fun hp x hx => ?_)
    rw [List.mem_singleton.mp hx]
    by_cases hc : e.cs = ""
    · exact hc ▸ Ne.symm hp
    · exact (hne hc).symm
  have hsucc : successorsIn [e] e.cs = [] := by
    simpa [successorsIn] using hne
  simp [resequence, findHead, hhead, traverse, hsucc, checkComplete]
  rfl

/-! ## Chains that `Resequence` rebuilds -/

/-- A chain as `Resequence` rebuilds it: non-empty, distinct checksums, each entry
naming the one before it, and a head that names none of them. -/
structure Chained (L : List JournalEntry) : Prop where
  cs_ne : ∀ e ∈ L, e.cs ≠ ""
  nodup : (L.map JournalEntry.cs).Nodup
  link : L.Chain' fun a b => b.prevCS = a.cs
  head : ∀ h ∈ L.head?, ∀ e ∈ L, e.cs ≠ h.prevCS

namespace Chained

variable {L : List JournalEntry}

/-- The entries filed under the checksum of an entry of a chain: the next one. -/
theorem prevToEntries_next (hc : Chained L) {x y : JournalEntry} (hy : y ∈ L)
    (hyx : y.prevCS = x.cs) : (buildIndex L).prevToEntries x.cs = [y] := by
  rw [buildIndex_prevToEntries]
  exact successorsIn_chain hc.cs_ne (prevCS_nodup_of_chain hc.nodup hc.link
    fun h hh y hy => hc.head h hh y (List.dropLast_subset _ hy)) hy hyx

/-- Nothing is filed under the checksum of the last entry of a chain. -/
theorem prevToEntries_last (hc : Chained L) {last : JournalEntry} (hl : L.getLast? = some last) :
    (buildIndex L).prevToEntries last.cs = [] := by
  have hlL := List.mem_of_getLast?_eq_some hl
  refine List.eq_nil_iff_forall_not_mem.mpr fun z hz => ?_
  simp only [buildIndex_prevToEntries, successorsIn, List.mem_filter, decide_eq_true_eq] at hz
  obtain ⟨hzL, -, hzc⟩ := hz
  rcases L with _ | ⟨a, L'⟩
  · cases hl
  rcases List.mem_cons.mp hzL with rfl | hzL'
  · exact hc.head z rfl last hlL hzc.symm
  · obtain ⟨y, hy, hyc⟩ := exists_pred_of_mem_tail hc.link z hzL'
    have hyl : y = last :=
      List.inj_on_of_nodup_map hc.nodup (List.dropLast_subset _ hy) hlL (hyc ▸ hzc)
    exact last_not_mem_dropLast (List.Nodup.of_map _ hc.nodup) hl (hyl ▸ hy)

/-- The head of a chain is its only entry that names no other. -/
theorem heads {a : JournalEntry} {L' : List JournalEntry} (hc : Chained (a :: L')) :
    (a :: L').filter (isHead (buildIndex (a :: L'))) = [a] := by
  have ha : isHead (buildIndex (a :: L')) a = true :=
    (isHead_buildIndex _ a).mpr (.inr fun x hx => hc.head a rfl x hx)
  have hrest : L'.filter (isHead (buildIndex (a :: L'))) = [] := by
    refine List.filter_eq_nil_iff.mpr fun z hz hzh => ?_
    obtain ⟨y, hy, hyc⟩ := exists_pred_of_mem_tail hc.link z hz
    rcases (isHead_buildIndex _ z).mp hzh with hemp | hall
    · exact hc.cs_ne y (List.dropLast_subset _ hy) (hyc ▸ hemp)
    · exact hall y (List.dropLast_subset _ hy) hyc.symm
  rw [List.filter_cons_of_pos ha, hrest]

/-- **A chain is resequenced to itself.** -/
theorem resequence_self (hc : Chained L) : resequence L = some (.ok L) := by
  rcases L with _ | ⟨a, L'⟩
  · rfl
  have hstep : (a :: L').Chain' fun x y => (buildIndex (a :: L')).prevToEntries x.cs = [y] :=
    (List.Chain'.iff_mem.mp hc.link).imp fun x y ⟨_, hy, hyx⟩ => hc.prevToEntries_next hy hyx
  exact resequence_of_run hc.heads (run_of_chain hstep fun _ => hc.prevToEntries_last)
    (fun _ => hc.prevToEntries_last) rfl

/-- Without its head, a chain is a chain: the new head names the old one. -/
theorem tail {a : JournalEntry} (hc : Chained (a :: L)) : Chained L where
  cs_ne e he := hc.cs_ne e (List.mem_cons_of_mem _ he)
  nodup := (List.nodup_cons.mp hc.nodup).2
  link := hc.link.tail
  head h hh e he := by
    cases L with
    | nil => cases hh
    | cons b rest =>
        cases hh
        rw [(List.chain'_cons.mp hc.link).1]
        exact fun hea => (List.nodup_cons.mp hc.nodup).1 (hea ▸ List.mem_map_of_mem _ he)

/-- **A chain extended by an entry naming its last one stays a chain**, when the
new checksum is not empty and is not the head's predecessor, and equal checksums come
only with equal predecessors (as with a collision-free digest): the new checksum
is then new. -/
theorem snoc (hc : Chained L) {e : JournalEntry} (hcs : e.cs ≠ "")
    (hlast : ∀ last ∈ L.getLast?, e.prevCS = last.cs)
    (hhead : ∀ a ∈ (L ++ [e]).head?, e.cs ≠ a.prevCS)
    (hbind : ∀ x ∈ L, x.cs = e.cs → x.prevCS = e.prevCS) : Chained (L ++ [e]) := by
  have hfresh : e.cs ∉ L.map JournalEntry.cs := by
    intro hmem
    obtain ⟨x, hx, hxc⟩ := List.mem_map.mp hmem
    rcases L with _ | ⟨a, L'⟩
    · cases hx
    obtain ⟨last, hl⟩ := Option.isSome_iff_exists.mp
      (List.getLast?_isSome.mpr (List.cons_ne_nil a L'))
    have hxl : x.prevCS = last.cs := (hbind x hx hxc).trans (hlast last hl)
    have hlL := List.mem_of_getLast?_eq_some hl
    rcases List.mem_cons.mp hx with rfl | hx'
    · exact hc.head x rfl last hlL hxl.symm
    · obtain ⟨y, hy, hyx⟩ := exists_pred_of_mem_tail hc.link x hx'
      have hyl : y = last :=
        List.inj_on_of_nodup_map hc.nodup (List.dropLast_subset _ hy) hlL (hyx ▸ hxl)
      exact last_not_mem_dropLast (List.Nodup.of_map _ hc.nodup) hl (hyl ▸ hy)
  refine ⟨fun x hx => ?_, ?_, ?_, fun a ha x hx => ?_⟩
  · rcases List.mem_append.mp hx with hx | hx
    exacts [hc.cs_ne x hx, List.mem_singleton.mp hx ▸ hcs]
  · rw [List.map_append, List.nodup_append]
    exact ⟨hc.nodup, List.nodup_singleton _, List.disjoint_singleton.mpr hfresh⟩
  · exact List.chain'_append.mpr ⟨hc.link, List.chain'_singleton _,
      fun x hx y hy => by cases List.mem_singleton.mp (List.mem_of_mem_head? hy); exact hlast x hx⟩
  · rcases List.mem_append.mp hx with hx | hx
    · rcases L with _ | ⟨b, L'⟩
      · cases hx
      · cases ha
        exact hc.head _ rfl x hx
    · exact List.mem_singleton.mp hx ▸ hhead a ha

theorem drop : ∀ (k : Nat) {L : List JournalEntry}, Chained L → Chained (L.drop k)
  | 0, _, hc => hc
  | _ + 1, [], hc => hc
  | k + 1, _ :: _, hc => drop k hc.tail

end Chained

/-! ## An accepted chain is accepted again -/

/-- A run depends on the filed successors only through their number and, for a
single one, which it is. -/
theorem Run.of_perm {ix ix' : Index} (hp : ∀ c, (ix'.prevToEntries c).Perm (ix.prevToEntries c))
    {e : JournalEntry} {V : List JournalEntry} (h : Run ix e V) : Run ix' e V := by
  induction h with
  | @stop e hn =>
      have h' := hp e.cs
      rw [hn] at h'
      exact .stop h'.eq_nil
  | @fork e a b rest hf =>
      have hl := (hp e.cs).length_eq
      rw [hf] at hl
      rcases hx : ix'.prevToEntries e.cs with _ | ⟨a', _ | ⟨b', rest'⟩⟩
      · simp [hx] at hl
      · simp [hx] at hl
      · exact .fork hx
  | @step e next V hn _ ih =>
      have h' := hp e.cs
      rw [hn] at h'
      exact .step (List.perm_singleton.mp h') ih

/-- `Resequence` looks at its input only up to order: a permutation of an accepted
input is accepted, with the same chain. -/
theorem resequence_perm {entries L P : List JournalEntry}
    (h : resequence entries = some (.ok L)) (hp : P.Perm entries) :
    resequence P = some (.ok L) := by
  by_cases hne : entries = []
  · subst hne
    rw [List.perm_nil.mp hp]
    exact h
  obtain ⟨head, hheads, hrun, hlen, hlast⟩ := resequence_eq_ok h hne
  have hsucc : ∀ c, ((buildIndex P).prevToEntries c).Perm ((buildIndex entries).prevToEntries c) :=
    fun c => by simpa only [buildIndex_prevToEntries, successorsIn] using hp.filter _
  have hisHead : isHead (buildIndex P) = isHead (buildIndex entries) := by
    funext x
    exact Bool.eq_iff_iff.mpr (by simp only [isHead_buildIndex, hp.mem_iff])
  refine resequence_of_run ?_ (hrun.of_perm hsucc) (fun last hl => ?_) (hlen.trans hp.length_eq.symm)
  · rw [hisHead]
    exact List.perm_singleton.mp (hheads ▸ hp.filter _)
  · have h' := hsucc last.cs
    rw [hlast last hl] at h'
    exact h'.eq_nil

/-- In an accepted chain, every entry after the head is filed under its
predecessor's checksum, so its own checksum is not empty. -/
theorem resequence_tail_cs {entries L : List JournalEntry}
    (h : resequence entries = some (.ok L)) : ∀ e ∈ L.tail, e.cs ≠ "" := by
  intro e he
  by_cases hne : entries = []
  · subst hne
    cases h
    cases he
  obtain ⟨head, -, hrun, -, -⟩ := resequence_eq_ok h hne
  obtain ⟨y, -, hy⟩ := exists_pred_of_mem_tail hrun.chain_prev_succ e he
  have hs : e ∈ successorsIn entries y.cs := by
    rw [← buildIndex_prevToEntries, hy]
    exact List.mem_singleton_self _
  simp only [successorsIn, List.mem_filter, decide_eq_true_eq] at hs
  exact hs.2.1

/-- **The last entries of an accepted chain are accepted on their own**, as
that chain: this is what `Compact` keeps. -/
theorem resequence_drop {entries L : List JournalEntry}
    (h : resequence entries = some (.ok L)) (k : Nat) :
    resequence (L.drop k) = some (.ok (L.drop k)) := by
  obtain ⟨hperm, hnodup, hlink⟩ := resequence_ok_chain h
  cases k with
  | zero =>
      exact resequence_perm h hperm
  | succ k =>
      have hLnd : L.Nodup := List.Nodup.of_map _ hnodup
      have hsplit := List.take_append_drop (k + 1) L
      refine Chained.resequence_self ⟨fun e he => resequence_tail_cs h e ?_,
        ((List.drop_sublist _ _).map _).nodup hnodup, hlink.drop _, ?_⟩
      · rw [← List.drop_one]
        exact (List.drop_sublist_drop_left L (by omega : 1 ≤ k + 1)).subset he
      · intro x hx e he hec
        rcases htake : (L.take (k + 1)).getLast? with _ | y
        · rw [List.getLast?_eq_none_iff, List.take_eq_nil_iff] at htake
          rcases htake with h0 | rfl
          · omega
          · cases hx
        · rw [← hsplit] at hlink hLnd
          have hyx : x.prevCS = y.cs := List.chain'_append.mp hlink |>.2.2 y htake x hx
          have hy := List.mem_of_getLast?_eq_some htake
          have hey : e = y := List.inj_on_of_nodup_map hnodup
            (List.mem_of_mem_drop he) (List.mem_of_mem_take hy) (hec.trans hyx)
          exact List.disjoint_of_nodup_append hLnd hy (hey ▸ he)

/-! ## Distinct checksums end the traversal -/

section Terminates

variable {entries : List JournalEntry}

theorem mem_successorsIn {p : String} {e : JournalEntry} :
    e ∈ successorsIn entries p ↔ e ∈ entries ∧ e.cs ≠ "" ∧ e.prevCS = p := by
  simp [successorsIn]

/-- The only entry filed under a checksum is an input entry naming it. -/
theorem filed_of_eq {x y : JournalEntry} (h : (buildIndex entries).prevToEntries x.cs = [y]) :
    y ∈ entries ∧ y.cs ≠ "" ∧ y.prevCS = x.cs := by
  rw [← mem_successorsIn, ← buildIndex_prevToEntries, h]
  exact List.mem_singleton_self _

/-- The invariant of the traversal's accumulator `ordered ++ [current]`: a path
from a head through filed successors, inside the input, with no repetition. -/
structure Visited (entries p : List JournalEntry) : Prop where
  head : ∀ h ∈ p.head?, isHead (buildIndex entries) h = true
  chain : p.Chain' fun a b => (buildIndex entries).prevToEntries a.cs = [b]
  sub : p ⊆ entries
  nodup : p.Nodup

/-- With distinct checksums, the traversal's next entry has not been visited: the
head names no input checksum but perhaps the empty one, which only the head can
have; and a later entry has a single possible predecessor, the current entry. -/
theorem Visited.succ_not_mem (hcs : (entries.map JournalEntry.cs).Nodup)
    {p : List JournalEntry} {e next : JournalEntry} (hv : Visited entries p)
    (hlast : p.getLast? = some e) (hn : (buildIndex entries).prevToEntries e.cs = [next]) :
    next ∉ p := by
  obtain ⟨-, hncs, hnprev⟩ := filed_of_eq hn
  have he := hv.sub (List.mem_of_getLast?_eq_some hlast)
  intro hmem
  cases p with
  | nil => cases hlast
  | cons h t =>
      rcases List.mem_cons.mp hmem with rfl | ht
      · rcases (isHead_buildIndex entries next).mp (hv.head next rfl) with hemp | hall
        · have hecs : e.cs = "" := hnprev.symm.trans hemp
          rcases List.mem_cons.mp (List.mem_of_getLast?_eq_some hlast) with rfl | het
          · exact hncs hecs
          · obtain ⟨y, -, hy⟩ := exists_pred_of_mem_tail hv.chain e het
            exact (filed_of_eq hy).2.1 hecs
        · exact hall e he hnprev.symm
      · obtain ⟨y, hy, hyn⟩ := exists_pred_of_mem_tail hv.chain next ht
        have hye : y = e := List.inj_on_of_nodup_map hcs (hv.sub (List.dropLast_subset _ hy)) he
          ((filed_of_eq hyn).2.2.symm.trans hnprev)
        exact last_not_mem_dropLast hv.nodup hlast (hye ▸ hy)

theorem Visited.snoc {p : List JournalEntry} {e next : JournalEntry} (hv : Visited entries p)
    (hlast : p.getLast? = some e) (hn : (buildIndex entries).prevToEntries e.cs = [next])
    (hnm : next ∉ p) : Visited entries (p ++ [next]) where
  head h hh := hv.head h (by
    cases p with
    | nil => cases hlast
    | cons => simpa using hh)
  chain := List.chain'_append.mpr ⟨hv.chain, List.chain'_singleton _, fun x hx y hy => by
    rw [hlast, Option.mem_some_iff] at hx
    rw [List.head?_singleton, Option.mem_some_iff] at hy
    rw [← hx, ← hy, hn]⟩
  sub := List.append_subset.mpr ⟨hv.sub, List.cons_subset.mpr ⟨(filed_of_eq hn).1, List.nil_subset _⟩⟩
  nodup := List.nodup_append.mpr ⟨hv.nodup, List.nodup_singleton _, List.disjoint_singleton.mpr hnm⟩

/-- The bounded traversal finishes when its fuel exceeds what is left of the input:
each iteration visits a new entry of it. -/
theorem traverse_isSome (hcs : (entries.map JournalEntry.cs).Nodup) :
    ∀ (fuel : Nat) (e : JournalEntry) (ordered : List JournalEntry),
      Visited entries (ordered ++ [e]) → entries.length < fuel + ordered.length →
      (traverse (buildIndex entries) fuel e ordered).isSome
  | 0, e, ordered, hv, hlen => by
      have := (hv.nodup.subperm hv.sub).length_le
      simp only [List.length_append, List.length_singleton] at this
      omega
  | fuel + 1, e, ordered, hv, hlen => by
      simp only [traverse]
      split
      · rfl
      · rename_i next hn
        have hlast : (ordered ++ [e]).getLast? = some e := by simp
        refine traverse_isSome hcs fuel next _ (hv.snoc hlast hn (hv.succ_not_mem hcs hlast hn)) ?_
        simp only [List.length_append, List.length_singleton]
        omega
      · rfl

/-- **With distinct checksums, `Resequence` returns**: its traversal never comes
back to an entry, so it ends within `len(entries) + 1` iterations. -/
theorem resequence_isSome (hcs : (entries.map JournalEntry.cs).Nodup) :
    (resequence entries).isSome := by
  unfold resequence
  split
  · rfl
  · simp only [findHead_none]
    rcases hf : entries.filter (isHead (buildIndex entries)) with _ | ⟨head, _ | ⟨h2, rest⟩⟩
    · rfl
    · obtain ⟨hhe, hhh⟩ := List.mem_filter.mp (hf ▸ List.mem_singleton_self head)
      simp only [Option.isSome_map']
      exact traverse_isSome hcs _ head [] ⟨by simpa using hhh, List.chain'_singleton _,
        List.cons_subset.mpr ⟨hhe, List.nil_subset _⟩, List.nodup_singleton _⟩ (by simp)
    · rfl

end Terminates

/-! ## A repeated checksum hangs the traversal -/

/-- A head with checksum `h`, and a second entry with the same checksum naming `h` as
its predecessor: the traversal reaches the second entry and then follows it to
itself forever, appending it to `ordered` each time. -/
theorem resequence_never_returns_on_repeated_checksum :
    let head : JournalEntry := ⟨"cfg", 1, "h", "", ⟨0, 0⟩, "create", none⟩
    let loop : JournalEntry := ⟨"cfg", 2, "h", "h", ⟨0, 0⟩, "update", none⟩
    resequence [head, loop] = none ∧
      ∀ fuel, traverse (buildIndex [head, loop]) fuel head [] = none := by
  intro head loop
  have h3 : traverse (buildIndex [head, loop]) 3 head [] = none := by decide
  refine ⟨by decide, traverse_eq_none_forever (List.mem_cons_self _ _) h3⟩

end Journal
end Viracochan
