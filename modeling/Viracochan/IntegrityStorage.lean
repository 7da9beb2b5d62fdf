import Viracochan.Journal.Log

/-!
# Viracochan: a storage that checks what it reads

The `IntegrityStorage` of the encryption demo wraps a backend `Storage`.  `Write`
stores the bytes followed by the separator `\n---CHECKSUM---\n` and the hex SHA-256
of the bytes.  `Read` splits what the backend holds at the first separator, as
`strings.SplitN` does, and answers the part before it when the part after it is the
hex SHA-256 of that part.  `List` and `Delete` pass through to the backend.  The map
of checksums it keeps is written and never read, and is not modelled; nor are
`VerifyAll`, which counts the keys whose `Read` fails, and `Exists`.

SHA-256 is the parameter `sha256`, as in `Signer`.

**Results.**
* `integrity_read_accepts_encoded`: whatever `Read` answers, the backend holds it
  as `Write` stores it.
* `integrity_round_trip_iff`: over a backend that reads back what it wrote, `Read`
  after `Write` answers the bytes written exactly when the separator does not occur
  in them followed by the separator's first fifteen characters; otherwise it answers
  `checksum mismatch`, whatever the digest.  So bytes that contain the separator, or
  end in `\n---CHECKSUM---`, do not read back.
-/

namespace Viracochan

open Journal

/-! ## `strings.SplitN(s, sep, 2)` -/

/-- `strings.SplitN(s, sep, 2)` for a non-empty `sep`: the text before the first
occurrence of `sep` and the text after it, or nothing when `sep` does not occur. -/
def splitFirst (sep : List Char) : List Char → Option (List Char × List Char)
  | [] => none
  | c :: cs =>
      if sep.isPrefixOf (c :: cs) then some ([], (c :: cs).drop sep.length)
      else (splitFirst sep cs).map fun p => (c :: p.1, p.2)

section Split

variable {sep : List Char}

/-- A text the separator occurs in is at least as long as it. -/
theorem length_le_of_containsText (hsep : sep ≠ []) :
    ∀ {l : List Char}, containsText sep l = true → sep.length ≤ l.length
  | [], h => by
      cases sep with
      | nil => exact absurd rfl hsep
      | cons a sep => simp [containsText, List.isPrefixOf] at h
  | c :: l, h => by
      simp only [containsText, Bool.or_eq_true] at h
      rcases h with h | h
      · exact (List.isPrefixOf_iff_prefix.mp h).length_le
      · exact (length_le_of_containsText hsep h).trans (Nat.le_succ _)

/-- A prefix at least as long as the separator starts with it exactly when the
whole text does. -/
theorem isPrefixOf_of_longer {l₁ l₂ : List Char} (h : l₁ <+: l₂) (hl : sep.length ≤ l₁.length)
    (hp : sep.isPrefixOf l₂ = true) : sep.isPrefixOf l₁ = true :=
  List.isPrefixOf_iff_prefix.mpr
    (List.prefix_of_prefix_length_le (List.isPrefixOf_iff_prefix.mp hp) h hl)

/-- What `splitFirst` answers: the text is the part before, the separator, and the
part after. -/
theorem splitFirst_eq_some :
    ∀ {l a b : List Char}, splitFirst sep l = some (a, b) → l = a ++ sep ++ b
  | [], _, _, h => by cases h
  | c :: l, a, b, h => by
      unfold splitFirst at h
      split at h
      · next hp =>
          cases h
          exact (List.prefix_iff_eq_append.mp (List.isPrefixOf_iff_prefix.mp hp)).symm
      · obtain ⟨p, hp, hab⟩ := Option.map_eq_some'.mp h
        cases hab
        rw [splitFirst_eq_some hp]
        rfl

/-- **Splitting text the separator was put after.**  When the separator does not
occur in `a` followed by all but the last character of the separator, the first
separator in `a ++ sep ++ b` is the one after `a`. -/
theorem splitFirst_append (hsep : sep ≠ []) (b : List Char) :
    ∀ {a : List Char}, containsText sep (a ++ sep.dropLast) = false →
      splitFirst sep (a ++ sep ++ b) = some (a, b)
  | [], _ => by
      obtain ⟨c, cs, hc⟩ := List.exists_cons_of_ne_nil hsep
      have hp : sep.isPrefixOf (sep ++ b) = true :=
        List.isPrefixOf_iff_prefix.mpr (List.prefix_append _ _)
      rw [List.nil_append, hc, List.cons_append, splitFirst, ← List.cons_append, ← hc, if_pos hp,
        List.drop_left]
  | c :: a, h => by
      simp only [List.cons_append, containsText, Bool.or_eq_false_iff, List.append_eq] at h
      have hnp : sep.isPrefixOf (c :: (a ++ sep ++ b)) = false := by
        refine Bool.eq_false_iff.mpr fun hp => ?_
        have hlen : sep.length ≤ (c :: (a ++ sep.dropLast)).length := by
          simp only [List.length_cons, List.length_append, List.length_dropLast]
          omega
        have hpre : c :: (a ++ sep.dropLast) <+: c :: (a ++ sep ++ b) := by
          refine (List.prefix_cons_inj c).mpr ?_
          rw [List.append_assoc]
          have hd : sep.dropLast <+: sep := List.dropLast_prefix sep
          exact (List.prefix_append_right_inj a).mpr (hd.trans (List.prefix_append _ _))
        rw [isPrefixOf_of_longer hpre hlen hp] at h
        exact Bool.noConfusion h.1
      rw [List.cons_append, List.cons_append, splitFirst, ← List.cons_append, ← List.cons_append,
        if_neg (by rw [List.cons_append, List.cons_append, hnp]; decide),
        splitFirst_append hsep b h.2]
      rfl

/-- Where the separator occurs in a prefix of a text, `splitFirst` finds one that
ends within that prefix. -/
theorem splitFirst_of_containsText (hsep : sep ≠ []) :
    ∀ {l₁ l : List Char}, containsText sep l₁ = true → l₁ <+: l →
      ∃ x y, splitFirst sep l = some (x, y) ∧ x.length + sep.length ≤ l₁.length
  | [], _, h, _ => by
      cases sep with
      | nil => exact absurd rfl hsep
      | cons a sep => simp [containsText, List.isPrefixOf] at h
  | c :: l₁, l, h, hpre => by
      obtain ⟨l', rfl⟩ : ∃ l', l = c :: l' := by
        obtain ⟨t, rfl⟩ := hpre
        exact ⟨l₁ ++ t, rfl⟩
      by_cases hp : sep.isPrefixOf (c :: l') = true
      · exact ⟨[], _, by rw [splitFirst, if_pos hp],
          by simpa using length_le_of_containsText hsep h⟩
      · have hp₁ : sep.isPrefixOf (c :: l₁) = false := Bool.eq_false_iff.mpr fun h₁ =>
          hp (List.isPrefixOf_iff_prefix.mpr ((List.isPrefixOf_iff_prefix.mp h₁).trans hpre))
        simp only [containsText, hp₁, Bool.false_or] at h
        obtain ⟨x, y, hxy, hlen⟩ :=
          splitFirst_of_containsText hsep h ((List.prefix_cons_inj c).mp hpre)
        refine ⟨c :: x, y, ?_, by simp only [List.length_cons]; omega⟩
        rw [splitFirst, if_neg hp, hxy]
        rfl

/-- **An earlier separator is found first.**  When the separator occurs in `a`
followed by all but the last character of the separator, the split of
`a ++ sep ++ b` leaves after it the last character of the separator after `a`. -/
theorem splitFirst_early (hsep : sep ≠ []) {a : List Char} (b : List Char)
    (h : containsText sep (a ++ sep.dropLast) = true) :
    ∃ x y, splitFirst sep (a ++ sep ++ b) = some (x, y) ∧ sep.getLast hsep ∈ y := by
  have hsplit : a ++ sep ++ b = (a ++ sep.dropLast) ++ (sep.getLast hsep :: b) := by
    conv_lhs => rw [← List.dropLast_append_getLast hsep]
    simp
  have hpre : a ++ sep.dropLast <+: a ++ sep ++ b := by
    rw [hsplit]
    exact List.prefix_append _ _
  obtain ⟨x, y, hxy, hlen⟩ := splitFirst_of_containsText hsep h hpre
  refine ⟨x, y, hxy, ?_⟩
  have hy : y = (a ++ sep ++ b).drop (x ++ sep).length := by
    rw [splitFirst_eq_some hxy, List.drop_left]
  rw [hy, hsplit, List.drop_append_of_le_length (by simpa using hlen)]
  exact List.mem_append_right _ (List.mem_cons_self _ _)

end Split

/-! ## `IntegrityStorage` -/

/-- The separator `Write` puts between the bytes and their checksum. -/
def integritySep : String :=
  "\n---CHECKSUM---\n"

section Integrity

variable {σ : Type} (sha256 : String → List UInt8) (backend : Storage σ)

/-- What `IntegrityStorage.Write` hands the backend: the bytes, the separator and
the hex SHA-256 of the bytes. -/
def integrityEncode (data : String) : String :=
  data ++ integritySep ++ hexEncode (sha256 data)

/-- `IntegrityStorage.Read`. -/
def integrityRead (s : σ) (path : String) : Except String String := do
  let rawData ← backend.read s path
  match splitFirst integritySep.data rawData.data with
  | none => .error "integrity check failed: no checksum found"
  | some (data, stored) =>
      if String.mk stored = hexEncode (sha256 (String.mk data)) then .ok (String.mk data)
      else .error "integrity check failed: checksum mismatch"

/-- `IntegrityStorage` as a `Storage`. -/
def integrityStorage : Storage σ where
  read := integrityRead sha256 backend
  write s path data := backend.write s path (integrityEncode sha256 data)
  list := backend.list
  delete := backend.delete

/-! ## Reading back -/

theorem digitChar_ne_newline {n : Nat} (h : n < 16) : Nat.digitChar n ≠ '\n' := by
  interval_cases n <;> decide

/-- A hex checksum holds no newline. -/
theorem newline_not_mem_hexEncode (bytes : List UInt8) : '\n' ∉ (hexEncode bytes).data := by
  simp only [hexEncode, List.mem_flatMap, List.mem_cons, List.mem_singleton, List.not_mem_nil,
    or_false, not_exists, not_and]
  intro b _ h
  have hb : b.toNat < 256 := b.toBitVec.isLt
  exact h.elim (digitChar_ne_newline (by omega) ·.symm)
    (digitChar_ne_newline (Nat.mod_lt _ (by norm_num)) ·.symm)

theorem integritySep_ne_nil : integritySep.data ≠ [] := by
  decide

theorem integritySep_getLast : integritySep.data.getLast integritySep_ne_nil = '\n' := by
  decide

/-- **What `Read` answers on what `Write` stored**: the bytes, unless the separator
occurs in them followed by its first fifteen characters, and then `checksum
mismatch`. -/
theorem integrityRead_of_encoded {s : σ} {path data : String}
    (hr : backend.read s path = .ok (integrityEncode sha256 data)) :
    integrityRead sha256 backend s path =
      if containsText integritySep.data (data.data ++ integritySep.data.dropLast) then
        .error "integrity check failed: checksum mismatch"
      else .ok data := by
  have henc : (integrityEncode sha256 data).data =
      data.data ++ integritySep.data ++ (hexEncode (sha256 data)).data := rfl
  simp only [integrityRead, hr, except_ok_bind, henc]
  cases hc : containsText integritySep.data (data.data ++ integritySep.data.dropLast) with
  | true =>
      obtain ⟨x, y, hxy, hy⟩ := splitFirst_early integritySep_ne_nil
        (hexEncode (sha256 data)).data hc
      rw [integritySep_getLast] at hy
      have hne : (⟨y⟩ : String) ≠ hexEncode (sha256 ⟨x⟩) := fun he =>
        newline_not_mem_hexEncode _ (by rw [← he]; exact hy)
      simp only [hxy, hne, if_false, if_true]
  | false =>
      simp only [splitFirst_append integritySep_ne_nil _ hc, if_true, Bool.false_eq_true, if_false]

/-- **What `Read` accepts was stored by `Write`.**  Whatever `IntegrityStorage.Read`
answers, the backend holds it followed by the separator and its hex checksum. -/
theorem integrity_read_accepts_encoded {s : σ} {path data : String}
    (h : integrityRead sha256 backend s path = .ok data) :
    backend.read s path = .ok (integrityEncode sha256 data) := by
  cases hr : backend.read s path with
  | error e => simp [integrityRead, hr] at h
  | ok raw =>
      simp only [integrityRead, hr, except_ok_bind] at h
      split at h
      · cases h
      · next a stored hs =>
          split at h
          · next hst =>
              cases h
              have hraw : raw = ⟨a ++ integritySep.data ++ stored⟩ := by
                rw [← splitFirst_eq_some hs]
              rw [hraw, integrityEncode, ← hst]
              rfl
          · cases h

/-- **`IntegrityStorage` reads back exactly the bytes the separator does not cut.**
Over a backend that reads back what it wrote, a `Read` after a `Write` that
succeeded answers the bytes written exactly when the separator does not occur in
them followed by its first fifteen characters; when it does, the `Read` answers `checksum mismatch`,
whatever the digest. -/
theorem integrity_round_trip_iff (hst : backend.ReadsBack) {s s' : σ} {path data : String}
    (hw : (integrityStorage sha256 backend).write s path data = .ok s') :
    ((integrityStorage sha256 backend).read s' path = .ok data ↔
        containsText integritySep.data (data.data ++ integritySep.data.dropLast) = false) ∧
      (containsText integritySep.data (data.data ++ integritySep.data.dropLast) = true →
        (integrityStorage sha256 backend).read s' path =
          .error "integrity check failed: checksum mismatch") := by
  have hr := integrityRead_of_encoded sha256 backend (hst.read_write _ _ _ _ hw)
  show (integrityRead sha256 backend s' path = .ok data ↔ _) ∧
    (_ → integrityRead sha256 backend s' path = _)
  rw [hr]
  cases containsText integritySep.data (data.data ++ integritySep.data.dropLast) <;> simp

end Integrity

/-- Bytes that end in `\n---CHECKSUM---`, written through an `IntegrityStorage` over
a `MemoryStorage`, do not read back. -/
theorem integrity_round_trip_marker :
    ∃ s', (integrityStorage codePointDigest MemoryStorage.storage).write .empty "k"
        "\n---CHECKSUM---" = .ok s' ∧
      containsText integritySep.data ("\n---CHECKSUM---".data ++ integritySep.data.dropLast) =
        true ∧
      (((integrityStorage codePointDigest MemoryStorage.storage).read s' "k" =
          .ok "\n---CHECKSUM---" ↔
        containsText integritySep.data ("\n---CHECKSUM---".data ++ integritySep.data.dropLast) =
          false) ∧
      (containsText integritySep.data ("\n---CHECKSUM---".data ++ integritySep.data.dropLast) =
          true →
        (integrityStorage codePointDigest MemoryStorage.storage).read s' "k" =
          .error "integrity check failed: checksum mismatch")) :=
  ⟨_, rfl, by decide, integrity_round_trip_iff codePointDigest MemoryStorage.storage
    MemoryStorage.lawful.toReadsBack rfl⟩

/-- The bytes `a`, stored as `Write` stores them, read back. -/
theorem integrity_read_accepts_encoded_a :
    integrityRead codePointDigest MemoryStorage.storage
        (MemoryStorage.empty.write "k" (integrityEncode codePointDigest "a")) "k" = .ok "a" ∧
      MemoryStorage.storage.read (MemoryStorage.empty.write "k" (integrityEncode codePointDigest "a"))
        "k" = .ok (integrityEncode codePointDigest "a") :=
  have h : integrityRead codePointDigest MemoryStorage.storage
      (MemoryStorage.empty.write "k" (integrityEncode codePointDigest "a")) "k" = .ok "a" := by
    rfl
  ⟨h, integrity_read_accepts_encoded codePointDigest MemoryStorage.storage h⟩

end Viracochan
