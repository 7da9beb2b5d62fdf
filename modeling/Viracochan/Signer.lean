import Viracochan.Config
import Viracochan.Digest
import Viracochan.Time.Parse

/-!
# Viracochan: signing configurations

`Signer` binds a signature to a configuration through the binding string of
`makeSigningMessage` (checksum, version, time and a digest of the raw content).
The signature itself is made by go-nostr: `signMessage` puts the hex digest of
the binding string as the content of a kind-1 event and signs the event, and
`verifyMessage` rebuilds such an event and checks the signature against it.

Both events are stamped with `nostr.Now()`, the wall clock in whole seconds, at
the moment they are built, and the timestamp is part of the serialization that
the Schnorr signature covers.  The model takes the clock as an argument.

The Schnorr scheme is a parameter: `SchnorrScheme.Ideal` says that a signature
verifies, under the public key of the secret key that made it, exactly the hash
it was made over.

**Results.**
* `verify_after_sign`: with an ideal scheme and a collision-free digest,
  verifying a freshly signed configuration succeeds exactly when the clock reads
  the same second as when it was signed; `verifyChainSignatures` agrees.
* `signature_binds_signed_fields`: the binding string can be split only one way
  (`makeSigningMessage_injective`), so a signature made on one configuration fails
  on every configuration with another checksum, version, instant or content
  digest.
-/

namespace Viracochan

/-- The Schnorr scheme of go-nostr, with keys and signatures in hex. -/
structure SchnorrScheme where
  /-- The public key of a secret key (`nostr.GetPublicKey`, and the one `Event.Sign` sets). -/
  publicKey : String → String
  /-- `schnorr.Sign` of a hash, hex-encoded. -/
  sign : String → List UInt8 → String
  /-- What `Event.CheckSignature` does after hashing: parse the key and signature, verify. -/
  verify : String → List UInt8 → String → Except String Bool

/-- An ideal scheme: signatures are non-empty, and one made with a secret key
verifies under its public key exactly the hash it was made over. -/
def SchnorrScheme.Ideal (S : SchnorrScheme) : Prop :=
  (∀ sk h, S.sign sk h ≠ "") ∧
    ∀ sk h h', S.verify (S.publicKey sk) h' (S.sign sk h) = .ok (decide (h' = h))

/-- A `Signer`: a secret key and the public key derived from it. -/
structure Signer (S : SchnorrScheme) where
  privateKey : String
  publicKey : String
  publicKey_eq : publicKey = S.publicKey privateKey

/-- `nostr.Now()`: the Unix time in whole seconds. -/
def GoTime.unix (t : GoTime) : Int :=
  t.unixNano / 1000000000

/-- The kind-1, tag-free `nostr.Event` that `signMessage` and `verifyMessage` build. -/
structure NostrEvent where
  pubKey : String
  createdAt : Int
  content : String

/-- The escaping of string contents in an event serialization: quotes, backslashes
and control characters are escaped. -/
def nostrEscape (s : String) : List Char :=
  s.data.flatMap fun c =>
    if c = '"' then ['\\', '"']
    else if c = '\\' then ['\\', '\\']
    else if c.toNat < 0x20 then
      ['\\', 'u', '0', '0', Nat.digitChar (c.toNat / 16), Nat.digitChar (c.toNat % 16)]
    else [c]

/-- `Event.Serialize()`: `[0,"<pubkey>",<created_at>,1,[],"<content>"]`. -/
def NostrEvent.serialize (e : NostrEvent) : List Char :=
  "[0,\"".data ++ e.pubKey.data ++ "\",".data ++
    (appendInt e.createdAt 0 ++ (",1,[],\"".data ++ nostrEscape e.content ++ "\"]".data))

section Signing

variable (S : SchnorrScheme) (sha256 : String → List UInt8)

/-- `Signer.makeSigningMessage`: the binding string
`viracochan:v1:<cs>:<version>:<time>:<content digest>`. -/
def makeSigningMessage (cfg : Config) : String :=
  "viracochan:v1:" ++ cfg.meta.cs ++ ":" ++ ⟨decimal cfg.meta.version.toNat⟩ ++ ":" ++
    ⟨cfg.meta.time.utc.formatRFC3339Nano⟩ ++ ":" ++ hexEncode (sha256 (cfg.content.getD ""))

/-- The event `signMessage` and `verifyMessage` build for a message at time `now`. -/
def messageEvent (publicKey : String) (now : GoTime) (message : String) : NostrEvent :=
  ⟨publicKey, now.unix, hexEncode (sha256 message)⟩

/-- `Signer.signMessage`: sign the event carrying the digest of `message`. -/
def signMessage (signer : Signer S) (now : GoTime) (message : String) : String :=
  S.sign signer.privateKey
    (sha256 ⟨(messageEvent sha256 (S.publicKey signer.privateKey) now message).serialize⟩)

/-- `Signer.verifyMessage`: check `signature` against the event rebuilt at `now`. -/
def verifyMessage (now : GoTime) (message signature publicKey : String) :
    Except String Unit :=
  match S.verify publicKey (sha256 ⟨(messageEvent sha256 publicKey now message).serialize⟩)
      signature with
  | .error e => .error e
  | .ok false => .error "invalid signature"
  | .ok true => .ok ()

/-- `Signer.Sign` at time `now`. -/
def sign (signer : Signer S) (now : GoTime) (cfg : Config) : Except String Config :=
  if cfg.meta.cs = "" then .error "config must have checksum before signing"
  else
    .ok { cfg with
      meta := { cfg.meta with
        signature := signMessage S sha256 signer now (makeSigningMessage sha256 cfg) } }

/-- `Signer.Verify` at time `now` (the receiver's keys play no part). -/
def verify (now : GoTime) (cfg : Config) (publicKey : String) : Except String Unit :=
  if cfg.meta.signature = "" then .error "config has no signature"
  else verifyMessage S sha256 now (makeSigningMessage sha256 cfg) cfg.meta.signature publicKey

/-- The loop of `VerifyChainSignatures` from index `i`: unsigned configurations are
skipped, the first failure is reported with its index. -/
def verifyChainFrom (now : GoTime) (publicKey : String) :
    Nat → List Config → Except String Unit
  | _, [] => .ok ()
  | i, cfg :: rest =>
      if cfg.meta.signature = "" then verifyChainFrom now publicKey (i + 1) rest
      else
        match verify S sha256 now cfg publicKey with
        | .error e => .error s!"signature verification failed at index {i}: {e}"
        | .ok () => verifyChainFrom now publicKey (i + 1) rest

/-- `VerifyChainSignatures` at time `now`. -/
def verifyChainSignatures (now : GoTime) (configs : List Config) (publicKey : String) :
    Except String Unit :=
  verifyChainFrom S sha256 now publicKey 0 configs

/-! ## A signature verifies only in the second it was made -/

@[simp] theorem makeSigningMessage_signature (cfg : Config) (sig : String) :
    makeSigningMessage sha256 { cfg with meta := { cfg.meta with signature := sig } } =
      makeSigningMessage sha256 cfg :=
  rfl

/-- Two events differing only in their timestamps serialize differently. -/
theorem serialize_eq_iff (pk content : String) (a b : Int) :
    (NostrEvent.serialize ⟨pk, a, content⟩ = NostrEvent.serialize ⟨pk, b, content⟩) ↔ a = b := by
  refine ⟨fun h => ?_, fun h => h ▸ rfl⟩
  simp only [NostrEvent.serialize, List.append_assoc, List.append_cancel_left_eq,
    List.append_cancel_right_eq] at h
  exact appendInt_injective h

/-- With an ideal scheme and a collision-free digest, a configuration signed at `t1`
passes `Verify` at `t2` exactly when `t2` falls in the same second as `t1`, and
fails with "invalid signature" otherwise; so does `VerifyChainSignatures`. -/
theorem verify_after_sign (hS : S.Ideal) (hsha : Function.Injective sha256)
    (signer : Signer S) (cfg : Config) (hcs : cfg.meta.cs ≠ "") (t1 t2 : GoTime) :
    ∃ signed, sign S sha256 signer t1 cfg = .ok signed ∧
      verify S sha256 t2 signed signer.publicKey =
        (if t2.unix = t1.unix then .ok () else .error "invalid signature") ∧
      verifyChainSignatures S sha256 t2 [signed] signer.publicKey =
        (if t2.unix = t1.unix then .ok ()
         else .error "signature verification failed at index 0: invalid signature") := by
  refine ⟨_, if_neg hcs, ?_⟩
  have hsig := hS.1 signer.privateKey
    (sha256 ⟨(messageEvent sha256 (S.publicKey signer.privateKey) t1
      (makeSigningMessage sha256 cfg)).serialize⟩)
  have hver : verify S sha256 t2
      { cfg with meta := { cfg.meta with
        signature := signMessage S sha256 signer t1 (makeSigningMessage sha256 cfg) } }
      signer.publicKey = (if t2.unix = t1.unix then .ok () else .error "invalid signature") := by
    simp only [verify, makeSigningMessage_signature, signMessage, hsig, if_false, verifyMessage,
      signer.publicKey_eq, hS.2]
    by_cases ht : t2.unix = t1.unix
    · simp [ht, messageEvent]
    · have hne : sha256 ⟨(messageEvent sha256 (S.publicKey signer.privateKey) t2
            (makeSigningMessage sha256 cfg)).serialize⟩ ≠
          sha256 ⟨(messageEvent sha256 (S.publicKey signer.privateKey) t1
            (makeSigningMessage sha256 cfg)).serialize⟩ := fun h =>
        ht ((serialize_eq_iff _ _ _ _).mp (congrArg String.data (hsha h)))
      simp [ht, hne]
  refine ⟨hver, ?_⟩
  have hsig' : signMessage S sha256 signer t1 (makeSigningMessage sha256 cfg) ≠ "" := hsig
  simp only [verifyChainSignatures, verifyChainFrom, hsig', if_false, hver]
  by_cases ht : t2.unix = t1.unix
  · simp [ht]
  · simp [ht]
    rfl

/-- A reference ideal scheme: the public key is the secret key, and a signature is
the key followed by the hex of the hash. -/
def referenceScheme : SchnorrScheme where
  publicKey sk := sk
  sign sk h := sk ++ ":" ++ hexEncode h
  verify pk h sig := .ok (sig == pk ++ ":" ++ hexEncode h)

theorem referenceScheme_ideal : referenceScheme.Ideal := by
  refine ⟨fun sk h hs => ?_, fun sk h h' => ?_⟩
  · have := congrArg String.length hs
    simp [referenceScheme, String.length_append] at this
    exact absurd this.1.2 (by decide)
  · simp only [referenceScheme, Except.ok.injEq]
    by_cases hh : h' = h
    · simp [hh]
    · have : hexEncode h ≠ hexEncode h' := fun he => hh (hexEncode_injective he).symm
      simpa [hh, String.ext_iff] using this

/-- `verify_after_sign` on the reference scheme: signed at 0 s, the configuration no
longer verifies at 1 s. -/
theorem verify_after_sign_reference :
    let signer : Signer referenceScheme := ⟨"sk", "sk", rfl⟩
    let cfg : Config := ⟨⟨1, ⟨0, 0⟩, "", "cs", ""⟩, some "{}"⟩
    referenceScheme.Ideal ∧ Function.Injective codePointDigest ∧ cfg.meta.cs ≠ "" ∧
      ∃ signed, sign referenceScheme codePointDigest signer ⟨0, 0⟩ cfg = .ok signed ∧
        verify referenceScheme codePointDigest ⟨1000000000, 0⟩ signed signer.publicKey =
          (if GoTime.unix ⟨1000000000, 0⟩ = GoTime.unix ⟨0, 0⟩ then .ok ()
           else .error "invalid signature") ∧
        verifyChainSignatures referenceScheme codePointDigest ⟨1000000000, 0⟩ [signed]
            signer.publicKey =
          (if GoTime.unix ⟨1000000000, 0⟩ = GoTime.unix ⟨0, 0⟩ then .ok ()
           else .error "signature verification failed at index 0: invalid signature") := by
  intro signer cfg
  have hcs : cfg.meta.cs ≠ "" := by decide
  exact ⟨referenceScheme_ideal, codePointDigest_injective, hcs,
    verify_after_sign referenceScheme codePointDigest referenceScheme_ideal
      codePointDigest_injective signer cfg hcs ⟨0, 0⟩ ⟨1000000000, 0⟩⟩

/-! ## The binding string binds the signed fields -/

/-- The binding string determines the checksum, the version, the instant and the
content digest.  The checksum may hold colons, so the string is split from the
right: the digest and the version have none, and the time at offset zero has
exactly two. -/
theorem makeSigningMessage_injective {c1 c2 : Config}
    (h : makeSigningMessage sha256 c1 = makeSigningMessage sha256 c2) :
    c1.meta.cs = c2.meta.cs ∧ c1.meta.version = c2.meta.version ∧
      c1.meta.time.unixNano = c2.meta.time.unixNano ∧
      sha256 (c1.content.getD "") = sha256 (c2.content.getD "") := by
  have hdec : ∀ n, ':' ∉ decimal n := fun n hc => absurd (decimal_isDigit n _ hc) (by decide)
  have hhex : ∀ b, (hexEncode b).data.count ':' = 0 := fun b =>
    List.count_eq_zero_of_not_mem fun hc => by
      obtain ⟨d, hd, hdc⟩ := hexEncode_digitChar b _ hc
      exact absurd hdc ((by decide : ∀ d < 16, Nat.digitChar d ≠ ':') d hd)
  have hd := congrArg String.data h
  simp only [makeSigningMessage, String.data_append, List.append_assoc, List.singleton_append,
    List.append_cancel_left_eq] at hd
  obtain ⟨hcs, hd⟩ := append_cons_cancel_of_count hd (by
    simp [List.count_append, GoTime.count_colon_formatRFC3339Nano_utc, hhex,
      List.count_eq_zero_of_not_mem (hdec _)])
  obtain ⟨hv, hd⟩ := append_cons_cancel_of_not_mem (hdec _) (hdec _) hd
  obtain ⟨ht, hx⟩ := append_cons_cancel_of_count hd (by rw [hhex, hhex])
  exact ⟨String.ext hcs, UInt64.toNat.inj (decimal_injective hv),
    @GoTime.formatRFC3339Nano_injective c1.meta.time.utc c2.meta.time.utc rfl rfl ht, hexEncode_injective (String.ext hx)⟩

/-- Hex digits need no escaping in an event. -/
theorem nostrEscape_hexEncode (bytes : List UInt8) :
    nostrEscape (hexEncode bytes) = (hexEncode bytes).data := by
  have key : ∀ d < 16, Nat.digitChar d ≠ '"' ∧ Nat.digitChar d ≠ '\\' ∧
      ¬(Nat.digitChar d).toNat < 0x20 := by decide
  have hs := hexEncode_digitChar bytes
  unfold nostrEscape
  generalize (hexEncode bytes).data = l at hs ⊢
  induction l with
  | nil => rfl
  | cons c l ih =>
      obtain ⟨d, hd, rfl⟩ := hs _ (List.mem_cons_self _ _)
      obtain ⟨h1, h2, h3⟩ := key d hd
      simp only [List.flatMap_cons, if_neg h1, if_neg h2, if_neg h3, List.singleton_append,
        ih fun c hc => hs c (List.mem_cons_of_mem _ hc)]

/-- Events carrying digests serialize alike only for the same timestamp and digest. -/
theorem serialize_hexEncode_injective {pk : String} {a b : Int} {x y : List UInt8}
    (h : NostrEvent.serialize ⟨pk, a, hexEncode x⟩ = NostrEvent.serialize ⟨pk, b, hexEncode y⟩) :
    a = b ∧ x = y := by
  simp only [NostrEvent.serialize, nostrEscape_hexEncode, List.append_assoc,
    List.append_cancel_left_eq] at h
  obtain ⟨ha, hr⟩ := append_cons_cancel_of_not_mem (not_mem_appendInt (by decide) (by decide) a 0)
    (not_mem_appendInt (by decide) (by decide) b 0) h
  simp only [List.append_eq, List.append_cancel_left_eq, List.append_cancel_right_eq] at hr
  exact ⟨appendInt_injective ha, hexEncode_injective (String.ext hr)⟩

/-- **A signature binds its configuration.**  Two configurations that differ in
their checksum, their version, their instant or the digest of their content get
different binding strings; so, with an ideal scheme and a collision-free digest,
the signature made on one fails `Verify` on the other, at any time. -/
theorem signature_binds_signed_fields (hS : S.Ideal) (hsha : Function.Injective sha256)
    (signer : Signer S) {c1 c2 : Config}
    (hne : c1.meta.cs ≠ c2.meta.cs ∨ c1.meta.version ≠ c2.meta.version ∨
      c1.meta.time.unixNano ≠ c2.meta.time.unixNano ∨
      sha256 (c1.content.getD "") ≠ sha256 (c2.content.getD ""))
    {t1 : GoTime} {signed : Config} (hsign : sign S sha256 signer t1 c1 = .ok signed)
    (t2 : GoTime) :
    makeSigningMessage sha256 c1 ≠ makeSigningMessage sha256 c2 ∧
      verify S sha256 t2 { c2 with meta := { c2.meta with signature := signed.meta.signature } }
        signer.publicKey = .error "invalid signature" := by
  have hmsg : makeSigningMessage sha256 c1 ≠ makeSigningMessage sha256 c2 := fun h => by
    obtain ⟨h1, h2, h3, h4⟩ := makeSigningMessage_injective sha256 h
    rcases hne with h | h | h | h
    exacts [h h1, h h2, h h3, h h4]
  refine ⟨hmsg, ?_⟩
  unfold sign at hsign
  split at hsign
  · cases hsign
  · cases hsign
    have hsig := hS.1 signer.privateKey (sha256 ⟨(messageEvent sha256
      (S.publicKey signer.privateKey) t1 (makeSigningMessage sha256 c1)).serialize⟩)
    have hdiff : sha256 ⟨(messageEvent sha256 (S.publicKey signer.privateKey) t2
          (makeSigningMessage sha256 c2)).serialize⟩ ≠
        sha256 ⟨(messageEvent sha256 (S.publicKey signer.privateKey) t1
          (makeSigningMessage sha256 c1)).serialize⟩ := fun h =>
      hmsg (hsha (serialize_hexEncode_injective (congrArg String.data (hsha h))).2).symm
    simp only [verify, makeSigningMessage_signature, signMessage, hsig, if_false, verifyMessage,
      signer.publicKey_eq, hS.2, hdiff, decide_False]

/-- `signature_binds_signed_fields` on the reference scheme: a signature made on
version 1 fails on version 2. -/
theorem signature_binds_signed_fields_reference :
    let signer : Signer referenceScheme := ⟨"sk", "sk", rfl⟩
    let c1 : Config := ⟨⟨1, ⟨0, 0⟩, "", "cs", ""⟩, some "{}"⟩
    let c2 : Config := ⟨⟨2, ⟨0, 0⟩, "", "cs", ""⟩, some "{}"⟩
    let signed : Config := { c1 with meta := { c1.meta with
      signature := signMessage referenceScheme codePointDigest signer ⟨0, 0⟩
        (makeSigningMessage codePointDigest c1) } }
    (referenceScheme.Ideal ∧ Function.Injective codePointDigest ∧
      (c1.meta.cs ≠ c2.meta.cs ∨ c1.meta.version ≠ c2.meta.version ∨
        c1.meta.time.unixNano ≠ c2.meta.time.unixNano ∨
        codePointDigest (c1.content.getD "") ≠ codePointDigest (c2.content.getD "")) ∧
      sign referenceScheme codePointDigest signer ⟨0, 0⟩ c1 = .ok signed) ∧
    makeSigningMessage codePointDigest c1 ≠ makeSigningMessage codePointDigest c2 ∧
      verify referenceScheme codePointDigest ⟨0, 0⟩
        { c2 with meta := { c2.meta with signature := signed.meta.signature } }
        signer.publicKey = .error "invalid signature" := by
  intro signer c1 c2 signed
  have hne : c1.meta.cs ≠ c2.meta.cs ∨ c1.meta.version ≠ c2.meta.version ∨
      c1.meta.time.unixNano ≠ c2.meta.time.unixNano ∨
      codePointDigest (c1.content.getD "") ≠ codePointDigest (c2.content.getD "") :=
    .inr (.inl (by decide))
  have hsign : sign referenceScheme codePointDigest signer ⟨0, 0⟩ c1 = .ok signed :=
    if_neg (by decide)
  exact ⟨⟨referenceScheme_ideal, codePointDigest_injective, hne, hsign⟩,
    signature_binds_signed_fields referenceScheme codePointDigest referenceScheme_ideal
      codePointDigest_injective signer hne hsign ⟨0, 0⟩⟩

end Signing

end Viracochan
