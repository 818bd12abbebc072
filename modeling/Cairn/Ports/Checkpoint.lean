import Cairn.Ports.Ledger.Chain

/-!
# Signed checkpoints

`src/checkpoint.rs`: a checkpoint pins the height, the head and the Merkle
root of a log, and a reader checks it against the first `height` entries of
what it holds. ML-DSA-65 comes from a crate outside the repository; the class
`MlDsa65` gives its operations and `MlDsa65.Correct` says that a signature
verifies under the key that made it.

Heads and roots are compared through their `{:?}` renderings. Rust's `Debug`
for strings consults Unicode tables for characters outside ASCII, which are
the parameter of `debugString`; the strings compared here are digests, which
are rendered as they stand.
-/

namespace Cairn.Ports

open Cairn.Verified
open Cairn.Ports.Canonical

def DOMAIN : String := "proofwork/knowledge-checkpoint/v1"

inductive CheckpointError where
  | invalid (detail : String)
  | badSignature
  | wrongSigner
  | mismatch (field expected actual : String)
  | shortLog (height local_ : UInt64)
deriving DecidableEq

/-- ML-DSA-65 over encoded keys and signatures. -/
class MlDsa65 where
  SigningKey : Type
  verifyingKey : SigningKey → List UInt8
  sign : SigningKey → ByteArray → List UInt8
  /-- Whether the bytes decode as a verifying key. -/
  keyDecodes : List UInt8 → Bool
  /-- Whether the bytes decode as a signature. -/
  signatureDecodes : List UInt8 → Bool
  verifies : List UInt8 → ByteArray → List UInt8 → Bool

/-- What a signer signs verifies under the signer's key. -/
structure MlDsa65.Correct [MlDsa65] : Prop where
  key : ∀ k, keyDecodes (verifyingKey k) = true
  signature : ∀ k message, signatureDecodes (sign k message) = true
  verifies : ∀ k message, MlDsa65.verifies (verifyingKey k) message (sign k message) = true

/-! ## Rendering with `{:?}` -/

/-- One character inside a rendered string. `printable` answers for the
characters outside ASCII. -/
def debugChar (printable : Char → Bool) (c : Char) : List Char :=
  if c = '\x00' then ['\\', '0']
  else if c = '\t' then ['\\', 't']
  else if c = '\r' then ['\\', 'r']
  else if c = '\n' then ['\\', 'n']
  else if c = '"' then ['\\', '"']
  else if c = '\\' then ['\\', '\\']
  else if (if c.toNat < 0x80 then decide (0x20 ≤ c.toNat ∧ c.toNat < 0x7f) else printable c) then [c]
  else ['\\', 'u', '{'] ++ Nat.toDigits 16 c.toNat ++ ['}']

def debugString (printable : Char → Bool) (s : String) : String :=
  "\"" ++ String.ofList (s.toList.flatMap (debugChar printable)) ++ "\""

def debugOption (printable : Char → Bool) : Option String → String
  | none => "None"
  | some s => "Some(" ++ debugString printable s ++ ")"

theorem debugChar_of_isHexDigit (printable : Char → Bool) {c : Char} (h : isHexDigit c) :
    debugChar printable c = [c] := by
  have hrange : 0x30 ≤ c.toNat ∧ c.toNat ≤ 0x39 ∨ 0x61 ≤ c.toNat ∧ c.toNat ≤ 0x66 := by
    simp only [isHexDigit, Char.isDigit, Bool.or_eq_true, Bool.and_eq_true,
      decide_eq_true_eq] at h
    rcases h with ⟨hlow, hhigh⟩ | ⟨hlow, hhigh⟩
    · exact .inl ⟨hlow, hhigh⟩
    · exact .inr ⟨hlow, hhigh⟩
  have hne : ∀ d : Char, d.toNat < 0x30 ∨ d.toNat = 0x5c → c ≠ d := by
    intro d hd hcd
    rw [hcd] at hrange
    omega
  unfold debugChar
  rw [if_neg (hne _ (by decide)), if_neg (hne _ (by decide)), if_neg (hne _ (by decide)),
    if_neg (hne _ (by decide)), if_neg (hne _ (by decide)), if_neg (hne _ (by decide)),
    if_pos (show c.toNat < 0x80 by omega), if_pos (by rw [decide_eq_true_eq]; omega)]

theorem flatMap_debugChar_hex (printable : Char → Bool) {hex : List Char}
    (h : ∀ c ∈ hex, isHexDigit c) : hex.flatMap (debugChar printable) = hex := by
  induction hex with
  | nil => rfl
  | cons c hex ih =>
    rw [List.flatMap_cons, debugChar_of_isHexDigit printable (h c (by simp)),
      ih fun d hd => h d (by simp [hd])]
    rfl

/-- A digest is rendered as it stands, in quotes. -/
theorem debugString_of_isDigest (printable : Char → Bool) {s : String} (h : IsDigest s) :
    debugString printable s = "\"" ++ s ++ "\"" := by
  obtain ⟨hex, -, hhex, hs⟩ := h
  have hprefix : ['s', 'h', 'a', '2', '5', '6', ':'].flatMap (debugChar printable) =
      ['s', 'h', 'a', '2', '5', '6', ':'] := by
    simp [debugChar]
  have hflat : s.toList.flatMap (debugChar printable) = s.toList := by
    rw [hs, List.flatMap_append, hprefix, flatMap_debugChar_hex printable hhex]
  rw [debugString, hflat, String.ofList_toList]

theorem debugOption_inj (printable : Char → Bool) {s t : Option String}
    (hs : ∀ x ∈ s, IsDigest x) (ht : ∀ x ∈ t, IsDigest x)
    (h : debugOption printable s = debugOption printable t) : s = t := by
  have hlist := congrArg String.toList h
  cases s with
  | none =>
    cases t with
    | none => rfl
    | some y => simp [debugOption] at hlist
  | some x =>
    cases t with
    | none => simp [debugOption] at hlist
    | some y =>
      rw [debugOption, debugOption, debugString_of_isDigest printable (hs x rfl),
        debugString_of_isDigest printable (ht y rfl)] at hlist
      simp only [String.toList_append, List.append_cancel_left_eq,
        List.append_cancel_right_eq] at hlist
      rw [String.toList_inj.mp hlist]

/-! ## Checkpoints -/

structure Checkpoint where
  height : UInt64
  head : Option String
  root : Option String
  issuedAt : String
deriving DecidableEq

/-- A text, or `null`. -/
def Checkpoint.optionalString : Option String → Value
  | some text => .string text
  | none => .null

def Checkpoint.toValue (c : Checkpoint) : Value :=
  .object
    [("height", .int (.ofUInt64 c.height)),
      ("head", Checkpoint.optionalString c.head),
      ("root", Checkpoint.optionalString c.root),
      ("issued_at", .string c.issuedAt)]

structure SignedCheckpoint where
  checkpoint : Checkpoint
  publicKey : List UInt8
  signature : List UInt8
deriving DecidableEq

def SignedCheckpoint.signingValue (c : Checkpoint) : Value :=
  .object [("domain", .string DOMAIN), ("checkpoint", c.toValue)]

section Verify

variable [Sha256] [MlDsa65] (printable : Char → Bool)

def Checkpoint.fromLedger (l : Ledger) (issuedAt : String) : Checkpoint :=
  { height := UInt64.ofNat l.len, head := l.head, root := l.root, issuedAt }

def SignedCheckpoint.sign (identity : MlDsa65.SigningKey) (checkpoint : Checkpoint) :
    SignedCheckpoint :=
  { checkpoint,
    publicKey := MlDsa65.verifyingKey identity,
    signature := MlDsa65.sign identity (signingValue checkpoint).canonicalBytes }

def SignedCheckpoint.verify (c : SignedCheckpoint) (expectedKey : List UInt8) :
    Except CheckpointError Unit :=
  if c.publicKey ≠ expectedKey then .error .wrongSigner
  else if ¬MlDsa65.keyDecodes c.publicKey then .error (.invalid "public key encoding")
  else if ¬MlDsa65.signatureDecodes c.signature then .error (.invalid "signature encoding")
  else if MlDsa65.verifies c.publicKey (signingValue c.checkpoint).canonicalBytes c.signature then
    .ok ()
  else .error .badSignature

/-- The three comparisons of `verify_against`, each as `(field, expected,
got)`. -/
def Checkpoint.comparisons (expected actual : Checkpoint) : List (String × String × String) :=
  [("height", toString expected.height.toNat, toString actual.height.toNat),
    ("head", debugOption printable expected.head, debugOption printable actual.head),
    ("root", debugOption printable expected.root, debugOption printable actual.root)]

/-- The loop over the comparisons: the first that differs is the error. -/
def firstMismatch : List (String × String × String) → Except CheckpointError Unit
  | [] => .ok ()
  | (field, expected, got) :: rest =>
    if expected ≠ got then .error (.mismatch field expected got) else firstMismatch rest

def SignedCheckpoint.verifyAgainst (c : SignedCheckpoint) (l : Ledger)
    (expectedKey : List UInt8) : Except CheckpointError Unit := do
  c.verify expectedKey
  let problems := l.verifyChain
  if problems ≠ [] then
    .error (.invalid ("ledger prefix failed chain verification: " ++ "; ".intercalate problems))
  else
    let actual := Checkpoint.fromLedger l c.checkpoint.issuedAt
    firstMismatch (c.checkpoint.comparisons printable actual)

/-- Verify against the first `height` entries of a log that may be longer. -/
def SignedCheckpoint.verifyPrefix (c : SignedCheckpoint) (l : Ledger) (expectedKey : List UInt8) :
    Except CheckpointError Unit := do
  c.verify expectedKey
  match l.prefixTo c.checkpoint.height.toNat with
  | none => .error (.shortLog c.checkpoint.height (UInt64.ofNat l.len))
  | some view => c.verifyAgainst printable view expectedKey

omit [Sha256] in
theorem SignedCheckpoint.verify_sign (hsig : MlDsa65.Correct) (identity : MlDsa65.SigningKey)
    (c : Checkpoint) : (sign identity c).verify (MlDsa65.verifyingKey identity) = .ok () := by
  simp [SignedCheckpoint.verify, SignedCheckpoint.sign, hsig.key, hsig.signature, hsig.verifies]

omit [Sha256] [MlDsa65] in
theorem firstMismatch_eq_ok_iff {rows : List (String × String × String)} :
    firstMismatch rows = .ok () ↔ ∀ row ∈ rows, row.2.1 = row.2.2 := by
  induction rows with
  | nil => simp [firstMismatch]
  | cons row rows ih =>
    obtain ⟨field, expected, got⟩ := row
    rw [firstMismatch]
    by_cases h : expected = got
    · simp [h, ih]
    · simp [h]

omit [MlDsa65] in
/-- The last hash of a linked log is a digest. -/
theorem Linked.isDigest_head {entries : List Entry} (h : Linked entries) :
    ∀ x ∈ headOf entries, IsDigest x := by
  intro x hx
  obtain ⟨e, he, rfl⟩ := Option.map_eq_some_iff.mp hx
  rw [← h.recomputeHash (List.mem_of_getLast? he)]
  exact isDigest_digestBytes _

/-- A signed checkpoint checks against a log of the signed length exactly when
the log holds the signed entries. -/
theorem SignedCheckpoint.verifyAgainst_sign_iff (hsig : MlDsa65.Correct)
    (identity : MlDsa65.SigningKey) (signed l : Ledger) (issuedAt : String)
    (hsigned : signed.verifyChain = []) (hlen : l.len = signed.len)
    (hcoll : NoCollision (BodyTexts signed.entries l.entries)) :
    (sign identity (.fromLedger signed issuedAt)).verifyAgainst printable l
      (MlDsa65.verifyingKey identity) = .ok () ↔ l.entries = signed.entries := by
  rw [verifyAgainst, verify_sign hsig]
  have hlinked := verifyChain_eq_nil_iff.mp hsigned
  constructor
  · intro h
    by_cases hproblems : l.verifyChain = []
    · have hmatch : firstMismatch ((Checkpoint.fromLedger signed issuedAt).comparisons printable
          (.fromLedger l issuedAt)) = .ok () := by
        simpa [hproblems, sign, bind, Except.bind, Checkpoint.fromLedger] using h
      have hhead := firstMismatch_eq_ok_iff.mp hmatch
        ("head", debugOption printable signed.head, debugOption printable l.head)
        (by simp [Checkpoint.comparisons, Checkpoint.fromLedger])
      have hl := verifyChain_eq_nil_iff.mp hproblems
      have hheads : headOf signed.entries = headOf l.entries :=
        debugOption_inj printable hlinked.isDigest_head hl.isDigest_head hhead
      exact (entries_eq_of_headOf_eq hcoll hlinked hl hlen.symm hheads).symm
    · simp [hproblems, bind, Except.bind] at h
  · intro h
    have hproblems : l.verifyChain = [] := by
      rw [verifyChain_eq_nil_iff, h]
      exact hlinked
    have hsame : Checkpoint.fromLedger l issuedAt = .fromLedger signed issuedAt := by
      simp [Checkpoint.fromLedger, Ledger.len, Ledger.head, Ledger.root, Ledger.leafHashes, h]
    simp only [hproblems, sign, bind, Except.bind, ne_eq, not_true_eq_false, if_false]
    show firstMismatch (Checkpoint.comparisons printable _ (.fromLedger l issuedAt)) = _
    rw [hsame, firstMismatch_eq_ok_iff]
    simp [Checkpoint.comparisons]

omit [MlDsa65] in
theorem Checkpoint.height_fromLedger {l : Ledger} (issuedAt : String)
    (hlen : l.len < UInt64.size) : (fromLedger l issuedAt).height.toNat = l.len :=
  UInt64.toNat_ofNat_of_lt' hlen

/-- The check reads the entries of a log and nothing else of it. -/
theorem SignedCheckpoint.verifyAgainst_congr (c : SignedCheckpoint) (key : List UInt8)
    {l l' : Ledger} (h : l.entries = l'.entries) :
    c.verifyAgainst printable l key = c.verifyAgainst printable l' key := by
  obtain ⟨path, entries, view, codec, fsync⟩ := l
  obtain ⟨path', entries', view', codec', fsync'⟩ := l'
  obtain rfl : entries = entries' := h
  rfl

/-- What `verify_prefix` makes of a signed checkpoint. -/
theorem SignedCheckpoint.verifyPrefix_sign (hsig : MlDsa65.Correct)
    (identity : MlDsa65.SigningKey) (signed l : Ledger) (issuedAt : String)
    (hlen : signed.len < UInt64.size) :
    (sign identity (.fromLedger signed issuedAt)).verifyPrefix printable l
        (MlDsa65.verifyingKey identity) =
      if l.len < signed.len then
        .error (.shortLog (UInt64.ofNat signed.len) (UInt64.ofNat l.len))
      else
        (sign identity (.fromLedger signed issuedAt)).verifyAgainst printable
          (l.view signed.len) (MlDsa65.verifyingKey identity) := by
  have hheight : (sign identity (.fromLedger signed issuedAt)).checkpoint.height.toNat =
      signed.len := Checkpoint.height_fromLedger issuedAt hlen
  rw [verifyPrefix, verify_sign hsig]
  simp only [bind, Except.bind, hheight, Ledger.prefixTo]
  by_cases hshort : l.len < signed.len
  · rw [if_pos hshort, if_pos (show l.entries.length < signed.len from hshort)]
    rfl
  · rw [if_neg hshort, if_neg (show ¬l.entries.length < signed.len from hshort)]

/-- **A checkpoint pins a prefix.** A checkpoint signed over an intact log is
accepted by a reader exactly when the reader's first entries are that log's; a
shorter log is told so; and what the reader holds past the height changes
nothing. -/
theorem SignedCheckpoint.verifyPrefix_exact (hsig : MlDsa65.Correct)
    (identity : MlDsa65.SigningKey) (signed l : Ledger) (issuedAt : String)
    (hsigned : signed.verifyChain = []) (hlen : signed.len < UInt64.size)
    (hcoll : NoCollision (BodyTexts signed.entries (l.entries.take signed.len))) :
    ((sign identity (.fromLedger signed issuedAt)).verifyPrefix printable l
        (MlDsa65.verifyingKey identity) = .ok () ↔
      signed.len ≤ l.len ∧ l.entries.take signed.len = signed.entries) ∧
    (l.len < signed.len →
      (sign identity (.fromLedger signed issuedAt)).verifyPrefix printable l
        (MlDsa65.verifyingKey identity) =
      .error (.shortLog (UInt64.ofNat signed.len) (UInt64.ofNat l.len))) ∧
    (∀ l' : Ledger, signed.len ≤ l.len → signed.len ≤ l'.len →
      l'.entries.take signed.len = l.entries.take signed.len →
      (sign identity (.fromLedger signed issuedAt)).verifyPrefix printable l'
        (MlDsa65.verifyingKey identity) =
      (sign identity (.fromLedger signed issuedAt)).verifyPrefix printable l
        (MlDsa65.verifyingKey identity)) := by
  refine ⟨?_, ?_, ?_⟩
  · rw [verifyPrefix_sign printable hsig identity signed l issuedAt hlen]
    by_cases hshort : l.len < signed.len
    · rw [if_pos hshort]
      constructor
      · intro h
        cases h
      · rintro ⟨hle, -⟩
        omega
    · have hle : signed.len ≤ l.len := by omega
      have htake : (l.view signed.len).len = signed.len := by
        show (l.entries.take signed.len).length = signed.len
        rw [List.length_take]
        exact Nat.min_eq_left hle
      rw [if_neg hshort,
        verifyAgainst_sign_iff printable hsig identity signed _ issuedAt hsigned htake hcoll]
      constructor
      · intro h
        exact ⟨hle, h⟩
      · intro h
        exact h.2
  · intro hshort
    rw [verifyPrefix_sign printable hsig identity signed l issuedAt hlen, if_pos hshort]
  · intro l' hl hl' htake
    rw [verifyPrefix_sign printable hsig identity signed l' issuedAt hlen,
      verifyPrefix_sign printable hsig identity signed l issuedAt hlen,
      if_neg (by omega), if_neg (by omega)]
    exact verifyAgainst_congr printable _ _ htake

end Verify

/-- A signature scheme that accepts what it signed. -/
@[reducible] def sampleMlDsa65 : MlDsa65 where
  SigningKey := Unit
  verifyingKey _ := List.replicate 1952 0
  sign _ _ := List.replicate 3309 0
  keyDecodes key := key.length == 1952
  signatureDecodes signature := signature.length == 3309
  verifies _ _ _ := true

theorem sampleMlDsa65_correct : letI := sampleMlDsa65; MlDsa65.Correct := by
  let _ := sampleMlDsa65
  refine ⟨?_, ?_, fun _ _ => rfl⟩
  · intro k
    show ((List.replicate 1952 (0 : UInt8)).length == 1952) = true
    rw [List.length_replicate]
    rfl
  · intro k message
    show ((List.replicate 3309 (0 : UInt8)).length == 3309) = true
    rw [List.length_replicate]
    rfl

/-- A reader one entry ahead of the signer accepts. -/
theorem verifyPrefix_exact_sample : letI := sampleSha256; letI := sampleMlDsa65
    (SignedCheckpoint.sign ()
        (.fromLedger (sampleLog [sampleFirst]) "2026-01-02T00:00:00Z")).verifyPrefix
      (fun _ => true) (sampleLog [sampleFirst, sampleSecond]) (MlDsa65.verifyingKey ()) =
    .ok () := by
  let _ := sampleSha256
  let _ := sampleMlDsa65
  have hcoll : NoCollision (BodyTexts (sampleLog [sampleFirst]).entries
      ((sampleLog [sampleFirst, sampleSecond]).entries.take (sampleLog [sampleFirst]).len)) := by
    refine sample_noCollision.mono ?_
    rintro text ⟨e, he, rfl⟩
    have hfirst : e = sampleFirst := by simpa [sampleLog, Ledger.len] using he
    exact ⟨e, .inl (by simp [hfirst]), rfl⟩
  exact ((SignedCheckpoint.verifyPrefix_exact (fun _ => true) sampleMlDsa65_correct ()
    (sampleLog [sampleFirst]) (sampleLog [sampleFirst, sampleSecond]) "2026-01-02T00:00:00Z"
    sample_verifyChain.1 (by decide) hcoll).1).mpr ⟨by decide, by decide⟩

end Cairn.Ports
