import Cairn.Ports.Ledger.Chain

/-!
# Proofs of inclusion for a light client

`Proof::check` of `src/ledger.rs`. A reader who holds nothing but a root
checks one entry and a path. The path is the prover's: its index, its claimed
number of leaves and its siblings are arbitrary, and nothing in the tree marks
a node as inner or leaf.

The argument is about texts. A path that arrives at the root started at some
node of the tree; an inner node's text begins with a digest, and the entry's
text begins with a brace, so the node it started at is a leaf, and the leaf is
the hash of an entry with the same body.
-/

namespace Cairn.Ports

open Cairn.Verified
open Cairn.Ports.Canonical

inductive ProofError where
  | entryAltered (declared recomputed : String)
  | wrongPosition (seq : UInt64) (index : Nat)
  | notUnderRoot (root : String)
deriving DecidableEq

/-- One entry, and the path that puts it under a root. -/
structure Proof where
  entry : Entry
  inclusion : Inclusion
deriving DecidableEq

section Check

variable [Sha256]

def Proof.check (p : Proof) (root : String) : Except ProofError Unit :=
  let recomputed := p.entry.recomputeHash
  if recomputed ≠ p.entry.hash then .error (.entryAltered p.entry.hash recomputed)
  else if p.inclusion.index ≠ p.entry.seq.toNat then
    .error (.wrongPosition p.entry.seq p.inclusion.index)
  else if ¬p.inclusion.verify recomputed root then .error (.notUnderRoot root)
  else .ok ()

theorem Proof.check_eq_ok_iff {p : Proof} {root : String} :
    p.check root = .ok () ↔
      p.entry.recomputeHash = p.entry.hash ∧ p.inclusion.index = p.entry.seq.toNat ∧
        p.inclusion.verify p.entry.recomputeHash root = true := by
  rw [Proof.check]
  split_ifs with haltered hposition hpath
  · simp [haltered]
  · simp [hposition]
  · simp only [ne_eq, not_not] at haltered hposition
    simp [haltered ▸ hpath, haltered, hposition]
  · simp [hpath]

/-- The strings hashed by a log's tree, by its chain and by checking a proof. -/
def ProofTexts (l : Ledger) (p : Proof) (text : String) : Prop :=
  BodyTexts l.entries [p.entry] text ∨ text ∈ merkleInputs l.leafHashes ∨
    text ∈ p.inclusion.inputs p.entry.recomputeHash

/-- An entry whose hash is a node of the tree is in the log. -/
theorem Ledger.mem_of_inTree {l : Ledger} {texts : String → Prop} (hcoll : NoCollision texts)
    (hinputs : ∀ x ∈ merkleInputs l.leafHashes, texts x)
    (hbodies : ∀ f ∈ l.entries, texts f.body.canonicalString)
    (hlinked : Linked l.entries) {e : Entry} (he : texts e.body.canonicalString)
    (hhash : e.recomputeHash = e.hash)
    (hleaves : ∀ h ∈ l.leafHashes,
      ∃ body, texts body ∧ BraceDelimited body ∧ h = digestText body)
    (htree : InTree l.leafHashes (merkleInputs l.leafHashes) e.hash) : e ∈ l.entries := by
  generalize hg : e.hash = g at htree
  cases htree with
  | leaf hmem =>
    obtain ⟨f, hf, hfhash⟩ := List.mem_map.mp hmem
    have hef : e = f :=
      eq_of_hash_eq hcoll he (hbodies f hf) hhash (hlinked.recomputeHash hf)
        (hg.trans hfhash.symm)
    rw [hef]
    exact hf
  | @node a b ha hb hmem =>
    have htext : e.body.canonicalString = a ++ b :=
      hcoll _ _ he (hinputs _ hmem) (hhash.trans hg)
    have hfirst := e.braceDelimited_body.1
    rw [htext, String.toList_append, List.head?_append, (ha.isDigest hleaves).head] at hfirst
    simp at hfirst

/-- **Light-client soundness.** Against the root of an intact log, a proof
that checks carries the entry the log holds at that position. -/
theorem Ledger.proof_sound (l : Ledger) (p : Proof) (root : String)
    (hchain : l.verifyChain = []) (hroot : l.root = some root)
    (hcoll : NoCollision (ProofTexts l p)) (hcheck : p.check root = .ok ()) :
    p.entry.seq.toNat < l.len ∧ l.entries[p.entry.seq.toNat]? = some p.entry := by
  obtain ⟨hhash, -, hverify⟩ := Proof.check_eq_ok_iff.mp hcheck
  have hlinked := verifyChain_eq_nil_iff.mp hchain
  have hinputs : ∀ x ∈ merkleInputs l.leafHashes, ProofTexts l p x :=
    fun x hx => .inr (.inl hx)
  have hbodies : ∀ f ∈ l.entries, ProofTexts l p f.body.canonicalString :=
    fun f hf => .inl ⟨f, .inl hf, rfl⟩
  have hleaves : ∀ h ∈ l.leafHashes,
      ∃ body, ProofTexts l p body ∧ BraceDelimited body ∧ h = digestText body := by
    intro h hh
    obtain ⟨f, hf, rfl⟩ := List.mem_map.mp hh
    exact ⟨_, hbodies f hf, f.braceDelimited_body, (hlinked.recomputeHash hf).symm⟩
  have htree : InTree l.leafHashes (merkleInputs l.leafHashes) p.entry.recomputeHash :=
    Inclusion.inTree_of_verify hcoll hinputs hleaves (isDigest_digestBytes _)
      (fun x hx => .inr (.inr hx)) hverify (merkleRoot_inTree hroot)
  rw [hhash] at htree
  have hmem : p.entry ∈ l.entries :=
    Ledger.mem_of_inTree hcoll hinputs hbodies hlinked (.inl ⟨p.entry, .inr (by simp), rfl⟩)
      hhash hleaves htree
  have hget := hlinked.getElem?_seq hmem
  exact ⟨(List.getElem?_eq_some_iff.mp hget).1, hget⟩

end Check

/-- The second entry of the sample log, and its path. -/
def sampleProof : Proof :=
  { entry := sampleSecond,
    inclusion := { index := 1, leaves := 2, siblings := [sampleFirst.hash] } }

def sampleRoot : String :=
  "sha256:ec5e83789ad80922beaa0899987c3b58c0b595e719a9254095e431358f968b2f"

theorem sampleRoot_digest : letI := sampleSha256
    digestText (sampleFirst.hash ++ sampleSecond.hash) = sampleRoot := by
  decide +kernel

/-- The log and the proof hash two bodies and one join. -/
theorem sample_proofTexts {text : String} : letI := sampleSha256
    ProofTexts (sampleLog [sampleFirst, sampleSecond]) sampleProof text →
      text = sampleFirst.body.canonicalString ∨ text = sampleSecond.body.canonicalString ∨
        text = sampleFirst.hash ++ sampleSecond.hash := by
  let _ := sampleSha256
  rintro (⟨e, he, rfl⟩ | h | h)
  · have he' : e = sampleFirst ∨ e = sampleSecond := by
      rcases he with he | he
      · simpa [sampleLog] using he
      · exact .inr (List.mem_singleton.mp he)
    rcases he' with rfl | rfl
    · exact .inl rfl
    · exact .inr (.inl rfl)
  · have hjoin : merkleInputs (sampleLog [sampleFirst, sampleSecond]).leafHashes =
        [sampleFirst.hash ++ sampleSecond.hash] := by
      simp [merkleInputs, reduceInputs, pairInputs, pairLevel, sampleLog, Ledger.leafHashes]
    rw [hjoin] at h
    exact .inr (.inr (List.mem_singleton.mp h))
  · have hjoin : sampleProof.inclusion.inputs sampleProof.entry.recomputeHash =
        [sampleFirst.hash ++ sampleSecond.hash] := by
      show walkInputs 2 sampleSecond.recomputeHash 1 2 [sampleFirst.hash] = _
      rw [sampleSecond_links.hash]
      simp [walkInputs, joinAt]
    rw [hjoin] at h
    exact .inr (.inr (List.mem_singleton.mp h))

theorem sample_proof_noCollision : letI := sampleSha256
    NoCollision (ProofTexts (sampleLog [sampleFirst, sampleSecond]) sampleProof) := by
  let _ := sampleSha256
  have h1 : digestText sampleFirst.body.canonicalString = sampleFirst.hash :=
    sampleFirst_links.hash
  have h2 : digestText sampleSecond.body.canonicalString = sampleSecond.hash :=
    sampleSecond_links.hash
  have h12 : sampleFirst.hash ≠ sampleSecond.hash := by decide
  have h13 : sampleFirst.hash ≠ sampleRoot := by decide
  have h23 : sampleSecond.hash ≠ sampleRoot := by decide
  intro x y hx hy heq
  rcases sample_proofTexts hx with rfl | rfl | rfl <;>
    rcases sample_proofTexts hy with rfl | rfl | rfl <;>
      simp_all [sampleRoot_digest]

theorem proof_sound_sample : letI := sampleSha256
    (sampleLog [sampleFirst, sampleSecond]).entries[1]? = some sampleProof.entry := by
  let _ := sampleSha256
  have hroot : (sampleLog [sampleFirst, sampleSecond]).root = some sampleRoot := by
    simp [Ledger.root, Ledger.leafHashes, sampleLog, merkleRoot, reduceLevels, pairLevel,
      sampleRoot_digest]
  have hcheck : sampleProof.check sampleRoot = .ok () := by
    rw [Proof.check_eq_ok_iff]
    refine ⟨sampleSecond_links.hash, rfl, ?_⟩
    show sampleProof.inclusion.verify sampleSecond.recomputeHash sampleRoot = true
    rw [sampleSecond_links.hash]
    simp [Inclusion.verify, sampleProof, walk, joinAt, sampleRoot_digest]
  exact (Ledger.proof_sound _ _ _ sample_verifyChain.2 hroot sample_proof_noCollision hcheck).2

end Cairn.Ports
