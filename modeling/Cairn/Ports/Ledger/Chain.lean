import Cairn.Ports.Ledger.Entry

/-!
# The hash chain

`Ledger` of `src/ledger.rs` in memory: `verify_chain`, `head`, `root` and
`prefix`. `verify_chain` reports every problem it finds; `LinkedFrom` is the
property that it finds none, and the proofs work with that.

A log is a list of entries whose `prev` fields point backwards, so agreement
at the end propagates to the front: equal hashes mean equal bodies, equal
bodies mean equal `prev` fields, and those are the hashes one step back.
-/

namespace Cairn.Ports

open Cairn.Verified
open Cairn.Ports.Canonical

/-- A key for sealing lines. The cipher is outside the repository; `nonce` is
what the random source fills in. -/
structure Cipher where
  sealLine : UInt64 → List UInt8 → List UInt8 → Except AtRestError String
  openLine : UInt64 → String → Except AtRestError (List UInt8)

/-- How lines are written to and read from the file. -/
inductive Codec where
  | plain
  | sealed (cipher : Cipher)

/-- A log and the file behind it. -/
structure Ledger where
  path : String
  entries : List Entry
  readOnlyPrefix : Bool
  codec : Codec
  fsync : Bool

/-- Render a `prev` link for a diagnostic. -/
def renderPrev : Option String → String
  | some hash => "'" ++ hash ++ "'"
  | none => "None"

section Chain

variable [Sha256]

/-- The problems of one entry at position `i`. -/
def entryProblems (i : Nat) (expectedPrev : Option String) (e : Entry) : List String :=
  (if e.seq.toNat ≠ i then ["entry " ++ toString i ++ ": seq is " ++ toString e.seq.toNat]
    else []) ++
  (if e.prev ≠ expectedPrev then
    ["entry " ++ toString i ++ ": prev is " ++ renderPrev e.prev ++ ", expected " ++
      renderPrev expectedPrev]
    else []) ++
  (if e.recomputeHash ≠ e.hash then
    ["entry " ++ toString i ++
      ": hash mismatch -- content was modified after it was written"]
    else [])

/-- The loop of `verify_chain`. -/
def verifyFrom (i : Nat) (expectedPrev : Option String) : List Entry → List String
  | [] => []
  | e :: es => entryProblems i expectedPrev e ++ verifyFrom (i + 1) (some e.hash) es

/-- Every integrity problem of the log. -/
def Ledger.verifyChain (l : Ledger) : List String := verifyFrom 0 none l.entries

def Ledger.len (l : Ledger) : Nat := l.entries.length

/-- Hash of the most recent of these entries. -/
def headOf (entries : List Entry) : Option String := entries.getLast?.map Entry.hash

def Ledger.head (l : Ledger) : Option String := headOf l.entries

def Ledger.leafHashes (l : Ledger) : List String := l.entries.map Entry.hash

/-- Merkle root over the entry hashes. -/
def Ledger.root (l : Ledger) : Option String := merkleRoot l.leafHashes

/-- A read-only view of the first `height` entries. -/
def Ledger.view (l : Ledger) (height : Nat) : Ledger :=
  { path := l.path, entries := l.entries.take height, readOnlyPrefix := true, codec := .plain,
    fsync := false }

/-- `Ledger::prefix`: the view, if the log reaches that far. -/
def Ledger.prefixTo (l : Ledger) (height : Nat) : Option Ledger :=
  if l.entries.length < height then none else some (l.view height)

/-! ## What an empty report says -/

/-- The entry belongs at position `i` after the hash `expectedPrev`. -/
structure Links (i : Nat) (expectedPrev : Option String) (e : Entry) : Prop where
  seq : e.seq.toNat = i
  prev : e.prev = expectedPrev
  hash : e.recomputeHash = e.hash

/-- The entries continue a log of `i` entries whose last hash is
`expectedPrev`. -/
def LinkedFrom (i : Nat) (expectedPrev : Option String) : List Entry → Prop
  | [] => True
  | e :: es => Links i expectedPrev e ∧ LinkedFrom (i + 1) (some e.hash) es

/-- A whole log is linked. -/
def Linked (entries : List Entry) : Prop := LinkedFrom 0 none entries

variable {e : Entry} {expectedPrev : Option String} {i : Nat} {entries xs ys : List Entry}

theorem entryProblems_eq_nil_iff :
    entryProblems i expectedPrev e = [] ↔ Links i expectedPrev e := by
  simp only [entryProblems, List.append_eq_nil_iff, ite_eq_right_iff, reduceCtorEq, imp_false,
    ne_eq, not_not]
  constructor
  · rintro ⟨⟨hseq, hprev⟩, hhash⟩
    exact ⟨hseq, hprev, hhash⟩
  · rintro ⟨hseq, hprev, hhash⟩
    exact ⟨⟨hseq, hprev⟩, hhash⟩

theorem verifyFrom_eq_nil_iff :
    verifyFrom i expectedPrev entries = [] ↔ LinkedFrom i expectedPrev entries := by
  induction entries generalizing i expectedPrev with
  | nil => simp [verifyFrom, LinkedFrom]
  | cons e es ih =>
    rw [verifyFrom, List.append_eq_nil_iff, entryProblems_eq_nil_iff, ih, LinkedFrom]

theorem verifyChain_eq_nil_iff {l : Ledger} : l.verifyChain = [] ↔ Linked l.entries :=
  verifyFrom_eq_nil_iff

/-- The hash a continuation of these entries has to name. -/
theorem linkedFrom_append :
    LinkedFrom i expectedPrev (xs ++ ys) ↔
      LinkedFrom i expectedPrev xs ∧
        LinkedFrom (i + xs.length) ((headOf xs).or expectedPrev) ys := by
  induction xs generalizing i expectedPrev with
  | nil => simp [LinkedFrom, headOf]
  | cons x xs ih =>
    have hhead : (headOf (x :: xs)).or expectedPrev = (headOf xs).or (some x.hash) := by
      cases hlast : xs.getLast? with
      | none => simp [headOf, List.getLast?_cons, hlast]
      | some y => simp [headOf, List.getLast?_cons, hlast]
    have hlen : i + (x :: xs).length = i + 1 + xs.length := by
      rw [List.length_cons]
      omega
    rw [List.cons_append, LinkedFrom, LinkedFrom, ih, hhead, hlen, and_assoc]

theorem linked_append : Linked (xs ++ ys) ↔ Linked xs ∧ LinkedFrom xs.length (headOf xs) ys := by
  rw [Linked, linkedFrom_append, Nat.zero_add, Option.or_none]
  rfl

theorem linked_concat : Linked (xs ++ [e]) ↔ Linked xs ∧ Links xs.length (headOf xs) e := by
  rw [linked_append]
  simp [LinkedFrom]

theorem Linked.take (h : Linked entries) (n : Nat) : Linked (entries.take n) := by
  rw [← List.take_append_drop n entries, linked_append] at h
  exact h.1

/-- An entry of a linked log sits where its `seq` says. -/
theorem LinkedFrom.getElem? (h : LinkedFrom i expectedPrev entries) (he : e ∈ entries) :
    i ≤ e.seq.toNat ∧ entries[e.seq.toNat - i]? = some e := by
  induction entries generalizing i expectedPrev with
  | nil => simp at he
  | cons x xs ih =>
    rcases List.mem_cons.mp he with rfl | he
    · have hseq := h.1.seq
      exact ⟨hseq.ge, by rw [hseq, Nat.sub_self]; rfl⟩
    · obtain ⟨hle, hget⟩ := ih h.2 he
      have hsub : e.seq.toNat - i = e.seq.toNat - (i + 1) + 1 := by omega
      exact ⟨by omega, by rw [hsub, List.getElem?_cons_succ, hget]⟩

theorem Linked.getElem?_seq (h : Linked entries) (he : e ∈ entries) :
    entries[e.seq.toNat]? = some e := by
  have hget := (LinkedFrom.getElem? h he).2
  rwa [Nat.sub_zero] at hget

theorem Linked.recomputeHash (h : Linked entries) (he : e ∈ entries) :
    e.recomputeHash = e.hash := by
  obtain ⟨xs, ys, rfl⟩ := List.append_of_mem he
  exact ((linked_append.mp h).2.1).hash

omit [Sha256] in
theorem headOf_concat (xs : List Entry) (e : Entry) : headOf (xs ++ [e]) = some e.hash := by
  rw [headOf, List.getLast?_concat]
  rfl

/-! ## The head pins the log -/

/-- The texts two lists of entries hash. -/
def BodyTexts (xs ys : List Entry) (text : String) : Prop :=
  ∃ e, (e ∈ xs ∨ e ∈ ys) ∧ text = e.body.canonicalString

/-- Linked entries with one hash are one entry. -/
theorem eq_of_hash_eq {texts : String → Prop} (hcoll : NoCollision texts) {f : Entry}
    (he : texts e.body.canonicalString) (hf : texts f.body.canonicalString)
    (hehash : e.recomputeHash = e.hash) (hfhash : f.recomputeHash = f.hash) (h : e.hash = f.hash) :
    e = f := by
  have hdigest : digestText e.body.canonicalString = digestText f.body.canonicalString := by
    rw [← hehash, ← hfhash] at h
    exact h
  have hbody := Value.canonicalString_injective (hcoll _ _ he hf hdigest)
  exact Entry.body_inj hbody h

theorem entries_eq_of_headOf_eq (hcoll : NoCollision (BodyTexts xs ys)) (hxs : Linked xs)
    (hys : Linked ys) (hlen : xs.length = ys.length) (hhead : headOf xs = headOf ys) : xs = ys := by
  -- Down the `prev` links: the last entries agree, so their predecessors' hashes do.
  induction xs using List.reverseRecOn generalizing ys with
  | nil => exact (List.length_eq_zero_iff.mp hlen.symm).symm
  | append_singleton xs x ih =>
    cases ys using List.reverseRecOn with
    | nil => simp at hlen
    | append_singleton ys y =>
      obtain ⟨hlxs, hx⟩ := linked_concat.mp hxs
      obtain ⟨hlys, hy⟩ := linked_concat.mp hys
      have hhash : x.hash = y.hash := by
        rw [headOf_concat, headOf_concat] at hhead
        exact Option.some_inj.mp hhead
      have hxy : x = y :=
        eq_of_hash_eq hcoll ⟨x, by simp, rfl⟩ ⟨y, by simp, rfl⟩ hx.hash hy.hash hhash
      subst hxy
      have hprev : headOf xs = headOf ys := hx.prev.symm.trans hy.prev
      have hcoll' : NoCollision (BodyTexts xs ys) := by
        refine hcoll.mono ?_
        rintro text ⟨e, he, rfl⟩
        exact ⟨e, he.imp (List.mem_append_left _) (List.mem_append_left _), rfl⟩
      have hlen' : xs.length = ys.length := by simpa using hlen
      rw [ih hcoll' hlxs hlys hlen' hprev]

omit [Sha256] in
theorem headOf_take {n : Nat} (hn : 0 < n) (hle : n ≤ entries.length) :
    headOf (entries.take n) = (entries[n - 1]?).map Entry.hash := by
  have hlen : (entries.take n).length = n := by rw [List.length_take]; omega
  rw [headOf, List.getLast?_eq_getElem?, hlen, List.getElem?_take_of_lt (by omega)]

/-- **Tamper evidence.** Two intact logs of one length with one head hold the
same entries; and an intact log whose head is the hash of another's entry at
its last position is that log's prefix. -/
theorem Ledger.tamper_evident (a b : Ledger)
    (hcoll : NoCollision (BodyTexts a.entries b.entries))
    (ha : a.verifyChain = []) (hb : b.verifyChain = []) :
    (a.len = b.len → a.head = b.head → a.entries = b.entries) ∧
    (a.len ≤ b.len → (b.entries[a.len - 1]?).map Entry.hash = a.head →
      a.entries = b.entries.take a.len) := by
  rw [verifyChain_eq_nil_iff] at ha hb
  constructor
  · intro hlen hhead
    exact entries_eq_of_headOf_eq hcoll ha hb hlen hhead
  · intro hle hhead
    by_cases hempty : a.len = 0
    · rw [hempty, List.take_zero]
      exact List.length_eq_zero_iff.mp hempty
    · have hpos : 0 < a.len := Nat.pos_of_ne_zero hempty
      have hlen : a.entries.length = (b.entries.take a.len).length := by
        rw [List.length_take]
        exact (Nat.min_eq_left hle).symm
      have hhead' : headOf a.entries = headOf (b.entries.take a.len) := by
        rw [headOf_take hpos hle, hhead]
        rfl
      refine entries_eq_of_headOf_eq (hcoll.mono ?_) ha (hb.take _) hlen hhead'
      rintro text ⟨e, he, rfl⟩
      exact ⟨e, he.imp_right List.mem_of_mem_take, rfl⟩

end Chain

/-! ## A log of two entries -/

def sampleFirst : Entry :=
  { seq := 0, prev := none, kind := "objective", payload := .null, ts := "2026-01-01T00:00:00Z",
    hash := "sha256:1768f78505062b7bde09b85b97e8001f9bfb5ab2c10ccd4c101d833854999413" }

def sampleSecond : Entry :=
  { seq := 1, prev := some sampleFirst.hash, kind := "batch", payload := .bool true,
    ts := "2026-01-01T01:00:00Z",
    hash := "sha256:a5214c49d3795c017a9cc1fa98d0e50c3b045277c8f8e49a8a09bd52d0862df9" }

def sampleLog (entries : List Entry) : Ledger :=
  { path := "log.jsonl", entries, readOnlyPrefix := false, codec := .plain, fsync := false }

/-- The three texts the log of these entries hashes, with their SHA-256. -/
@[reducible] def sampleSha256 : Sha256 :=
  .ofTable
    [("\x7b\"kind\":\"objective\",\"payload\":null,\"prev\":null,\"seq\":0," ++
        "\"ts\":\"2026-01-01T00:00:00Z\"\x7d",
      0x1768f78505062b7bde09b85b97e8001f9bfb5ab2c10ccd4c101d833854999413),
     ("\x7b\"kind\":\"batch\",\"payload\":true,\"prev\":" ++
        "\"sha256:1768f78505062b7bde09b85b97e8001f9bfb5ab2c10ccd4c101d833854999413\"" ++
        ",\"seq\":1,\"ts\":\"2026-01-01T01:00:00Z\"\x7d",
      0xa5214c49d3795c017a9cc1fa98d0e50c3b045277c8f8e49a8a09bd52d0862df9),
     ("sha256:1768f78505062b7bde09b85b97e8001f9bfb5ab2c10ccd4c101d833854999413" ++
        "sha256:a5214c49d3795c017a9cc1fa98d0e50c3b045277c8f8e49a8a09bd52d0862df9",
      0xec5e83789ad80922beaa0899987c3b58c0b595e719a9254095e431358f968b2f)]

theorem sampleFirst_links : letI := sampleSha256; Links 0 none sampleFirst := by
  let _ := sampleSha256
  exact ⟨rfl, rfl, by decide⟩

theorem sampleSecond_links : letI := sampleSha256
    Links 1 (some sampleFirst.hash) sampleSecond := by
  let _ := sampleSha256
  exact ⟨rfl, rfl, by decide +kernel⟩

/-- The two bodies have different digests. -/
theorem sample_noCollision : letI := sampleSha256
    NoCollision (BodyTexts [sampleFirst] [sampleFirst, sampleSecond]) := by
  let _ := sampleSha256
  have hdigest : sampleFirst.recomputeHash ≠ sampleSecond.recomputeHash := by
    rw [sampleFirst_links.hash, sampleSecond_links.hash]
    decide
  have hbody : ∀ e, (e ∈ [sampleFirst] ∨ e ∈ [sampleFirst, sampleSecond]) →
      e = sampleFirst ∨ e = sampleSecond := by
    intro e he
    simpa using he
  rintro x y ⟨e, he, rfl⟩ ⟨f, hf, rfl⟩ heq
  rcases hbody e he with rfl | rfl <;> rcases hbody f hf with rfl | rfl
  · rfl
  · exact absurd heq hdigest
  · exact absurd heq hdigest.symm
  · rfl

theorem sample_verifyChain : letI := sampleSha256
    (sampleLog [sampleFirst]).verifyChain = [] ∧
      (sampleLog [sampleFirst, sampleSecond]).verifyChain = [] := by
  let _ := sampleSha256
  rw [verifyChain_eq_nil_iff, verifyChain_eq_nil_iff]
  exact ⟨⟨sampleFirst_links, trivial⟩, sampleFirst_links, sampleSecond_links, trivial⟩

theorem tamper_evident_sample : letI := sampleSha256
    (sampleLog [sampleFirst]).entries =
      (sampleLog [sampleFirst, sampleSecond]).entries.take 1 := by
  let _ := sampleSha256
  exact (Ledger.tamper_evident (sampleLog [sampleFirst]) (sampleLog [sampleFirst, sampleSecond])
    sample_noCollision sample_verifyChain.1 sample_verifyChain.2).2 (by decide) (by decide)

end Cairn.Ports
