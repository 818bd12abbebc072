import Cairn.Ports.Node.Custody

/-!
# The sample of an answer

What an undertaking has to produce in an epoch is drawn with the last entry in
front of that epoch. Once the epoch has begun no later entry stands in front of
it, and every position draws the same index. An answer may also name an epoch
to come, and then each entry that is appended draws again.
-/

namespace Cairn.Ports

open Cairn.Verified
open Cairn.Ports.Canonical

/-- A time at which an epoch has begun. -/
def Begun (epoch : UInt64) (ts : String) : Prop :=
  ∃ at_, epochAt EPOCH_SECONDS ts = some at_ ∧ epoch ≤ at_

section Answers

variable [World]

/-- An answer that `post_availability` takes at a position. Nothing behind the
position is older than the answer. -/
structure Log.Answers (log : List Entry) (undertaking : Undertaking) (epoch : UInt64)
    (position : Nat) (record : Availability) (ts : String) : Prop where
  inside : position ≤ log.length
  names : record.undertaking = undertaking.id
  answers : record.epoch = epoch
  admitted : Log.checkAnswer (log.take position) record = .ok ()
  ordered : ∀ e ∈ log.drop position, ∀ s t, parseRfc3339 ts = some s →
    parseRfc3339 e.ts = some t → s ≤ t

variable {log : List Entry} {undertaking : Undertaking} {epoch : UInt64} {position : Nat}
  {record : Availability} {ts : String}

theorem Log.Answers.from (h : Log.Answers log undertaking epoch position record ts)
    (hbegun : Begun epoch ts) : Log.From log epoch position := by
  obtain ⟨at_, hat, hle⟩ := hbegun
  intro e he later hlater
  exact UInt64.le_trans hle (epochAt_le (h.ordered e he) hat hlater)

/-- Nothing behind the beginning of an epoch moves its draw. -/
theorem Log.From.sampledIndex (h : Log.From log epoch position) {later : Nat}
    (hle : position ≤ later) (undertaking : Undertaking) :
    Log.sampledIndex log undertaking epoch later =
      Log.sampledIndex log undertaking epoch position := by
  unfold Log.sampledIndex
  rw [h.anchorAt hle]

/-- In a run, all answers that are posted once their epoch has begun are asked
for the same entry. -/
theorem Node.sample_frozen (l : Ledger) (ops : List Op) {later : Nat} {record' : Availability}
    {ts' : String}
    (h : Log.Answers ((Node.new l).run ops).log undertaking epoch position record ts)
    (h' : Log.Answers ((Node.new l).run ops).log undertaking epoch later record' ts')
    (hbegun : Begun epoch ts) (hbegun' : Begun epoch ts') :
    Log.sampledIndex ((Node.new l).run ops).log undertaking epoch position =
      Log.sampledIndex ((Node.new l).run ops).log undertaking epoch later := by
  rcases Nat.le_total position later with hle | hle
  · exact ((h.from hbegun).sampledIndex hle undertaking).symm
  · exact (h'.from hbegun').sampledIndex hle undertaking

end Answers

/-! ## An answer before its epoch -/

/-- The undertaking, its two leaves and the entries of the log, by the length of
the text that is hashed. -/
def sampleAnswerDigests : List (Nat × Nat) :=
  [(142, 0xd735aaa35a6f240fc6cba7bb0f3259b6f573b9a78b562c5eca9aca05b05332e7),
    (220, 0xc48b21ade0e4eab64d4f01d9539cb23117c6bde0a2d7f5fcade0ddd97b344b02),
    (289, 0xc3d2d88a9a08e006ffc970beb5b4b20bf4c8eebd30612fd1be5c04339341d3a5),
    (350, 0x9f859cb60b4514cc97b509b34f32e69fab32129bbc5b1ef2566f0bcbca683bb2),
    (380, 0x903757100d25618ed1d11ff5aff57201f6c8b35b3daecb12bac3cef431880864),
    (530, 0x24d1857c26a09e435f9ffc80e43530d66cd5cb5e5de715432dc7b255c59187e0)]

/-- The beacon of the epoch that has begun, and the two of the next one. -/
def sampleBeaconDigests : List (String × Nat) :=
  [("2945377:sha256:c3d2d88a9a08e006ffc970beb5b4b20bf4c8eebd30612fd1be5c04339341d3a5",
      0xdc6bf1d9f7f612492d71c4ece8e0c2e774d4065805e6b14430bd08ab82687d8d),
    ("2945378:sha256:24d1857c26a09e435f9ffc80e43530d66cd5cb5e5de715432dc7b255c59187e0",
      0x3ad6c612c5597345ed5b2baec924e3d8731507d9ff9d7fa0da2176a585970383),
    ("2945378:sha256:9f859cb60b4514cc97b509b34f32e69fab32129bbc5b1ef2566f0bcbca683bb2",
      0x5380928e9c28f1b89ee8b007be8dbbd7b13884e98d5e4f01f33de6bfa1bffa28)]

def sampleBeaconTags : List (String × Nat) :=
  [("dc6bf1d9f7f612492d71c4ece8e0c2e774d4065805e6b14430bd08ab82687d8d",
      0x0b9192b56709fd3a792366953c82a070e8b145c07c85ab56ce94d501fd6ffd09),
    ("3ad6c612c5597345ed5b2baec924e3d8731507d9ff9d7fa0da2176a585970383",
      0xef72118d1d7cddb36212052be46385fc947272ad4e2e3a89a080caf59c12605b),
    ("5380928e9c28f1b89ee8b007be8dbbd7b13884e98d5e4f01f33de6bfa1bffa28",
      0x5765ae76f28cf078d2704cc84c13df604573eab1b9ad0ea5ce56d26dd41eeb7f)]

/-- Signatures verify. -/
@[reducible] def sampleAnswerWorld : World :=
  { sampleWorld with
    hash data :=
      if data.size = 79 then (Sha256.ofTable sampleBeaconDigests).hash data
      else (Sha256.ofLengths sampleAnswerDigests).hash data
    verifyValue _ _ _ := true
    hmac key _ :=
      digestOfNat (((sampleBeaconTags.find? fun row => row.1 = key).map Prod.snd).getD 0) }

section Sample

local instance sampleAnswerInstance : World := sampleAnswerWorld

def sampleAnswerer : String := "03a107bff3ce10be1d70dd18e74bc09967e4d6309ba50d5f1ddc8664125531b8"

def sampleMint : Issuance := ⟨sampleAnswerer, 20, "2026-01-01T00:00:00Z"⟩

/-- It stakes a unit on the first two entries. -/
def samplePromise : Undertaking where
  identity := sampleAnswerer
  root := "sha256:d735aaa35a6f240fc6cba7bb0f3259b6f573b9a78b562c5eca9aca05b05332e7"
  height := 2
  bond := 1
  createdAt := "2026-01-01T00:10:00Z"
  signature := some ("3fbe866150277292612367fc58fc8f6f9fefce2a8204d0a403f4ae859427dd46" ++
    "df70ea1e78b91198b57e9af1d2780c22f208935f1dd3d65506154f5a51f12002")

def samplePool : AvailabilityPool := ⟨sampleAnswerer, 1, 2945378, 2945378, "2026-01-01T00:10:00Z"⟩

def sampleAnswerOps : List Op :=
  [.postIssuance sampleMint "2026-01-01T00:00:00Z", .postIssuance sampleMint "2026-01-01T00:00:00Z",
    .postUndertaking samplePromise "2026-01-01T00:10:00Z",
    .postAvailabilityPool samplePool "2026-01-01T00:10:00Z"]

/-- The entries of the run. -/
def sampleAnswerEntry : Nat → Entry
  | 0 => ⟨0, none, "issuance", sampleMint.toValue, "2026-01-01T00:00:00Z",
      "sha256:c48b21ade0e4eab64d4f01d9539cb23117c6bde0a2d7f5fcade0ddd97b344b02"⟩
  | 1 => ⟨1, some "sha256:c48b21ade0e4eab64d4f01d9539cb23117c6bde0a2d7f5fcade0ddd97b344b02",
      "issuance", sampleMint.toValue, "2026-01-01T00:00:00Z",
      "sha256:c3d2d88a9a08e006ffc970beb5b4b20bf4c8eebd30612fd1be5c04339341d3a5"⟩
  | 2 => ⟨2, some "sha256:c3d2d88a9a08e006ffc970beb5b4b20bf4c8eebd30612fd1be5c04339341d3a5",
      "undertaking", samplePromise.toValue, "2026-01-01T00:10:00Z",
      "sha256:24d1857c26a09e435f9ffc80e43530d66cd5cb5e5de715432dc7b255c59187e0"⟩
  | _ => ⟨3, some "sha256:24d1857c26a09e435f9ffc80e43530d66cd5cb5e5de715432dc7b255c59187e0",
      "availability_pool", samplePool.toValue, "2026-01-01T00:10:00Z",
      "sha256:9f859cb60b4514cc97b509b34f32e69fab32129bbc5b1ef2566f0bcbca683bb2"⟩

def sampleAnswerLog (length : Nat) : List Entry := (List.range length).map sampleAnswerEntry

/-- An answer with one of the first two. -/
def sampleReply (epoch : UInt64) (index : Nat) (signature : String) : Availability where
  identity := sampleAnswerer
  undertaking := "sha256:903757100d25618ed1d11ff5aff57201f6c8b35b3daecb12bac3cef431880864"
  epoch := epoch
  entry := (sampleAnswerEntry index).bodyWithHash
  path := [(sampleAnswerEntry (1 - index)).hash]
  createdAt := "2026-01-01T00:10:00Z"
  signature := some signature

def sampleReplyNow : Availability :=
  sampleReply 2945377 0 ("0b28e55aaca864e3c44f0e74815e00861f435531e1e83b8ae582f53cb55f77ba" ++
    "c3efae81595262303160e54fa798f1c23d35c73d1829ffb7cfda29dc9a06f406")

/-- Two answers for the epoch to come. -/
def sampleReplyAhead : Availability :=
  sampleReply 2945378 1 ("b9fdd40f7996e2d51b715c48f9956d30d8edf93faa009004233db689443dda2b" ++
    "d2dc3359d092a8ed32a2eb99b8c51fc809ef4e85a833ed4b7a6c43da713aac0e")

def sampleReplyLater : Availability :=
  sampleReply 2945378 0 ("0a13104650f20939312faa0e3ba8f5dae01f387786ef61f5b42caae9fb27576b" ++
    "2597ceaf6fc7d0f47566a44730f8b17417c379a5db52b4923340a78a1dd63909")

/-! ### The log of the run -/

-- the texts of the entries are evaluated character by character
set_option maxRecDepth 20000

theorem sampleAnswer_digest {v : Value} {n : Nat} {text : String} (hn : n ≠ 79)
    (hsize : v.tree.size = n)
    (htext : DIGEST_PREFIX ++ String.ofList (hexEncode (digestOfNat
      (((sampleAnswerDigests.find? fun row => row.1 = n).map Prod.snd).getD 0)).toList) = text) :
    v.digest = text := by
  apply Value.digest_of_size _ hsize
  intro data hdata
  subst hdata
  have hhash : Sha256.hash data = (Sha256.ofLengths sampleAnswerDigests).hash data := if_neg hn
  rw [← htext, digestBytes, hhash]
  rfl

theorem samplePromise_id : samplePromise.id = sampleReplyNow.undertaking :=
  sampleAnswer_digest (n := 380) (by decide) (by decide) (by decide)

theorem sampleAnswerEntry_hash : ∀ i < 4,
    (sampleAnswerEntry i).recomputeHash = (sampleAnswerEntry i).hash
  | 0, _ => sampleAnswer_digest (n := 220) (by decide) (by decide) (by decide)
  | 1, _ => sampleAnswer_digest (n := 289) (by decide) (by decide) (by decide)
  | 2, _ => sampleAnswer_digest (n := 530) (by decide) (by decide) (by decide)
  | 3, _ => sampleAnswer_digest (n := 350) (by decide) (by decide) (by decide)

/-- A call of the run that is let through appends the next entry. -/
theorem sampleAnswer_posts {α : Type} {n : Node} {i : Nat} {check : Except RuleViolation Unit}
    {kind : EntryKind} {payload : Value} {ts : String} {result : α}
    (hlog : n.log = sampleAnswerLog i) (hi : i < 4) (hcheck : (toOk check).isSome)
    (hnext : sampleAnswerEntry i = ⟨UInt64.ofNat (sampleAnswerLog i).length,
      headOf (sampleAnswerLog i), kind.asStr, payload, ts, (sampleAnswerEntry i).hash⟩) :
    (n.post check kind payload ts result).1.log = sampleAnswerLog (i + 1) := by
  obtain ⟨_, hcheck⟩ := Option.isSome_iff_exists.mp hcheck
  rw [toOk_eq_some hcheck]
  have hhash := sampleAnswerEntry_hash i hi
  have hgrown : sampleAnswerLog (i + 1) = n.log ++ [sampleAnswerEntry i] := by
    rw [hlog, sampleAnswerLog, sampleAnswerLog, List.range_succ, List.map_append]
    rfl
  rw [hgrown]
  show n.log ++ [n.ledger.nextEntry kind.asStr payload ts] = _
  congr 2
  rw [← hlog] at hnext
  cases hentry : sampleAnswerEntry i with
  | mk seq prev kind' payload' ts' hash =>
    rw [hentry, Entry.mk.injEq] at hnext
    rw [hentry] at hhash
    obtain ⟨rfl, rfl, rfl, rfl, rfl, -⟩ := hnext
    exact congrArg (Entry.mk _ _ kind.asStr payload' ts') hhash

/-- Each call of the run is let through. -/
theorem sampleAnswerOps_log :
    ((Node.new (sampleLog [])).run sampleAnswerOps).log = sampleAnswerLog 4 := by
  have hmint : ∀ (n : Node) (i : Nat), i < 2 → n.log = sampleAnswerLog i →
      (n.postIssuance sampleMint "2026-01-01T00:00:00Z").1.log = sampleAnswerLog (i + 1) := by
    intro n i hi hlog
    apply sampleAnswer_posts hlog (by omega)
    · rw [hlog]
      interval_cases i <;> decide
    · interval_cases i <;> rfl
  have hpromise : ∀ n : Node, n.log = sampleAnswerLog 2 →
      (n.postUndertaking samplePromise "2026-01-01T00:10:00Z").1.log = sampleAnswerLog 3 := by
    intro n hlog
    apply sampleAnswer_posts hlog (by decide) _ rfl
    rw [hlog]
    decide
  have hpool : ∀ n : Node, n.log = sampleAnswerLog 3 →
      (n.postAvailabilityPool samplePool "2026-01-01T00:10:00Z").1.log = sampleAnswerLog 4 := by
    intro n hlog
    apply sampleAnswer_posts hlog (by decide) _ rfl
    rw [hlog]
    decide
  rw [sampleAnswerOps, Node.run_cons, Node.run_cons, Node.run_cons, Node.run_cons, Node.run_nil,
    Node.step, Node.step, Node.step, Node.step]
  exact hpool _ (hpromise _ (hmint _ 1 (by decide) (hmint _ 0 (by decide) rfl)))

/-! ### The answers -/

/-- The entry that is drawn, at the two positions behind the undertaking. -/
theorem sampleAnswerLog_draws :
    (∀ position, 3 ≤ position → position ≤ 4 →
      Log.sampledIndex (sampleAnswerLog 4) samplePromise 2945377 position = .ok 0) ∧
      Log.sampledIndex (sampleAnswerLog 4) samplePromise 2945378 3 = .ok 1 ∧
      Log.sampledIndex (sampleAnswerLog 4) samplePromise 2945378 4 = .ok 0 := by
  refine ⟨?_, toOk_eq_some (by decide +kernel), toOk_eq_some (by decide +kernel)⟩
  intro position hlow hhigh
  apply toOk_eq_some
  interval_cases position <;> decide +kernel

/-- The path of a leaf goes through the other one. -/
theorem sampleReply_proof {index : Nat} (h : index < 2) :
    (Proof.mk (sampleAnswerEntry index)
      { index, leaves := 2, siblings := [(sampleAnswerEntry (1 - index)).hash] }).check
        samplePromise.root = .ok () := by
  rw [Proof.check_eq_ok_iff]
  refine ⟨sampleAnswerEntry_hash index (by omega), ?_, ?_⟩
  · interval_cases index <;> rfl
  · rw [sampleAnswerEntry_hash index (by omega)]
    interval_cases index <;> decide

/-- An answer with the entry that is drawn is taken. -/
theorem sampleReply_answers {epoch : UInt64} {position index : Nat} {signature : String}
    (hlow : 3 ≤ position) (hhigh : position ≤ 4) (hindex : index < 2)
    (hdraw : Log.sampledIndex (sampleAnswerLog 4) samplePromise epoch position = .ok index)
    (hsigned : (toOk (sampleReply epoch index signature).verifySignature).isSome) :
    Log.Answers (sampleAnswerLog 4) samplePromise epoch position
      (sampleReply epoch index signature) "2026-01-01T00:10:00Z" := by
  obtain ⟨_, hsigned⟩ := Option.isSome_iff_exists.mp hsigned
  have htake : (sampleAnswerLog 4).take position = sampleAnswerLog position := by
    rw [sampleAnswerLog, sampleAnswerLog, ← List.map_take, List.take_range, Nat.min_eq_left hhigh]
  have hlength : (sampleAnswerLog position).length = position := by simp [sampleAnswerLog]
  have hvalid : (sampleReply epoch index signature).validate = .ok () := by
    have hplain : toOk (sampleReply 0 index "").validate = some () := by
      interval_cases index <;> decide
    exact toOk_eq_some hplain
  have hpromises : Log.undertakingsWithin (sampleAnswerLog position) position =
      [samplePromise] := by
    interval_cases position <;> decide
  have hnone : Log.availabilityAnswersWithin (sampleAnswerLog position) position = [] := by
    interval_cases position <;> rfl
  have hdrawn : Log.sampledIndex (sampleAnswerLog position) samplePromise epoch position =
      .ok index := by
    rw [← hdraw, Log.sampledIndex, Log.sampledIndex, Log.anchorAt, Log.anchorAt, htake,
      List.take_of_length_le hlength.le]
  have havailable : Log.checkAvailability (sampleAnswerLog position)
      (sampleReply epoch index signature) position = .ok () := by
    have hid : samplePromise.id = (sampleReply epoch index signature).undertaking :=
      samplePromise_id
    have hsame : samplePromise.identity = (sampleReply epoch index signature).identity := rfl
    have hepoch : (sampleReply epoch index signature).epoch = epoch := rfl
    have hentry : (sampleReply epoch index signature).entry =
        (sampleAnswerEntry index).bodyWithHash := rfl
    have hproof : Proof.check { entry := sampleAnswerEntry index, inclusion :=
        { index, leaves := samplePromise.height.toNat,
          siblings := (sampleReply epoch index signature).path } } samplePromise.root =
            .ok () :=
      sampleReply_proof hindex
    rw [Log.checkAvailability, hpromises, List.find?_cons_of_pos (by simpa using hid)]
    simp only [okOr, bind, Except.bind, hsame, ne_eq, not_true_eq_false, if_false, hepoch,
      hdrawn, Except.mapError, hentry, Entry.parse_bodyWithHash]
    rw [hproof]
  have hordered : ∀ e ∈ (sampleAnswerLog 4).drop position,
      ∀ s ∈ parseRfc3339 "2026-01-01T00:10:00Z", ∀ t ∈ parseRfc3339 e.ts, s ≤ t := by
    interval_cases position <;> decide +kernel
  refine ⟨by simpa [sampleAnswerLog] using hhigh, samplePromise_id.symm, rfl, ?_,
    fun e he s t hs ht => hordered e he s hs t ht⟩
  rw [htake, Log.checkAnswer, hvalid, toOk_eq_some hsigned, hlength, havailable, hnone]
  rfl

/-- Answers that name an epoch to come are asked for different entries. -/
theorem not_sample_frozen :
    ¬∀ (ops : List Op) (undertaking : Undertaking) (epoch : UInt64) (position later : Nat)
      (record record' : Availability) (ts ts' : String),
      Log.Timely ((Node.new (sampleLog [])).run ops).log →
      Log.Answers ((Node.new (sampleLog [])).run ops).log undertaking epoch position record ts →
      Log.Answers ((Node.new (sampleLog [])).run ops).log undertaking epoch later record' ts' →
      Log.sampledIndex ((Node.new (sampleLog [])).run ops).log undertaking epoch position =
        Log.sampledIndex ((Node.new (sampleLog [])).run ops).log undertaking epoch later := by
  intro h
  obtain ⟨-, hahead, hlater⟩ := sampleAnswerLog_draws
  have hsame := h sampleAnswerOps samplePromise 2945378 3 4 sampleReplyAhead sampleReplyLater
    "2026-01-01T00:10:00Z" "2026-01-01T00:10:00Z"
  rw [sampleAnswerOps_log, hahead, hlater] at hsame
  have hsame := hsame (by decide +kernel)
    (sampleReply_answers (by decide) (by decide) (by decide) hahead (by decide +kernel))
    (sampleReply_answers (by decide) (by decide) (by decide) hlater (by decide +kernel))
  cases hsame

/-- In the epoch that has begun the same entry is asked for before the pool and
after it. -/
theorem sample_frozen_sample :
    Log.sampledIndex ((Node.new (sampleLog [])).run sampleAnswerOps).log samplePromise 2945377 3 =
      Log.sampledIndex ((Node.new (sampleLog [])).run sampleAnswerOps).log samplePromise 2945377
        4 := by
  have hbegun : Begun 2945377 "2026-01-01T00:10:00Z" :=
    ⟨2945377, by decide +kernel, UInt64.le_rfl⟩
  have hanswers : ∀ position, 3 ≤ position → position ≤ 4 →
      Log.Answers ((Node.new (sampleLog [])).run sampleAnswerOps).log samplePromise 2945377
        position sampleReplyNow "2026-01-01T00:10:00Z" := by
    intro position hlow hhigh
    rw [sampleAnswerOps_log]
    exact sampleReply_answers hlow hhigh (by decide)
      (sampleAnswerLog_draws.1 position hlow hhigh) (by decide +kernel)
  exact Node.sample_frozen (sampleLog []) sampleAnswerOps (hanswers 3 (by decide) (by decide))
    (hanswers 4 (by decide) (by decide)) hbegun hbegun

end Sample

end Cairn.Ports
