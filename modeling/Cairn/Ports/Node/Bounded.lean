import Cairn.Ports.Node.Opening

/-!
# Queries bounded by a position

The folds of `src/node.rs` that take a number of entries, and what an append
behind that position can do to them. A fold that walks the first entries cannot
see the append. Two others can: a fold that picks its entries by the number
they carry, and a fold that looks an objective up in the table of the whole
log.
-/

namespace Cairn.Ports

open Cairn.Verified
open Cairn.Ports.Canonical

/-- The kinds a bounded fold picks by the number an entry carries. -/
def EntryKind.byNumber : List EntryKind :=
  [batch, beacon, undertaking, availability, availabilityPool, commitment, challenge,
    challengeSettlement, attestation, verificationSlash]

namespace Log

/-! ## Entries picked by number -/

theorem within_append (log rest : List Entry) (positions : Nat) :
    within (log ++ rest) positions = within log positions ++ within rest positions :=
  List.filter_append ..

theorem mem_within {log : List Entry} {positions : Nat} {e : Entry} :
    e ∈ within log positions ↔ e ∈ log ∧ e.seq.toNat < positions := by
  simp [within]

section Append

variable {log rest : List Entry} {positions : Nat}

variable {kind : EntryKind}

theorem ofKind_within_append
    (h : ∀ e ∈ ofKind rest kind, positions ≤ e.seq.toNat) :
    ofKind (within (log ++ rest) positions) kind = ofKind (within log positions) kind := by
  rw [within_append, ofKind_append]
  have hnone : ofKind (within rest positions) kind = [] := by
    apply ofKind_eq_nil
    intro e he hkind
    rw [mem_within] at he
    have hle := h e (mem_ofKind.mpr ⟨he.1, hkind⟩)
    omega
  rw [hnone, List.append_nil]

theorem decoded_within_append {α ε : Type} {decode : Value → Except ε α}
    (h : ∀ e ∈ ofKind rest kind, positions ≤ e.seq.toNat) :
    decoded kind decode (within (log ++ rest) positions) =
      decoded kind decode (within log positions) := by
  unfold decoded
  rw [ofKind_within_append h]

/-! ## What an append must leave alone -/

variable [World]

/-- An append behind a position: nothing in it that is picked by number carries
a low one, and what the bounded folds look up in the table of objectives, they
find as before. -/
structure Late (log rest : List Entry) (positions : Nat) : Prop where
  inside : positions ≤ log.length
  numbered : ∀ kind ∈ EntryKind.byNumber, ∀ e ∈ ofKind rest kind, positions ≤ e.seq.toNat
  settled : ∀ e ∈ ofKind (log.take positions) .settlement, ∀ objectiveId,
    payloadStr e.payload "objective_id" = some objectiveId →
      (objectives (log ++ rest)).get? objectiveId = (objectives log).get? objectiveId
  sealedIn : ∀ p ∈ decoded .commitment Commitment.fromValue (within log positions),
    p.2.envelope.isSome →
      (objectives (log ++ rest)).get? p.2.objectiveId = (objectives log).get? p.2.objectiveId

theorem Late.mono (h : Late log rest positions) {earlier : Nat} (hle : earlier ≤ positions) :
    Late log rest earlier := by
  constructor
  · exact hle.trans h.inside
  · intro kind hkind e he
    exact hle.trans (h.numbered kind hkind e he)
  · intro e he
    rw [mem_ofKind] at he
    exact h.settled e (mem_ofKind.mpr ⟨List.take_subset_take_left log hle he.1, he.2⟩)
  · intro p hp
    rw [mem_decoded, mem_within] at hp
    apply h.sealedIn p
    rw [mem_decoded, mem_within]
    exact ⟨⟨hp.1.1, by omega⟩, hp.2⟩

theorem Late.take (h : Late log rest positions) :
    (log ++ rest).take positions = log.take positions :=
  List.take_append_of_le_length h.inside

theorem Late.ofKind_within (h : Late log rest positions)
    (hkind : kind ∈ EntryKind.byNumber) :
    ofKind (within (log ++ rest) positions) kind = ofKind (within log positions) kind :=
  ofKind_within_append (h.numbered kind hkind)

theorem Late.decoded_within (h : Late log rest positions) {α ε : Type}
    {decode : Value → Except ε α} (hkind : kind ∈ EntryKind.byNumber) :
    decoded kind decode (within (log ++ rest) positions) =
      decoded kind decode (within log positions) :=
  decoded_within_append (h.numbered kind hkind)

end Append

/-! ## Balances -/

section Balances

variable {log rest : List Entry} {positions : Nat}

/-- The genesis entries among the first ones: an append adds some only where
every entry before it is one. -/
theorem min_genesisPrefix_append (h : positions ≤ log.length) :
    min (genesisPrefix (log ++ rest)) positions = min (genesisPrefix log) positions := by
  unfold genesisPrefix
  rw [List.takeWhile_append]
  split
  · rw [List.length_append]
    omega
  · rfl

variable [World]

theorem Late.issuedWithin (h : Late log rest positions) :
    issuedWithin (log ++ rest) positions = issuedWithin log positions := by
  unfold Log.issuedWithin
  rw [min_genesisPrefix_append h.inside, List.take_append_of_le_length]
  have := h.inside
  omega

theorem Late.chargedWithin (h : Late log rest positions) :
    chargedWithin (log ++ rest) positions = chargedWithin log positions := by
  unfold Log.chargedWithin
  rw [h.take]

theorem Late.flowRows (h : Late log rest positions) {kind : EntryKind}
    (hkind : kind ∈ EntryKind.byNumber) (who : String) :
    flowRows kind who (within (log ++ rest) positions) =
      flowRows kind who (within log positions) := by
  unfold Log.flowRows
  rw [h.ofKind_within hkind]

theorem Late.challengeFlowsWithin (h : Late log rest positions) :
    challengeFlowsWithin (log ++ rest) positions = challengeFlowsWithin log positions := by
  unfold Log.challengeFlowsWithin
  rw [h.flowRows (by decide), h.flowRows (by decide)]

theorem Late.slashedWithin (h : Late log rest positions) :
    slashedWithin (log ++ rest) positions = slashedWithin log positions := by
  unfold Log.slashedWithin
  rw [h.flowRows (by decide), h.flowRows (by decide)]

theorem Late.settledEpochWithin (h : Late log rest positions) :
    settledEpochWithin (log ++ rest) positions = settledEpochWithin log positions := by
  unfold Log.settledEpochWithin
  rw [h.ofKind_within (by decide)]

theorem Late.lockedWithin (h : Late log rest positions) :
    lockedWithin (log ++ rest) positions = lockedWithin log positions := by
  unfold Log.lockedWithin lockedRows
  rw [h.decoded_within (by decide)]

theorem Late.challengeBondsWithin (h : Late log rest positions) :
    challengeBondsWithin (log ++ rest) positions = challengeBondsWithin log positions := by
  unfold Log.challengeBondsWithin challengeBondRows decidedIds
  rw [h.decoded_within (by decide), h.ofKind_within (by decide)]

theorem Late.attestationBondsWithin (h : Late log rest positions) :
    attestationBondsWithin (log ++ rest) positions = attestationBondsWithin log positions := by
  unfold Log.attestationBondsWithin attestationBondRows decidedIds
  rw [h.decoded_within (by decide), h.ofKind_within (by decide), h.settledEpochWithin]

theorem Late.balancesWithin (h : Late log rest positions) :
    balancesWithin (log ++ rest) positions = balancesWithin log positions := by
  unfold Log.balancesWithin grossPaidWithin committedWithin
  rw [h.issuedWithin, h.challengeFlowsWithin, h.slashedWithin, h.take, h.lockedWithin,
    h.chargedWithin, h.challengeBondsWithin, h.attestationBondsWithin]

theorem Late.spendableWithin (h : Late log rest positions) (identity : String) :
    spendableWithin (log ++ rest) identity positions = spendableWithin log identity positions := by
  unfold Log.spendableWithin
  rw [h.balancesWithin]

/-! ## Tiers -/

/-- Only a settlement looks an objective up. -/
theorem tierRows_congr {table table' : BTreeMap String Objective} {e : Entry}
    (h : e.kind = EntryKind.settlement.asStr → ∀ objectiveId,
      payloadStr e.payload "objective_id" = some objectiveId →
        table.get? objectiveId = table'.get? objectiveId) :
    tierRows table e = tierRows table' e := by
  unfold tierRows
  by_cases hkind : e.kind = EntryKind.settlement.asStr
  · rw [if_pos hkind, if_pos hkind]
    cases hid : payloadStr e.payload "objective_id" with
    | none => rfl
    | some objectiveId => rw [Option.bind_some, Option.bind_some, h hkind objectiveId hid]
  · rw [if_neg hkind, if_neg hkind]

theorem Late.tieredWithin (h : Late log rest positions) (identity : String) :
    tieredWithin (log ++ rest) positions identity = tieredWithin log positions identity := by
  have hrows : (log.take positions).flatMap (tierRows (objectives (log ++ rest))) =
      (log.take positions).flatMap (tierRows (objectives log)) := by
    apply List.flatMap_congr
    intro e he
    apply tierRows_congr
    intro hkind
    exact h.settled e (mem_ofKind.mpr ⟨he, hkind⟩)
  unfold Log.tieredWithin tierChangesWithin
  rw [h.issuedWithin, h.take, hrows, h.challengeBondsWithin, h.attestationBondsWithin,
    h.slashedWithin]

end Balances

/-! ## Committees -/

section Committees

/-- The boundary of an epoch is inside the window. -/
theorem epochBoundary_le (log : List Entry) (epoch : UInt64) (positions : Nat) :
    epochBoundary log epoch positions ≤ positions := by
  unfold epochBoundary
  apply List.foldlRecOn (motive := fun boundary => boundary ≤ positions) _ _ (Nat.zero_le _)
  intro boundary hboundary p hp
  have hlt := List.snd_lt_of_mem_zipIdx hp
  rw [List.length_take] at hlt
  split
  · split
    · omega
    · exact hboundary
  · exact hboundary

theorem availabilityBoundary_le (log : List Entry) (epoch : UInt64) (positions : Nat) :
    availabilityBoundary log epoch positions ≤ positions := by
  unfold availabilityBoundary
  refine List.findIdx_le_length.trans ?_
  rw [List.length_take]
  omega

variable [World] {log rest : List Entry} {positions : Nat}

theorem Late.anchorAt (h : Late log rest positions) (epoch secondsPerEpoch : UInt64) :
    anchorAt (log ++ rest) epoch positions secondsPerEpoch =
      anchorAt log epoch positions secondsPerEpoch := by
  unfold Log.anchorAt
  rw [h.take]

theorem Late.peersWithin (h : Late log rest positions) :
    peersWithin (log ++ rest) positions = peersWithin log positions := by
  unfold Log.peersWithin
  rw [h.take]

theorem Late.epochBoundary (h : Late log rest positions) (epoch : UInt64) :
    epochBoundary (log ++ rest) epoch positions = epochBoundary log epoch positions := by
  unfold Log.epochBoundary
  rw [h.take]

theorem Late.sealedValueIn (h : Late log rest positions) (epoch : UInt64) :
    sealedValueIn (log ++ rest) epoch positions = sealedValueIn log epoch positions := by
  unfold Log.sealedValueIn commitments
  rw [h.decoded_within (by decide)]
  congr 1
  apply List.filterMap_congr
  intro p hp
  by_cases hsealed : p.2.envelope.isSome
  · rw [h.sealedIn p hp hsealed]
  · rw [if_neg fun hboth => hsealed hboth.1, if_neg fun hboth => hsealed hboth.1]

theorem Late.committeeOfSize (h : Late log rest positions) (epoch : UInt64) (size : UInt8) :
    committeeOfSize (log ++ rest) epoch size positions =
      committeeOfSize log epoch size positions := by
  unfold Log.committeeOfSize rankedPeers
  rw [h.anchorAt, h.peersWithin]

theorem Late.custodyGuard (h : Late log rest positions) (epoch : UInt64) (size : UInt8) :
    custodyGuard (log ++ rest) epoch size positions = custodyGuard log epoch size positions := by
  unfold Log.custodyGuard
  rw [h.committeeOfSize, h.epochBoundary]
  have hstake := (h.mono (epochBoundary_le log epoch positions)).spendableWithin
  simp only [hstake]

theorem Late.growCommittee (h : Late log rest positions) (epoch : UInt64) (carried fuel : Nat)
    (size : UInt8) : growCommittee (log ++ rest) epoch positions carried fuel size =
      growCommittee log epoch positions carried fuel size := by
  induction fuel generalizing size with
  | zero => rfl
  | succ fuel ih =>
    unfold Log.growCommittee
    rw [h.custodyGuard, ih]

theorem Late.committeeSizeAt (h : Late log rest positions) (epoch : UInt64) :
    committeeSizeAt (log ++ rest) epoch positions = committeeSizeAt log epoch positions := by
  have hbefore := h.mono (epochBoundary_le log epoch positions)
  unfold Log.committeeSizeAt
  dsimp only
  rw [h.epochBoundary, hbefore.peersWithin, hbefore.sealedValueIn]
  simp only [h.growCommittee]

theorem Late.committeeFor (h : Late log rest positions) (epoch : UInt64) :
    committeeFor (log ++ rest) epoch positions = committeeFor log epoch positions := by
  unfold Log.committeeFor
  rw [h.committeeSizeAt, h.committeeOfSize]

/-! ## Availability -/

theorem Late.rootAt (h : Late log rest positions) :
    rootAt (log ++ rest) positions = rootAt log positions := by
  have hinside := h.inside
  unfold Log.rootAt
  rw [h.take, List.length_append, if_neg (by omega), if_neg (by omega)]

theorem Late.undertakingsWithin (h : Late log rest positions) :
    undertakingsWithin (log ++ rest) positions = undertakingsWithin log positions := by
  unfold Log.undertakingsWithin
  rw [h.decoded_within (by decide)]
  congr 1
  apply List.filter_congr
  intro p hp
  rw [mem_decoded, mem_within] at hp
  have hearlier : Late log rest p.1.seq.toNat := h.mono (by omega)
  by_cases hheight : p.2.height = p.1.seq
  · rw [hheight, hearlier.spendableWithin, hearlier.rootAt]
  · simp [hheight]

theorem Late.sampledIndex (h : Late log rest positions) (undertaking : Undertaking)
    (epoch : UInt64) : sampledIndex (log ++ rest) undertaking epoch positions =
      sampledIndex log undertaking epoch positions := by
  unfold Log.sampledIndex
  rw [h.anchorAt]

theorem Late.checkAvailability (h : Late log rest positions) (record : Availability) :
    checkAvailability (log ++ rest) record positions = checkAvailability log record positions := by
  unfold Log.checkAvailability
  rw [h.undertakingsWithin]
  simp only [h.sampledIndex]

theorem Late.availabilityAnswersWithin (h : Late log rest positions) :
    availabilityAnswersWithin (log ++ rest) positions = availabilityAnswersWithin log positions := by
  unfold Log.availabilityAnswersWithin
  rw [h.decoded_within (by decide)]
  congr 2
  apply List.filter_congr
  intro p hp
  rw [mem_decoded, mem_within] at hp
  have hearlier : Late log rest p.1.seq.toNat := h.mono (by omega)
  rw [hearlier.checkAvailability]

theorem Late.availabilityOfferedWithin (h : Late log rest positions) (epoch : UInt64) :
    availabilityOfferedWithin (log ++ rest) epoch positions =
      availabilityOfferedWithin log epoch positions := by
  unfold Log.availabilityOfferedWithin availabilityPoolsWithin
  rw [h.decoded_within (by decide)]

theorem Late.epochLinksBefore (h : Late log rest positions) (stopAt : Option UInt64) :
    epochLinksBefore (log ++ rest) positions stopAt = epochLinksBefore log positions stopAt := by
  unfold Log.epochLinksBefore
  rw [h.take]

theorem Late.anchorOfEpochWithin (h : Late log rest positions) (epoch : UInt64)
    (stopAt : Option UInt64) : anchorOfEpochWithin (log ++ rest) epoch positions stopAt =
      anchorOfEpochWithin log epoch positions stopAt := by
  unfold Log.anchorOfEpochWithin epochBeaconWithin epochChainHeadBefore
  rw [h.ofKind_within (by decide), h.epochLinksBefore]

theorem Late.availabilityBoundary (h : Late log rest positions) (epoch : UInt64) :
    availabilityBoundary (log ++ rest) epoch positions = availabilityBoundary log epoch positions := by
  unfold Log.availabilityBoundary
  rw [h.take]

theorem Late.availabilitySettlementAt (h : Late log rest positions) (epoch : UInt64) :
    availabilitySettlementAt (log ++ rest) epoch positions =
      availabilitySettlementAt log epoch positions := by
  have hbefore := h.mono (availabilityBoundary_le log epoch positions)
  unfold Log.availabilitySettlementAt
  dsimp only
  rw [h.availabilityBoundary, hbefore.undertakingsWithin, h.availabilityAnswersWithin,
    hbefore.availabilityOfferedWithin, h.anchorOfEpochWithin]

/-! ## All of them -/

/-- Two logs that every fold bounded by a position reads alike. -/
structure Same (log log' : List Entry) (positions : Nat) : Prop where
  balances : balancesWithin log' positions = balancesWithin log positions
  tiered : ∀ identity, tieredWithin log' positions identity = tieredWithin log positions identity
  undertakings : undertakingsWithin log' positions = undertakingsWithin log positions
  accepted : ∀ epoch, acceptedInEpochWithin log' epoch positions =
    acceptedInEpochWithin log epoch positions
  links : ∀ stopAt, epochLinksBefore log' positions stopAt = epochLinksBefore log positions stopAt
  boundary : ∀ epoch, epochBoundary log' epoch positions = epochBoundary log epoch positions
  committee : ∀ epoch, committeeFor log' epoch positions = committeeFor log epoch positions
  availability : ∀ epoch, availabilitySettlementAt log' epoch positions =
    availabilitySettlementAt log epoch positions

end Committees

end Log

/-! ## A settlement in front of its objective -/

/-- The objective below and the entries of its log, by the length of the text
that is hashed. -/
def sampleLateDigests : List (Nat × Nat) :=
  [(151, 0x42511cdc45e78b2800cdb426ba8f22f8b3abddea0df9d0510619bbddce0152be),
    (201, 0x872a5d33ace8ead5ba29ad301b4f8b724d6e8aec055297bb2f69856ca05527e7),
    (299, 0x765a6d9110eded2283586ca77fe9ea299e1ed9bbc4561e0214c1ca239aecd4dd)]

@[reducible] def sampleLateWorld : World :=
  { sampleWorld with toSha256 := .ofLengths sampleLateDigests }

/-- An objective whose claims are replayed. -/
def sampleReplayJob : Objective :=
  { sampleObjective with
    verifier := .object [("kind", .string "replay")]
    piecework := none }

/-- A settlement of it. -/
def sampleEarlySettlement : Entry where
  seq := 0
  prev := none
  kind := "settlement"
  payload := .object [
    ("objective_id",
      .string "sha256:42511cdc45e78b2800cdb426ba8f22f8b3abddea0df9d0510619bbddce0152be"),
    ("submitter", .string "alice"), ("reward", u64Value 5)]
  ts := "2026-01-01T00:00:00Z"
  hash := "sha256:872a5d33ace8ead5ba29ad301b4f8b724d6e8aec055297bb2f69856ca05527e7"

def sampleLateObjective : Entry where
  seq := 1
  prev := some "sha256:872a5d33ace8ead5ba29ad301b4f8b724d6e8aec055297bb2f69856ca05527e7"
  kind := "objective"
  payload := sampleReplayJob.toValue
  ts := "2026-01-01T00:10:00Z"
  hash := "sha256:765a6d9110eded2283586ca77fe9ea299e1ed9bbc4561e0214c1ca239aecd4dd"

end Cairn.Ports
