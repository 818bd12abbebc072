import Cairn.Ports.Node.Log

/-!
# Balances, escrow and bonds

The folds of `src/node.rs` that say who holds what. Nothing is stored: every
amount is a sum over the log, so each fold is a tally of rows. Amounts are
`u128` sums of 64-bit numbers in the source; they are natural numbers here.
-/

namespace Cairn.Ports

open Cairn.Verified
open Cairn.Ports.Canonical

/-- What an attestation stakes. -/
def VERIFICATION_BOND : UInt64 := 50000

def ATTESTATION_WINDOW_EPOCHS : UInt64 := 6

def CHALLENGE_WINDOW_EPOCHS : UInt64 := 6

/-- `attestation_window_open`. -/
def attestationWindowOpen [Clock] (record : Attestation) (now : UInt64) : Bool :=
  match epochOfTs record.createdAt with
  | some opened => now.toNat ≤ satAdd opened ATTESTATION_WINDOW_EPOCHS
  | none => true

/-- `tier_of`: an objective pays in the tier of its verifier's kind. -/
def tierOf (objective : Objective) : Tier :=
  match (payloadStr objective.verifier "kind").bind Kind.parse with
  | some kind => .earned kind
  | none => .earned .certificate

namespace Log

/-- `max(0)` of an integer field, zero when it is absent. -/
def unitsOf (payload : Value) : Nat :=
  match (payload.get "units").bind Value.asI128 with
  | some i => i.val.toNat
  | none => 0

/-! ## Supply -/

def genesisPrefix (log : List Entry) : Nat :=
  (log.takeWhile fun e => e.kind = EntryKind.issuance.asStr).length

def declaresSupply (log : List Entry) : Bool := 0 < genesisPrefix log

def issuedRows (log : List Entry) : List (String × Nat) :=
  log.filterMap fun e =>
    (toOk (Issuance.fromValue e.payload)).map fun r => (r.holder, r.units.toNat)

def issuedWithin (log : List Entry) (positions : Nat) : BTreeMap String Nat :=
  BTreeMap.tally (issuedRows (log.take (min (genesisPrefix log) positions)))

/-! ## Payments -/

/-- The paid rows of an availability settlement. -/
def paidRows (payload : Value) : List Value := ((payload.get "paid").bind Value.asArray).getD []

/-- A name and an amount, if both are there. -/
def namedUnits (name : Option String) (units : Option UInt64) : List (String × Nat) :=
  match name, units with
  | some name, some units => [(name, units.toNat)]
  | _, _ => []

/-- What an entry pays and to whom. -/
def paymentRows (e : Entry) : List (String × Nat) :=
  if e.kind = EntryKind.settlement.asStr then
    namedUnits (payloadStr e.payload "submitter") (payloadU64 e.payload "reward")
  else if e.kind = EntryKind.availabilitySettlement.asStr then
    (paidRows e.payload).flatMap fun row =>
      namedUnits (payloadStr row "identity") (payloadU64 row "reward")
  else []

/-- What an entry charges and to whom. -/
def chargeRows (e : Entry) : List (String × Nat) :=
  if e.kind = EntryKind.objective.asStr then
    match Objective.fromValue e.payload with
    | .ok objective => [(objective.funder, objective.reward.toNat)]
    | .error _ => []
  else if e.kind = EntryKind.availabilityPool.asStr then
    match AvailabilityPool.fromValue e.payload with
    | .ok pool => [(pool.funder, pool.ceiling)]
    | .error _ => []
  else []

def chargedWithin (log : List Entry) (positions : Nat) : BTreeMap String Nat :=
  BTreeMap.tally ((log.take positions).flatMap chargeRows)

/-! ## Disputes -/

def flowRows (kind : EntryKind) (who : String) (log : List Entry) : List (String × Nat) :=
  (ofKind log kind).filterMap fun e =>
    (payloadStr e.payload who).map fun name => (name, unitsOf e.payload)

/-- `challenge_flows_within`: what decided disputes credit and debit. -/
def challengeFlowsWithin (log : List Entry) (positions : Nat) :
    BTreeMap String Nat × BTreeMap String Nat :=
  (BTreeMap.tally (flowRows .challengeSettlement "winner" (within log positions)),
    BTreeMap.tally (flowRows .challengeSettlement "loser" (within log positions)))

/-- `slashed_within`: what verification slashes credit and debit. -/
def slashedWithin (log : List Entry) (positions : Nat) :
    BTreeMap String Nat × BTreeMap String Nat :=
  (BTreeMap.tally (flowRows .verificationSlash "catcher" (within log positions)),
    BTreeMap.tally (flowRows .verificationSlash "attestor" (within log positions)))

/-- The ids a kind of decision names. -/
def decidedIds (kind : EntryKind) (field : String) (log : List Entry) : List String :=
  (ofKind log kind).filterMap fun e => payloadStr e.payload field

/-! ## Bonds -/

section Bonds

variable [Sha256] [Signatures]

/-- A bond row per undertaking that decodes and is signed. -/
def lockedRows (log : List Entry) : List (String × Nat) :=
  ((decoded .undertaking Undertaking.fromValue log).filter fun p =>
    (toOk p.2.verifySignature).isSome).map fun p => (p.2.identity, p.2.bond.toNat)

def lockedWithin (log : List Entry) (positions : Nat) : BTreeMap String Nat :=
  BTreeMap.tally (lockedRows (within log positions))

/-- A bond row per live challenge. -/
def challengeBondRows (log : List Entry) : List (String × Nat) :=
  ((decoded .challenge Challenge.fromValue log).filter fun p =>
    (toOk p.2.verifySignature).isSome &&
      p.2.id ∉ decidedIds .challengeSettlement "challenge_id" log).map fun p =>
        (p.2.challenger, p.2.bond.toNat)

def challengeBondsWithin (log : List Entry) (positions : Nat) : BTreeMap String Nat :=
  BTreeMap.tally (challengeBondRows (within log positions))

variable [Clock]

/-- A bond row per live attestation: unslashed, and its window open. -/
def attestationBondRows (now : UInt64) (log : List Entry) : List (String × Nat) :=
  ((decoded .attestation Attestation.fromValue log).filter fun p =>
    (toOk p.2.verifySignature).isSome &&
      p.2.id ∉ decidedIds .verificationSlash "attestation_id" log &&
        attestationWindowOpen p.2 now).map fun p => (p.2.attestor, VERIFICATION_BOND.toNat)

def attestationBondsWithin (log : List Entry) (positions : Nat) : BTreeMap String Nat :=
  BTreeMap.tally
    (attestationBondRows (settledEpochWithin log positions) (within log positions))

/-! ## Balances -/

def grossPaidWithin (log : List Entry) (positions : Nat) : BTreeMap String Nat :=
  (((issuedWithin log positions).creditAll (challengeFlowsWithin log positions).1.entries).creditAll
    (slashedWithin log positions).1.entries).creditAll ((log.take positions).flatMap paymentRows)

def committedWithin (log : List Entry) (positions : Nat) : BTreeMap String Nat :=
  (((((lockedWithin log positions).creditAll (chargedWithin log positions).entries).creditAll
    (challengeBondsWithin log positions).entries).creditAll
    (challengeFlowsWithin log positions).2.entries).creditAll
    (attestationBondsWithin log positions).entries).creditAll
    (slashedWithin log positions).2.entries

def balancesWithin (log : List Entry) (positions : Nat) : BTreeMap String Nat :=
  (grossPaidWithin log positions).debitAll (committedWithin log positions).entries

def spendableWithin (log : List Entry) (identity : String) (positions : Nat) : Nat :=
  (balancesWithin log positions).amount identity

/-- A funder covers an amount, on a log that declares a supply. -/
def afford (log : List Entry) (funder : String) (amount : Nat) : Except RuleViolation Unit :=
  if !declaresSupply log then .ok ()
  else
    let spendable := spendableWithin log funder log.length
    if amount > spendable then .error (.unfundedReward funder amount spendable) else .ok ()

end Bonds

/-! ## Escrow -/

/-- What the settlements of an objective have drawn. -/
def drawnRows (log : List Entry) : List (String × Nat) :=
  (ofKind log .settlement).flatMap fun e =>
    namedUnits (payloadStr e.payload "objective_id") (payloadU64 e.payload "reward")

/-- What the availability settlements have drawn. -/
def availabilityDrawn (log : List Entry) : Nat :=
  ((ofKind log .availabilitySettlement).flatMap fun e =>
    (paidRows e.payload).filterMap fun row =>
      (payloadU64 row "reward").map UInt64.toNat).sum

/-- The loop of `escrowed_within`: what is left of every objective and pool.
`available` is what availability settlements still have to be charged to the
pools that follow. -/
def escrowFrom [Sha256] (drawn : BTreeMap String Nat) : Nat → List Entry → List (String × Nat)
  | _, [] => []
  | available, e :: rest =>
    if e.kind = EntryKind.objective.asStr then
      match Objective.fromValue e.payload with
      | .ok objective =>
        (objective.funder, objective.reward.toNat - drawn.amount objective.id) ::
          escrowFrom drawn available rest
      | .error _ => escrowFrom drawn available rest
    else if e.kind = EntryKind.availabilityPool.asStr then
      match AvailabilityPool.fromValue e.payload with
      | .ok pool =>
        (pool.funder, pool.ceiling - min available pool.ceiling) ::
          escrowFrom drawn (available - min available pool.ceiling) rest
      | .error _ => escrowFrom drawn available rest
    else escrowFrom drawn available rest

def escrowedWithin [Sha256] (log : List Entry) (positions : Nat) : BTreeMap String Nat :=
  let window := log.take positions
  BTreeMap.tally
    (escrowFrom (BTreeMap.tally (drawnRows window)) (availabilityDrawn window) window)

/-! ## Tiers -/

section Tiers

variable [Sha256] [Signatures] [Clock]

/-- What an entry does to an identity's tier ledger. -/
inductive TierChange where
  | credit (tier : Tier) (units : Nat)
  | commit (tier : Tier) (units : Nat)

/-- The tier changes of one entry, with the identities they concern. -/
def tierRows (objectives : BTreeMap String Objective) (e : Entry) : List (String × TierChange) :=
  if e.kind = EntryKind.settlement.asStr then
    let tier := (((payloadStr e.payload "objective_id").bind objectives.get?).map tierOf).getD
      (.earned .certificate)
    (paymentRows e).map fun row => (row.1, .credit tier row.2)
  else if e.kind = EntryKind.availabilitySettlement.asStr then
    (paymentRows e).map fun row => (row.1, .credit .universal row.2)
  else if e.kind = EntryKind.challengeSettlement.asStr then
    (payloadStr e.payload "winner").toList.map (fun name =>
      (name, .credit .universal (unitsOf e.payload))) ++
    (payloadStr e.payload "loser").toList.map (fun name =>
      (name, .commit .universal (unitsOf e.payload)))
  else if e.kind = EntryKind.objective.asStr then
    match Objective.fromValue e.payload with
    | .ok objective =>
      [(objective.funder, .commit (tierOf objective) objective.reward.toNat)]
    | .error _ => []
  else if e.kind = EntryKind.availabilityPool.asStr then
    (chargeRows e).map fun row => (row.1, .commit .universal row.2)
  else if e.kind = EntryKind.undertaking.asStr then
    (lockedRows [e]).map fun row => (row.1, .commit .universal row.2)
  else []

def applyTierChange (l : TierLedger) : TierChange → TierLedger
  | .credit tier units => l.credit tier units
  | .commit tier units => l.commit tier units

/-- Everything that moves an identity's tier ledger, in the order of the
source. -/
def tierChangesWithin (log : List Entry) (positions : Nat) : List (String × TierChange) :=
  (issuedWithin log positions).entries.map (fun row => (row.1, .credit .universal row.2)) ++
  (log.take positions).flatMap (tierRows (objectives log)) ++
  (challengeBondsWithin log positions).entries.map (fun row =>
    (row.1, .commit .universal row.2)) ++
  (attestationBondsWithin log positions).entries.map (fun row =>
    (row.1, .commit .universal row.2)) ++
  (slashedWithin log positions).1.entries.map (fun row => (row.1, .credit .universal row.2)) ++
  (slashedWithin log positions).2.entries.map (fun row => (row.1, .commit .universal row.2))

/-- `tiered_within(positions)` at one identity. -/
def tieredWithin (log : List Entry) (positions : Nat) (identity : String) : TierLedger :=
  ((tierChangesWithin log positions).filter fun p => p.1 = identity).foldl
    (fun l p => applyTierChange l p.2) .empty

def spendableIn (log : List Entry) (identity : String) (tier : Tier) (positions : Nat) : Nat :=
  (tieredWithin log positions identity).spendableIn tier

def affordIn (log : List Entry) (funder : String) (amount : Nat) (tier : Tier) :
    Except RuleViolation Unit :=
  if !declaresSupply log then .ok ()
  else
    let spendable := spendableIn log funder tier log.length
    if amount > spendable then .error (.unfundedInTier funder tier amount spendable) else .ok ()

end Tiers

/-! ## Availability pools -/

def availabilityPoolsWithin (log : List Entry) (positions : Nat) : List AvailabilityPool :=
  (decoded .availabilityPool AvailabilityPool.fromValue (within log positions)).map Prod.snd

/-- What the pools offer in an epoch. -/
def availabilityOfferedWithin (log : List Entry) (epoch : UInt64) (positions : Nat) : Nat :=
  (((availabilityPoolsWithin log positions).filter fun pool => pool.covers epoch).map fun pool =>
    pool.perEpoch.toNat).sum

end Log

end Cairn.Ports
