import Cairn.Ports.Node.Opening

/-!
# Who can lower a balance

A balance is what was paid to an identity less what is charged to it, and
both are sums over the log. An entry therefore takes from an identity at most
the rows it adds under that name, and of the records a node admits only
objectives, pools, undertakings, challenges and attestations add any that no
dispute or slash decided.
-/

namespace Cairn.Ports

open Cairn.Verified
open Cairn.Verified.AppendOnly
open Cairn.Verified.BTreeMap
open Cairn.Ports.Canonical

namespace Log

/-- No entry is numbered past the log, so a query over every position reads
all of it. -/
def Numbered (log : List Entry) : Prop := ∀ e ∈ log, e.seq.toNat < log.length

theorem Numbered.within {log : List Entry} (h : Numbered log) : within log log.length = log :=
  within_of_le h

theorem Numbered.concat {log : List Entry} (h : Numbered log) {e : Entry}
    (hseq : e.seq.toNat ≤ log.length) : Numbered (log ++ [e]) := by
  intro x hx
  rw [List.length_append, List.length_singleton]
  obtain hx | hx := List.mem_append.mp hx
  · have hold := h x hx
    omega
  · rw [List.mem_singleton] at hx
    rw [hx]
    omega

/-! ## Both sides of a balance -/

/-- What an identity was paid, over a whole log. -/
def paidTo (log : List Entry) (identity : String) : Nat :=
  rowsAt (issuedRows (log.take (genesisPrefix log))) identity +
    rowsAt (flowRows .challengeSettlement "winner" log) identity +
    rowsAt (flowRows .verificationSlash "catcher" log) identity +
    rowsAt (log.flatMap paymentRows) identity

theorem genesisPrefix_le (log : List Entry) : genesisPrefix log ≤ log.length :=
  (List.takeWhile_sublist _).length_le

theorem genesisPrefix_concat_le (log : List Entry) (e : Entry) :
    genesisPrefix log ≤ genesisPrefix (log ++ [e]) := by
  unfold genesisPrefix
  rw [List.takeWhile_append]
  split_ifs with h
  · rw [List.length_append]
    omega
  · exact le_rfl

/-- The genesis of a log is a part of every extension's. -/
theorem issuedRows_concat (log : List Entry) (e : Entry) :
    (issuedRows (log.take (genesisPrefix log))).Sublist
      (issuedRows ((log ++ [e]).take (genesisPrefix (log ++ [e])))) := by
  have htake : log.take (genesisPrefix log) = (log ++ [e]).take (genesisPrefix log) := by
    rw [List.take_append_of_le_length (genesisPrefix_le log)]
  rw [htake]
  exact (List.take_sublist_take_left (genesisPrefix_concat_le log e)).filterMap _

@[simp] theorem flowRows_append (kind : EntryKind) (who : String) (xs ys : List Entry) :
    flowRows kind who (xs ++ ys) = flowRows kind who xs ++ flowRows kind who ys := by
  simp [flowRows]

@[simp] theorem decidedIds_append (kind : EntryKind) (field : String) (xs ys : List Entry) :
    decidedIds kind field (xs ++ ys) = decidedIds kind field xs ++ decidedIds kind field ys := by
  simp [decidedIds]

/-- Nothing that was paid is taken back. -/
theorem paidTo_concat_le (log : List Entry) (e : Entry) (identity : String) :
    paidTo log identity ≤ paidTo (log ++ [e]) identity := by
  have hissued := rowsAt_le_of_sublist (issuedRows_concat log e) identity
  unfold paidTo
  simp only [flowRows_append, List.flatMap_append, rowsAt_append]
  omega

/-- The last epoch a log has settled. -/
def settledEpoch (log : List Entry) : UInt64 := settledEpochWithin log log.length

theorem le_foldl_max (epochs : List UInt64) (a : UInt64) :
    a ≤ epochs.foldl (fun a b => if a < b then b else a) a := by
  induction epochs generalizing a with
  | nil => exact UInt64.le_refl a
  | cons b epochs ih =>
    rw [List.foldl_cons]
    have hrest := ih (if a < b then b else a)
    by_cases hlt : a < b
    · rw [if_pos hlt] at hrest ⊢
      exact UInt64.le_trans (UInt64.le_of_lt hlt) hrest
    · rw [if_neg hlt] at hrest ⊢
      exact hrest

/-- Settled epochs only advance. -/
theorem settledEpoch_concat_le {log : List Entry} (h : Numbered log) {e : Entry}
    (hseq : e.seq.toNat ≤ log.length) : settledEpoch log ≤ settledEpoch (log ++ [e]) := by
  unfold settledEpoch settledEpochWithin
  rw [h.within, (h.concat hseq).within]
  simp only [ofKind_append, List.filterMap_append, List.foldl_append]
  exact le_foldl_max _ _

section Charges

variable [Sha256] [Signatures] [Clock]

/-- What is charged to an identity, when every epoch up to `now` is settled. -/
def chargedTo (now : UInt64) (log : List Entry) (identity : String) : Nat :=
  rowsAt (lockedRows log) identity + rowsAt (log.flatMap chargeRows) identity +
    rowsAt (challengeBondRows log) identity +
    rowsAt (flowRows .challengeSettlement "loser" log) identity +
    rowsAt (attestationBondRows now log) identity +
    rowsAt (flowRows .verificationSlash "attestor" log) identity

variable {log : List Entry} {now : UInt64} {e : Entry} {identity : String}

theorem spendable_eq (h : Numbered log) (identity : String) :
    spendableWithin log identity log.length =
      paidTo log identity - chargedTo (settledEpoch log) log identity := by
  unfold spendableWithin balancesWithin grossPaidWithin committedWithin paidTo chargedTo
    settledEpoch issuedWithin challengeFlowsWithin slashedWithin lockedWithin chargedWithin
    challengeBondsWithin attestationBondsWithin
  rw [amount_debitAll]
  simp only [rowsAt_entries, amount_creditAll, amount_tally, h.within, List.take_length,
    Nat.min_eq_left (genesisPrefix_le log)]

omit [Sha256] [Clock] in
@[simp] theorem lockedRows_append (xs ys : List Entry) :
    lockedRows (xs ++ ys) = lockedRows xs ++ lockedRows ys := by
  simp [lockedRows]

omit [Clock] in
/-- A bond that is live on an extended log was live, or is new. -/
theorem challengeBondRows_append (xs ys : List Entry) :
    (challengeBondRows (xs ++ ys)).Sublist (challengeBondRows xs ++ challengeBondRows ys) := by
  unfold challengeBondRows
  rw [decoded_append, List.filter_append, List.map_append, decidedIds_append]
  apply List.Sublist.append
  all_goals
    apply List.Sublist.map
    apply List.monotone_filter_right
    intro p hp
    simp only [List.mem_append, not_or, Bool.and_eq_true, decide_eq_true_eq] at hp ⊢
    grind

omit [Sha256] [Signatures] in
/-- A window that is open later is open earlier. -/
theorem attestationWindowOpen_of_le {record : Attestation} {later : UInt64} (h : now ≤ later)
    (hopen : attestationWindowOpen record later = true) :
    attestationWindowOpen record now = true := by
  unfold attestationWindowOpen at hopen ⊢
  cases hepoch : epochOfTs record.createdAt with
  | none => rfl
  | some opened =>
    rw [hepoch] at hopen
    simp only [decide_eq_true_eq] at hopen ⊢
    have hle : now.toNat ≤ later.toNat := h
    omega

/-- The same of attestations, whose windows close as epochs settle. -/
theorem attestationBondRows_append {later : UInt64} (h : now ≤ later) (xs ys : List Entry) :
    (attestationBondRows later (xs ++ ys)).Sublist
      (attestationBondRows now xs ++ attestationBondRows later ys) := by
  unfold attestationBondRows
  rw [decoded_append, List.filter_append, List.map_append, decidedIds_append]
  apply List.Sublist.append
  all_goals
    apply List.Sublist.map
    apply List.monotone_filter_right
    intro p hp
    simp only [List.mem_append, not_or, Bool.and_eq_true, decide_eq_true_eq] at hp ⊢
    have hwindow := hp.2
    first
    | exact ⟨⟨hp.1.1, hp.1.2.1⟩, attestationWindowOpen_of_le h hwindow⟩
    | exact ⟨⟨hp.1.1, hp.1.2.2⟩, hwindow⟩

/-- One entry takes from an identity at most what it charges to it. -/
theorem spendable_concat_le (h : Numbered log) (hseq : e.seq.toNat ≤ log.length) (identity : String) :
    spendableWithin log identity log.length ≤
      spendableWithin (log ++ [e]) identity (log ++ [e]).length +
        chargedTo (settledEpoch (log ++ [e])) [e] identity := by
  have hpaid := paidTo_concat_le log e identity
  have hbonds := rowsAt_le_of_sublist (challengeBondRows_append log [e]) identity
  have hattested := rowsAt_le_of_sublist
    (attestationBondRows_append (settledEpoch_concat_le h hseq) log [e]) identity
  rw [spendable_eq h, spendable_eq (h.concat hseq)]
  generalize settledEpoch (log ++ [e]) = later at hattested ⊢
  generalize settledEpoch log = now at hattested ⊢
  unfold chargedTo
  simp only [lockedRows_append, List.flatMap_append, flowRows_append, rowsAt_append] at hbonds hattested ⊢
  omega

/-- A pool that decodes takes its ceiling from its funder. -/
theorem spendable_concat_pool (h : Numbered log) (hseq : e.seq.toNat ≤ log.length)
    (hkind : e.kind = EntryKind.availabilityPool.asStr) {pool : AvailabilityPool}
    (hdecode : AvailabilityPool.fromValue e.payload = .ok pool) :
    spendableWithin (log ++ [e]) pool.funder (log ++ [e]).length =
      spendableWithin log pool.funder log.length - pool.ceiling := by
  have hnone : ∀ kind, kind ≠ .availabilityPool → ofKind [e] kind = [] := by
    intro kind hne
    apply ofKind_eq_nil
    simpa [hkind] using Ne.symm hne
  have hepoch : settledEpoch (log ++ [e]) = settledEpoch log := by
    unfold settledEpoch settledEpochWithin
    rw [h.within, (h.concat hseq).within, ofKind_append, hnone _ (by decide), List.append_nil]
  have hgenesis : issuedRows ((log ++ [e]).take (genesisPrefix (log ++ [e]))) =
      issuedRows (log.take (genesisPrefix log)) := by
    have hgenesis : genesisPrefix (log ++ [e]) = genesisPrefix log := by
      unfold genesisPrefix
      rw [List.takeWhile_append, List.takeWhile_cons_of_neg (by simp [hkind]), List.append_nil]
      split_ifs with hall
      · exact hall.symm
      · rfl
    rw [hgenesis, List.take_append_of_le_length (genesisPrefix_le log)]
  have hpaid : paidTo (log ++ [e]) pool.funder = paidTo log pool.funder := by
    have hpayment : paymentRows e = [] := by simp [paymentRows, hkind]
    unfold paidTo
    rw [hgenesis]
    simp [flowRows, hnone, hpayment]
  have hcharged : chargedTo (settledEpoch log) (log ++ [e]) pool.funder =
      chargedTo (settledEpoch log) log pool.funder + pool.ceiling := by
    have hcharge : chargeRows e = [(pool.funder, pool.ceiling)] := by
      simp [chargeRows, hkind, hdecode]
    unfold chargedTo
    simp [lockedRows, challengeBondRows, attestationBondRows, flowRows, decidedIds, decoded, hnone,
      hcharge, rowsAt_cons]
    omega
  rw [spendable_eq h, spendable_eq (h.concat hseq), hepoch, hpaid, hcharged]
  omega

/-! ## Who an entry charges -/

omit [Sha256] [Signatures] [Clock]

/-- A decided dispute or a slash against an identity. -/
def Against (identity : String) (e : Entry) : Prop :=
  (e.kind = EntryKind.challengeSettlement.asStr ∧ payloadStr e.payload "loser" = some identity) ∨
  (e.kind = EntryKind.verificationSlash.asStr ∧ payloadStr e.payload "attestor" = some identity)

/-- An entry charges something to an identity. -/
inductive Charges (identity : String) (e : Entry) : Prop where
  | objective {o : Objective} (kind : e.kind = EntryKind.objective.asStr)
      (decodes : Objective.fromValue e.payload = .ok o) (names : o.funder = identity)
  | pool {pool : AvailabilityPool} (kind : e.kind = EntryKind.availabilityPool.asStr)
      (decodes : AvailabilityPool.fromValue e.payload = .ok pool) (names : pool.funder = identity)
  | undertaking {record : Undertaking} (kind : e.kind = EntryKind.undertaking.asStr)
      (decodes : Undertaking.fromValue e.payload = .ok record) (names : record.identity = identity)
  | challenge {challenge : Challenge} (kind : e.kind = EntryKind.challenge.asStr)
      (decodes : Challenge.fromValue e.payload = .ok challenge)
      (names : challenge.challenger = identity)
  | attestation {record : Attestation} (kind : e.kind = EntryKind.attestation.asStr)
      (decodes : Attestation.fromValue e.payload = .ok record) (names : record.attestor = identity)
  | decided (against : Against identity e)

theorem exists_row {rows : List (String × Nat)} (h : rowsAt rows identity ≠ 0) :
    ∃ row ∈ rows, row.1 = identity := by
  by_contra hnone
  push Not at hnone
  exact h (rowsAt_of_not_mem hnone)

theorem charges_of_chargeRows (h : rowsAt (chargeRows e) identity ≠ 0) : Charges identity e := by
  obtain ⟨row, hrow, hname⟩ := exists_row h
  unfold chargeRows at hrow
  split_ifs at hrow with hobjective hpool
  · cases hdecode : Objective.fromValue e.payload with
    | error error => simp [hdecode] at hrow
    | ok o =>
      rw [hdecode] at hrow
      rw [List.mem_singleton.mp hrow] at hname
      exact .objective hobjective hdecode hname
  · cases hdecode : AvailabilityPool.fromValue e.payload with
    | error error => simp [hdecode] at hrow
    | ok pool =>
      rw [hdecode] at hrow
      rw [List.mem_singleton.mp hrow] at hname
      exact .pool hpool hdecode hname
  · simp at hrow

theorem against_of_flowRows (h : rowsAt (flowRows .challengeSettlement "loser" [e]) identity ≠ 0 ∨
      rowsAt (flowRows .verificationSlash "attestor" [e]) identity ≠ 0) : Against identity e := by
  have hflow : ∀ kind who, rowsAt (flowRows kind who [e]) identity ≠ 0 →
      e.kind = kind.asStr ∧ payloadStr e.payload who = some identity := by
    intro kind who hne
    obtain ⟨row, hrow, hname⟩ := exists_row hne
    obtain ⟨x, hx, hmap⟩ := List.mem_filterMap.mp hrow
    obtain ⟨hmem, hkind⟩ := mem_ofKind.mp hx
    rw [List.mem_singleton] at hmem
    subst hmem
    obtain ⟨name, hsome, rfl⟩ := Option.map_eq_some_iff.mp hmap
    exact ⟨hkind, by rw [hsome, ← hname]⟩
  exact h.imp (hflow _ _) (hflow _ _)

/-- The records of a kind that decode, in an entry. -/
theorem of_mem_decoded_singleton {α ε : Type} {kind : EntryKind} {decode : Value → Except ε α}
    {p : Entry × α} (h : p ∈ decoded kind decode [e]) :
    e.kind = kind.asStr ∧ decode e.payload = .ok p.2 := by
  obtain ⟨hmem, hkind, hdecode⟩ := mem_decoded.mp h
  rw [List.mem_singleton] at hmem
  rw [hmem] at hkind hdecode
  exact ⟨hkind, hdecode⟩

variable [Sha256] [Signatures] [Clock]

/-- What takes from an identity names it. -/
theorem charges_of_ne_zero (h : chargedTo now [e] identity ≠ 0) : Charges identity e := by
  unfold chargedTo at h
  by_cases hlocked : rowsAt (lockedRows [e]) identity = 0
  · by_cases hcharged : rowsAt ([e].flatMap chargeRows) identity = 0
    · by_cases hbonds : rowsAt (challengeBondRows [e]) identity = 0
      · by_cases hattested : rowsAt (attestationBondRows now [e]) identity = 0
        · apply Charges.decided
          apply against_of_flowRows
          omega
        · obtain ⟨row, hrow, hname⟩ := exists_row hattested
          obtain ⟨p, hp, rfl⟩ := List.mem_map.mp hrow
          obtain ⟨hkind, hdecode⟩ := of_mem_decoded_singleton (List.mem_of_mem_filter hp)
          exact .attestation hkind hdecode hname
      · obtain ⟨row, hrow, hname⟩ := exists_row hbonds
        obtain ⟨p, hp, rfl⟩ := List.mem_map.mp hrow
        obtain ⟨hkind, hdecode⟩ := of_mem_decoded_singleton (List.mem_of_mem_filter hp)
        exact .challenge hkind hdecode hname
    · apply charges_of_chargeRows
      rwa [List.flatMap_singleton] at hcharged
  · obtain ⟨row, hrow, hname⟩ := exists_row hlocked
    obtain ⟨p, hp, rfl⟩ := List.mem_map.mp hrow
    obtain ⟨hkind, hdecode⟩ := of_mem_decoded_singleton (List.mem_of_mem_filter hp)
    exact .undertaking hkind hdecode hname

end Charges

end Log

/-! ## What a call takes -/

namespace Node

variable [World]

theorem seq_nextEntry_le (n : Node) (kind : String) (payload : Value) (ts : String) :
    (n.ledger.nextEntry kind payload ts).seq.toNat ≤ n.log.length := by
  rw [seq_nextEntry, UInt64.toNat_ofNat']
  exact Nat.mod_le _ _

/-- What is left of an identity's units, by the whole log. -/
def spendable (n : Node) (identity : String) : Nat :=
  Log.spendableWithin n.log identity n.log.length

variable {identity record : String} {n : Node} {signature : Option String} {pool : AvailabilityPool}

/-- If an identity holds less after a run, an entry of the run charged it. -/
theorem Reaches.exists_charge {m : Node} (h : Reaches n m) (hlog : Log.Numbered n.log)
    (hdrop : m.spendable identity < n.spendable identity) :
    ∃ before e after, m.log = before ++ e :: after ∧ n.log.length ≤ before.length ∧
      Log.Charges identity e := by
  have hrun := h.log_induction (P := fun log => Log.Numbered log ∧ n.log.length ≤ log.length ∧
    (Log.spendableWithin log identity log.length < n.spendable identity →
      ∃ before e after, log = before ++ e :: after ∧ n.log.length ≤ before.length ∧
        Log.Charges identity e)) ?_ ⟨hlog, le_rfl, fun hlt => absurd hlt (lt_irrefl _)⟩
  · exact hrun.2.2 hdrop
  intro k kind payload ts ⟨hk, hlen, hcharge⟩
  have hseq := k.seq_nextEntry_le kind.asStr payload ts
  rw [log_append]
  generalize k.ledger.nextEntry kind.asStr payload ts = e at hseq ⊢
  refine ⟨hk.concat hseq, by rw [List.length_append]; omega, fun hlt => ?_⟩
  by_cases hkept : Log.spendableWithin k.log identity k.log.length < n.spendable identity
  · obtain ⟨before, x, after, hsplit, hnew, hx⟩ := hcharge hkept
    exact ⟨before, x, after ++ [e], by rw [hsplit]; simp, hnew, hx⟩
  · have hstep := Log.spendable_concat_le hk hseq identity
    have hcharged : Log.chargedTo (Log.settledEpoch (k.log ++ [e])) [e] identity ≠ 0 := by omega
    exact ⟨k.log, e, [], rfl, hlen, Log.charges_of_ne_zero hcharged⟩

/-! ## Signatures -/

/-- A record as it is written, with a signature by a key over it. -/
inductive SignedBy (key : String) : Value → Prop where
  | objective {o : Objective} {signature : String} (carries : o.fundingSignature = some signature)
      (verifies : Signatures.verifyValue key o.fundingSigningPayload signature = true) :
      SignedBy key o.toValue
  | record {fields : List (String × Value)} {signature : String}
      (verifies : Signatures.verifyValue key (.object fields) signature = true) :
      SignedBy key (signedValue fields (some signature))

/-- Somebody who is a key signed. -/
theorem signature_of_verifyRecord {payload : Value} (hkey : (signedSubmitter identity).isSome)
    (h : verifyRecordSignature record identity payload signature = .ok ()) :
    ∃ text, signature = some text ∧ Signatures.verifyValue identity payload text = true := by
  unfold verifyRecordSignature at h
  unfold signedSubmitter at h hkey
  by_cases hhex : isHex64 identity = true
  · rw [if_pos hhex] at h
    cases signature with
    | none => cases h
    | some text =>
      dsimp only at h
      by_cases hverifies : Signatures.verifyValue identity payload text = true
      · exact ⟨text, rfl, hverifies⟩
      · rw [if_neg hverifies] at h
        cases h
  · rw [if_neg hhex] at hkey
    cases hkey

theorem signature_of_verifyKey {payload : Value}
    (h : verifyKeySignature record identity payload signature = .ok ()) :
    ∃ text, signature = some text ∧ Signatures.verifyValue identity payload text = true := by
  unfold verifyKeySignature at h
  by_cases hnone : (signedSubmitter identity).isNone = true
  · rw [if_pos hnone] at h
    cases h
  rw [if_neg hnone] at h
  have hkey : (signedSubmitter identity).isSome := by
    rwa [Option.isNone_iff_eq_none, ← ne_eq, ← Option.isSome_iff_ne_none] at hnone
  cases signature with
  | none => cases h
  | some text => exact signature_of_verifyRecord hkey h

theorem signedBy_of_verifyKey {fields : List (String × Value)}
    (h : verifyKeySignature record identity (.object fields) signature = .ok ()) :
    SignedBy identity (signedValue fields signature) := by
  obtain ⟨text, rfl, hverifies⟩ := signature_of_verifyKey h
  exact .record hverifies

/-- An admitted record that charges a key is signed by it, unless it is a pool
or decided against it. -/
theorem Admits.signed {log : List Entry} {kind : EntryKind} {e : Entry}
    (hadmits : Admits log kind e.payload e.ts) (hkind : e.kind = kind.asStr)
    (hkey : (signedSubmitter identity).isSome) (hcharges : Log.Charges identity e) :
    SignedBy identity e.payload ∨ kind = .availabilityPool ∨ Log.Against identity e := by
  cases hcharges with
  | objective hkind' decodes names =>
    obtain rfl := EntryKind.asStr_inj.mp (hkind.symm.trans hkind')
    generalize e.payload = payload at hadmits decodes ⊢
    cases hadmits with
    | objective check =>
      rw [Objective.fromValue_toValue, map_eq_ok] at decodes
      obtain ⟨_, -, rfl⟩ := decodes
      unfold Log.checkObjective at check
      simp only [bind_eq_ok, mapError_eq_ok, ensure_eq_ok] at check
      obtain ⟨_, -, _, -, _, -, _, -, _, hsigned, -⟩ := check
      subst names
      obtain ⟨text, hcarries, hverifies⟩ := signature_of_verifyRecord hkey hsigned
      exact .inl (.objective hcarries hverifies)
  | pool hkind' => exact .inr (.inl (EntryKind.asStr_inj.mp (hkind.symm.trans hkind')))
  | undertaking hkind' decodes names =>
    obtain rfl := EntryKind.asStr_inj.mp (hkind.symm.trans hkind')
    generalize e.payload = payload at hadmits decodes ⊢
    cases hadmits with
    | undertaking check =>
      rw [Undertaking.fromValue_toValue, map_eq_ok] at decodes
      obtain ⟨_, -, rfl⟩ := decodes
      unfold Log.checkUndertaking at check
      simp only [bind_eq_ok, mapError_eq_ok] at check
      obtain ⟨_, -, _, hsigned, -⟩ := check
      subst names
      exact .inl (signedBy_of_verifyKey hsigned)
  | challenge hkind' decodes names =>
    obtain rfl := EntryKind.asStr_inj.mp (hkind.symm.trans hkind')
    generalize e.payload = payload at hadmits decodes ⊢
    cases hadmits with
    | challenge check =>
      rw [Challenge.fromValue_toValue, map_eq_ok] at decodes
      obtain ⟨_, -, rfl⟩ := decodes
      unfold Log.checkChallenge at check
      simp only [bind_eq_ok, mapError_eq_ok] at check
      obtain ⟨_, -, _, hsigned, -⟩ := check
      subst names
      exact .inl (signedBy_of_verifyKey hsigned)
  | attestation hkind' decodes names =>
    obtain rfl := EntryKind.asStr_inj.mp (hkind.symm.trans hkind')
    generalize e.payload = payload at hadmits decodes ⊢
    cases hadmits with
    | attestation check =>
      rw [Attestation.fromValue_toValue, map_eq_ok] at decodes
      obtain ⟨_, -, rfl⟩ := decodes
      unfold Log.checkAttestation at check
      simp only [bind_eq_ok, mapError_eq_ok] at check
      obtain ⟨_, -, _, hsigned, -⟩ := check
      subst names
      exact .inl (signedBy_of_verifyKey hsigned)
  | decided against => exact .inr (.inr against)

omit [World] in
/-- Drains charge nobody. -/
theorem IsPayout.not_charges {e : Entry} (h : IsPayout e) (identity : String) :
    ¬Log.Charges identity e := by
  intro hcharges
  cases hcharges with
  | decided against =>
    obtain (hkind | hkind) | hkind := h <;> obtain ⟨hk, -⟩ | ⟨hk, -⟩ := against <;>
      simp [hkind] at hk
  | _ kind _ _ => obtain (hkind | hkind) | hkind := h <;> simp [hkind] at kind

/-! ## Whose units a call spends -/

/-- If a call leaves an identity less, and no dispute or slash took it, a
record it wrote is signed by the identity. -/
def SpendsOwn (n : Node) (op : Op) (identity : String) : Prop :=
  (n.step op).spendable identity < n.spendable identity →
    (∀ e ∈ (n.step op).log.drop n.log.length, ¬Log.Against identity e) →
      ∃ e ∈ (n.step op).log.drop n.log.length, SignedBy identity e.payload

theorem Reaches.numbered {m : Node} (h : Reaches n m) (hlog : Log.Numbered n.log) :
    Log.Numbered m.log := by
  apply h.log_induction _ hlog
  intro k kind payload ts hk
  exact hk.concat (k.seq_nextEntry_le _ _ _)

/-- What is charged by any other call is signed. -/
theorem spendsOwn_of_not_pool (hlog : Log.Numbered n.log) {op : Op}
    (hop : op.kind ≠ .availabilityPool) (hkey : (signedSubmitter identity).isSome) :
    n.SpendsOwn op identity := by
  intro hdrop hagainst
  obtain ⟨before, e, after, hsplit, hnew, hcharges⟩ := (n.step_reaches op).exists_charge hlog hdrop
  have hmem : e ∈ (n.step op).log.drop n.log.length := by
    rw [hsplit, List.drop_append_of_le_length hnew]
    simp
  refine ⟨e, hmem, ?_⟩
  obtain hpayout | ⟨kind, hkind, hadmits⟩ := (n.step_reaches op).admitted_new hsplit hnew
  · exact absurd hcharges (hpayout.not_charges identity)
  obtain hsigned | rfl | hdecided := hadmits.signed hkind hkey hcharges
  · exact hsigned
  · -- the call writes no pool
    obtain ⟨new, hgrown, hwrites⟩ := n.step_write op
    rw [hgrown, List.drop_left] at hmem
    obtain ((hk | hk) | hk) | hk | hk := hwrites e hmem
    all_goals rw [hkind, EntryKind.asStr_inj] at hk
    · cases hk
    · cases hk
    · cases hk
    · cases hk
    · exact absurd hk.symm hop
  · exact absurd hdecided (hagainst e hmem)

theorem not_signedBy_pool (key : String) (pool : AvailabilityPool) :
    ¬SignedBy key pool.toValue := by
  intro h
  generalize hvalue : pool.toValue = value at h
  cases h with
  | @objective o signature carries verifies =>
    have hfield := congrArg (fun v : Value => v.get "funding_signature") hvalue
    simp [Objective.get_toValue, carries, AvailabilityPool.toValue, Value.get_object,
      BTreeMap.lookupEntry] at hfield
  | @record fields signature verifies =>
    have hfield := congrArg (fun v : Value => v.get "signature") hvalue
    simp [get_signedValue, AvailabilityPool.toValue, Value.get_object,
      BTreeMap.lookupEntry] at hfield

/-- A well-formed pool its funder can afford is written, whoever asks. -/
theorem step_pool (ts : String) (hvalid : pool.validate = .ok ())
    (hafford : pool.ceiling ≤ n.spendable pool.funder) :
    n.step (.postAvailabilityPool pool ts) = n.append .availabilityPool pool.toValue ts := by
  have hcheck : Log.checkPool n.log pool = .ok () := by
    unfold Log.checkPool Log.afford
    simp only [bind_eq_ok, mapError_eq_ok]
    refine ⟨(), hvalid, ?_⟩
    by_cases hsupply : Log.declaresSupply n.log = true
    · rw [if_neg (by simp [hsupply])]
      exact if_neg (not_lt.mpr hafford)
    · rw [if_pos (by simpa using hsupply)]
  show (n.postAvailabilityPool pool ts).1 = _
  unfold postAvailabilityPool post
  rw [hcheck]

/-- On a log that declares a supply any other pool is refused. -/
theorem step_pool_refused (hsupply : Log.declaresSupply n.log = true) (ts : String)
    (hrefused : pool.validate = .ok () → n.spendable pool.funder < pool.ceiling) :
    n.step (.postAvailabilityPool pool ts) = n := by
  show (n.postAvailabilityPool pool ts).1 = n
  unfold postAvailabilityPool
  cases hcheck : Log.checkPool n.log pool with
  | error error => rfl
  | ok u =>
    unfold Log.checkPool Log.afford at hcheck
    simp only [bind_eq_ok, mapError_eq_ok] at hcheck
    obtain ⟨_, hvalid, hafford⟩ := hcheck
    have hshort : pool.ceiling > Log.spendableWithin n.log pool.funder n.log.length :=
      hrefused hvalid
    rw [if_neg (by simp [hsupply]), if_pos hshort] at hafford
    cases hafford

/-- A pool is charged to nobody but its funder. -/
theorem spendsOwn_pool_of_ne (hlog : Log.Numbered n.log) (ts : String)
    (hne : pool.funder ≠ identity) : n.SpendsOwn (.postAvailabilityPool pool ts) identity := by
  intro hdrop _
  obtain ⟨before, e, after, hsplit, hnew, hcharges⟩ :=
    (n.step_reaches (.postAvailabilityPool pool ts)).exists_charge hlog hdrop
  have hlogs : (n.step (.postAvailabilityPool pool ts)).log = n.log ∨
      (n.step (.postAvailabilityPool pool ts)).log =
        n.log ++ [n.ledger.nextEntry EntryKind.availabilityPool.asStr pool.toValue ts] := by
    show (n.postAvailabilityPool pool ts).1.log = _ ∨ (n.postAvailabilityPool pool ts).1.log = _
    unfold postAvailabilityPool
    cases Log.checkPool n.log pool with
    | error error => exact .inl rfl
    | ok u => exact .inr rfl
  have hmem : e ∈ (n.step (.postAvailabilityPool pool ts)).log.drop n.log.length := by
    rw [hsplit, List.drop_append_of_le_length hnew]
    simp
  obtain hsame | hgrown := hlogs
  · rw [hsame, List.drop_length] at hmem
    cases hmem
  · rw [hgrown, List.drop_left, List.mem_singleton] at hmem
    subst hmem
    cases hcharges with
    | pool _ decodes names =>
      rw [payload_nextEntry, AvailabilityPool.fromValue_toValue, map_eq_ok] at decodes
      obtain ⟨_, -, rfl⟩ := decodes
      exact absurd names hne
    | decided against => obtain ⟨hkind, -⟩ | ⟨hkind, -⟩ := against <;> simp at hkind
    | _ kind _ _ => simp at kind

omit [World] in
/-- A well-formed pool costs something. -/
theorem ceiling_pos (hvalid : pool.validate = .ok ()) : 0 < pool.ceiling := by
  have hper : pool.perEpoch ≠ 0 := by
    intro hzero
    unfold AvailabilityPool.validate at hvalid
    by_cases hname : pool.funder = ""
    · simp [hname, invalid, bind, Except.bind] at hvalid
    · simp [hname, hzero, invalid, bind, Except.bind] at hvalid
  unfold AvailabilityPool.ceiling
  apply Nat.mul_pos _ (Nat.succ_pos _)
  rw [Nat.pos_iff_ne_zero]
  intro hzero
  exact hper (UInt64.toNat_inj.mp hzero)

/-- Such a pool is charged to its funder on nobody's signature. -/
theorem not_spendsOwn_pool (hlog : Log.Numbered n.log) (ts : String)
    (hvalid : pool.validate = .ok ()) (hafford : pool.ceiling ≤ n.spendable pool.funder) :
    ¬n.SpendsOwn (.postAvailabilityPool pool ts) pool.funder := by
  intro hspends
  have hpos := ceiling_pos hvalid
  have hstep := step_pool ts hvalid hafford
  have hseq := n.seq_nextEntry_le EntryKind.availabilityPool.asStr pool.toValue ts
  have hnew : (n.step (.postAvailabilityPool pool ts)).log.drop n.log.length =
      [n.ledger.nextEntry EntryKind.availabilityPool.asStr pool.toValue ts] := by
    rw [hstep, log_append, List.drop_left]
  have hdrop : (n.step (.postAvailabilityPool pool ts)).spendable pool.funder <
      n.spendable pool.funder := by
    have hdecode : AvailabilityPool.fromValue
        (n.ledger.nextEntry EntryKind.availabilityPool.asStr pool.toValue ts).payload =
        .ok pool := by
      rw [payload_nextEntry, AvailabilityPool.fromValue_toValue, hvalid]
      rfl
    have hleft := Log.spendable_concat_pool hlog hseq rfl hdecode
    unfold spendable at hafford ⊢
    rw [hstep, log_append, hleft]
    omega
  obtain ⟨e, he, hsigned⟩ := hspends hdrop (by
    intro e he hagainst
    rw [hnew, List.mem_singleton] at he
    subst he
    obtain ⟨hkind, -⟩ | ⟨hkind, -⟩ := hagainst <;> simp at hkind)
  rw [hnew, List.mem_singleton] at he
  subst he
  exact not_signedBy_pool _ _ hsigned

/-- On a log that declares a supply, a call spends nobody else's units exactly
when it is no pool that is well formed, affordable, and in the name of a key:
a pool carries no signature. -/
theorem spendsOwn_iff (start : Node) (ops : List Op) (op : Op)
    (hlog : Log.Numbered start.log) (hsupply : Log.declaresSupply (start.run ops).log = true) :
    (∀ identity, (signedSubmitter identity).isSome → (start.run ops).SpendsOwn op identity) ↔
      ∀ pool ts, op = .postAvailabilityPool pool ts → (signedSubmitter pool.funder).isSome →
        pool.validate = .ok () → (start.run ops).spendable pool.funder < pool.ceiling := by
  have hnumbered := (start.run_reaches ops).numbered hlog
  generalize start.run ops = n at *
  constructor
  · rintro hspends pool ts rfl hkey hvalid
    by_contra hafford
    exact not_spendsOwn_pool hnumbered ts hvalid (not_lt.mp hafford) (hspends _ hkey)
  · intro hcond identity hkey
    by_cases hop : op.kind = .availabilityPool
    · cases op with
      | postAvailabilityPool pool ts =>
        by_cases hne : pool.funder = identity
        · subst hne
          intro hdrop
          rw [step_pool_refused hsupply ts (hcond pool ts rfl hkey)] at hdrop
          exact absurd hdrop (lt_irrefl _)
        · exact spendsOwn_pool_of_ne hnumbered ts hne
      | _ => cases hop
    · exact spendsOwn_of_not_pool hnumbered hop hkey

end Node

/-! ## A pool in somebody else's name -/

/-- The records of the run below and their entries, by the length of the text
that is hashed. -/
def sampleSpendDigests : List (Nat × Nat) :=
  [(142, 0x7b058bbd7f63c8493495335f30145a8f7f69aa74bce4a13460b0b75634e7d888),
    (220, 0x2cc844859c7d870d48c1208d8a6b042df394e99c1bf0bf6998d8d8b153ce42f1),
    (182, 0x48aaab03b756687bea4b4445cbe45fc6f190bd8adeac0a27db440c7c2948d6c5),
    (338, 0x195e3f132570083043c118c4f51ec0969780b5866476cfb3a7b748e7adb0e7cc)]

@[reducible] def sampleSpendWorld : World :=
  { sampleWorld with toSha256 := .ofLengths sampleSpendDigests }

def sampleHolder : String := "8a88e3dd7409f195fd52db2d3cba5d72ca6709bf1d94121bf3748801b40f6f5c"

/-- One key holds the whole supply. -/
def sampleIssue : letI := sampleSpendWorld; List Op :=
  letI := sampleSpendWorld
  [.postIssuance { holder := sampleHolder, units := 10, createdAt := "2026-01-01T00:00:00Z" }
    "2026-01-01T00:00:00Z"]

def sampleUnsignedPool : AvailabilityPool :=
  { funder := sampleHolder, perEpoch := 1, fromEpoch := 0, toEpoch := 0
    createdAt := "2026-01-01T00:00:00Z" }

/-- The pool is charged to the key, which signed nothing. -/
theorem not_spendsOwn : letI := sampleSpendWorld
    let n := (Node.new (sampleLog [])).run sampleIssue
    Log.declaresSupply n.log = true ∧ (signedSubmitter sampleHolder).isSome ∧
      ¬n.SpendsOwn (.postAvailabilityPool sampleUnsignedPool "2026-01-01T00:00:00Z")
        sampleHolder := by
  let _ := sampleSpendWorld
  refine ⟨by decide, by decide, ?_⟩
  have hnumbered : Log.Numbered ((Node.new (sampleLog [])).run sampleIssue).log := by
    apply ((Node.new (sampleLog [])).run_reaches sampleIssue).numbered
    intro e he
    cases he
  have hvalid : sampleUnsignedPool.validate = .ok () := rfl
  exact Node.not_spendsOwn_pool hnumbered _ hvalid (by decide)

/-- A drain spends nobody's units. -/
theorem spendsOwn_iff_sample : letI := sampleSpendWorld
    ((Node.new (sampleLog [])).run sampleIssue).SpendsOwn
      (.settleDue 2945380 "2026-01-01T00:40:00Z") sampleHolder := by
  let _ := sampleSpendWorld
  refine (Node.spendsOwn_iff (Node.new (sampleLog [])) sampleIssue
    (.settleDue 2945380 "2026-01-01T00:40:00Z") ?_ (by decide)).mpr ?_ sampleHolder (by decide)
  · intro e he
    cases he
  · intro pool ts hop
    cases hop

end Cairn.Ports
