import Cairn.Ports.Node.Audit
import Cairn.Ports.Node.Durable
import Cairn.Verified.Sorted

/-!
# Who holds a sealed commitment

The committee of an epoch is sized by what the log held when the epoch began,
and drawn from the peers of the log as it is read. A peer that registers later
can rank in front of a seat, and then the committee that a submission was
sealed to is not the one the audit prices.
-/

namespace Cairn.Ports

open Cairn.Verified
open Cairn.Verified.AppendOnly
open Cairn.Ports.Canonical

namespace Log

/-! ## Time -/

/-- A longer epoch has a lower number. -/
theorem epochAt_antitone {long short : UInt64} (hshort : 0 < short.toNat)
    (h : short.toNat ≤ long.toNat) {ts : String} {x : UInt64} (hx : epochAt long ts = some x) :
    ∃ y, epochAt short ts = some y ∧ x ≤ y := by
  unfold epochAt at hx ⊢
  cases hs : parseRfc3339 ts with
  | none => simp [hs] at hx
  | some s =>
    rw [hs] at hx
    simp only [Option.ite_none_right_eq_some, Option.some.injEq] at hx ⊢
    obtain ⟨hpos, rfl⟩ := hx
    refine ⟨_, ⟨hpos, rfl⟩, ?_⟩
    have hne : ∀ n : UInt64, 0 < n.toNat → n ≠ 0 := by
      rintro n hn rfl
      exact absurd hn (by decide)
    unfold epochOf
    rw [if_neg (hne _ (by omega)), if_neg (hne _ hshort), UInt64.le_iff_toNat_le,
      UInt64.toNat_div, UInt64.toNat_div]
    exact Nat.div_le_div_left h hshort

/-- From a position on, no entry falls in an earlier epoch. -/
def From (log : List Entry) (epoch : UInt64) (start : Nat) : Prop :=
  ∀ e ∈ log.drop start, ∀ at_, epochAt EPOCH_SECONDS e.ts = some at_ → epoch ≤ at_

variable {log : List Entry} {start : Nat}

/-- In a timely log an entry bounds what follows it. -/
theorem Timely.from (h : Timely log) {e : Entry} {epoch at_ : UInt64} (he : log[start]? = some e)
    (hat : epochAt EPOCH_SECONDS e.ts = some at_) (hle : epoch ≤ at_) : From log epoch start := by
  obtain ⟨hstart, rfl⟩ := List.getElem?_eq_some_iff.mp he
  intro x hx later hlater
  rw [List.drop_eq_getElem_cons hstart, List.mem_cons] at hx
  obtain rfl | hx := hx
  · rw [hat] at hlater
    cases hlater
    exact hle
  · have hsplit : log = log.take start ++ log[start] :: log.drop (start + 1) := by
      rw [← List.drop_eq_getElem_cons hstart, List.take_append_drop]
    unfold Timely at h
    rw [hsplit, List.pairwise_append] at h
    have hpair := (List.pairwise_cons.mp h.2.1).1 x hx
    exact UInt64.le_trans hle (epochAt_le hpair hat hlater)

/-! ## What is fixed when an epoch begins -/

theorem take_eq_append_drop {positions : Nat} (h : start ≤ positions) :
    log.take positions = log.take start ++ (log.take positions).drop start := by
  have hsplit := (List.take_append_drop start (log.take positions)).symm
  rw [List.take_take, Nat.min_eq_left h] at hsplit
  exact hsplit

variable {epoch : UInt64}

theorem From.of_take {positions : Nat} (h : From log epoch start) {e : Entry}
    (he : e ∈ (log.take positions).drop start) {at_ : UInt64}
    (hat : epochAt EPOCH_SECONDS e.ts = some at_) : epoch ≤ at_ := by
  apply h e _ at_ hat
  rw [List.drop_take] at he
  exact List.mem_of_mem_take he

theorem From.epochBoundary {log : List Entry} {start positions : Nat}
    (h : From log epoch start) (hle : start ≤ positions) :
    epochBoundary log epoch positions = epochBoundary log epoch start := by
  unfold Log.epochBoundary
  rw [take_eq_append_drop hle, List.zipIdx_append, List.foldl_append]
  apply List.foldlRecOn (motive := fun boundary => boundary = _) _ _ rfl
  intro boundary hboundary p hp
  rw [← hboundary]
  split
  · next at_ hat =>
    exact if_neg (UInt64.not_lt.mpr (h.of_take (List.fst_mem_of_mem_zipIdx hp) hat))
  · rfl

theorem From.anchorAt [Sha256] {log : List Entry} {start positions : Nat}
    (h : From log epoch start) (hle : start ≤ positions) :
    anchorAt log epoch positions EPOCH_SECONDS = anchorAt log epoch start EPOCH_SECONDS := by
  unfold Log.anchorAt
  rw [take_eq_append_drop hle, List.filter_append]
  congr 3
  rw [List.append_right_eq_self, List.filter_eq_nil_iff]
  intro e he
  cases hat : epochAt EPOCH_SECONDS e.ts with
  | none => simp
  | some at_ => simpa using h.of_take he hat

/-! ## The order of the draw -/

section Draw

variable [World]

/-- One peer is drawn before another one, or with it. -/
def DrawnBefore (epoch : UInt64) (anchor : String) (a b : PeerRecord) : Prop :=
  settlementRank epoch anchor a.transport < settlementRank epoch anchor b.transport ∨
    (settlementRank epoch anchor a.transport = settlementRank epoch anchor b.transport ∧
      a.transport ≤ b.transport)

instance (epoch : UInt64) (anchor : String) : DecidableRel (DrawnBefore epoch anchor) :=
  fun _ _ => inferInstanceAs (Decidable (_ ∨ _))

theorem drawnBefore_total (epoch : UInt64) (anchor : String) (a b : PeerRecord) :
    DrawnBefore epoch anchor a b ∨ DrawnBefore epoch anchor b a := by
  unfold DrawnBefore
  rcases lt_trichotomy (settlementRank epoch anchor a.transport)
    (settlementRank epoch anchor b.transport) with hlt | heq | hlt
  · exact .inl (.inl hlt)
  · rcases le_total a.transport b.transport with hle | hle
    · exact .inl (.inr ⟨heq, hle⟩)
    · exact .inr (.inr ⟨heq.symm, hle⟩)
  · exact .inr (.inl hlt)

theorem drawnBefore_trans (epoch : UInt64) (anchor : String) (a b c : PeerRecord)
    (hab : DrawnBefore epoch anchor a b) (hbc : DrawnBefore epoch anchor b c) :
    DrawnBefore epoch anchor a c := by
  unfold DrawnBefore at *
  rcases hab with hab | ⟨hab, hle⟩
  · rcases hbc with hbc | ⟨hbc, -⟩
    · exact .inl (hab.trans hbc)
    · exact .inl (hbc ▸ hab)
  · rcases hbc with hbc | ⟨hbc, hle'⟩
    · exact .inl (hab ▸ hbc)
    · exact .inr ⟨hab.trans hbc, hle.trans hle'⟩

/-- The peers in the order an epoch draws them. -/
def drawOrder (log : List Entry) (epoch : UInt64) (positions : Nat) : List PeerRecord :=
  (peersWithin log positions).values.insertionSort
    (DrawnBefore epoch (anchorAt log epoch positions EPOCH_SECONDS))

theorem rankedPeers_eq (log : List Entry) (epoch : UInt64) (positions : Nat) :
    rankedPeers log epoch positions = (drawOrder log epoch positions).map fun peer =>
      (settlementRank epoch (anchorAt log epoch positions EPOCH_SECONDS) peer.transport, peer) := by
  unfold rankedPeers drawOrder
  symm
  apply List.map_insertionSort
  intro a _ b _
  exact Iff.rfl

theorem committeeOfSize_eq (log : List Entry) (epoch : UInt64) (size : UInt8) (positions : Nat) :
    committeeOfSize log epoch size positions =
      if (drawOrder log epoch positions).length < size.toNat then
        .error (.committeeTooSmall epoch (drawOrder log epoch positions).length size.toNat)
      else
        .ok (((drawOrder log epoch positions).take size.toNat).zipIdx.map fun p =>
          { seat := UInt8.ofNat (p.2 + 1), transport := p.1.transport, identity := p.1.identity,
            addr := p.1.addr }) := by
  unfold committeeOfSize
  dsimp only
  rw [rankedPeers_eq, List.length_map, ← List.map_take, List.zipIdx_map, List.map_map]
  rfl

/-! ## The table of peers -/

/-- A peer stands under its own identity. -/
theorem identity_of_mem_peersWithin {log : List Entry} {positions : Nat} {p : String × PeerRecord}
    (h : p ∈ (peersWithin log positions).entries) : p.2.identity = p.1 := by
  have hstep : ∀ (records : List PeerRecord) (m : BTreeMap String PeerRecord),
      (∀ p ∈ m.entries, p.2.identity = p.1) →
      ∀ p ∈ (records.foldl peerStep m).entries, p.2.identity = p.1 := by
    intro records
    induction records with
    | nil => intro m hm; exact hm
    | cons record records ih =>
      intro m hm
      rw [List.foldl_cons]
      have hinsert : ∀ p ∈ (m.insert record.identity record).entries, p.2.identity = p.1 := by
        intro p hp
        obtain rfl | hp := BTreeMap.mem_insertEntry hp
        · rfl
        · exact hm p hp
      apply ih
      unfold peerStep
      split
      · split
        · exact hm
        · exact hinsert
      · exact hinsert
  exact hstep _ .empty (fun p hp => absurd hp List.not_mem_nil) p h

/-- The other peers of a table. -/
def others (m : BTreeMap String PeerRecord) (identity : String) : List PeerRecord :=
  m.values.filter fun peer => peer.identity ≠ identity

variable {m : BTreeMap String PeerRecord}

omit [World] in
theorem others_eq (hm : ∀ p ∈ m.entries, p.2.identity = p.1) (identity : String) :
    others m identity = (m.entries.filter fun p => p.1 ≠ identity).map Prod.snd := by
  unfold others BTreeMap.values
  rw [List.filter_map]
  congr 1
  apply List.filter_congr
  intro p hp
  simp [hm p hp]

omit [World] in
theorem others_insert (hm : ∀ p ∈ m.entries, p.2.identity = p.1) (record : PeerRecord) :
    others (m.insert record.identity record) record.identity = others m record.identity := by
  rw [others_eq hm, others_eq]
  · show ((BTreeMap.insertEntry record.identity record m.entries).filter _).map Prod.snd = _
    rw [BTreeMap.filter_insertEntry_ne]
  · intro p hp
    obtain rfl | hp := BTreeMap.mem_insertEntry hp
    · rfl
    · exact hm p hp

/-- If enough other peers are drawn before one, it takes none of the first
places. -/
theorem take_draw_others (hm : ∀ p ∈ m.entries, p.2.identity = p.1) {epoch : UInt64}
    {anchor identity : String} {seats : Nat} (hbehind : ∀ peer, m.get? identity = some peer →
      seats ≤ ((others m identity).filter fun other =>
        ¬DrawnBefore epoch anchor peer other).length) :
    (m.values.insertionSort (DrawnBefore epoch anchor)).take seats =
      ((others m identity).insertionSort (DrawnBefore epoch anchor)).take seats := by
  cases hpeer : m.get? identity with
  | none =>
    -- every peer is another one
    have hall : others m identity = m.values := by
      unfold others
      rw [List.filter_eq_self]
      intro peer hmem
      obtain ⟨p, hp, rfl⟩ := List.mem_map.mp hmem
      rw [decide_eq_true_eq, hm p hp]
      rintro rfl
      have hfound := BTreeMap.get?_eq_some_iff.mpr hp
      rw [hpeer] at hfound
      cases hfound
    rw [hall]
  | some peer =>
    have hahead := hbehind peer hpeer
    have hself : DrawnBefore epoch anchor peer peer := .inr ⟨rfl, le_rfl⟩
    have hdown : ∀ a b, DrawnBefore epoch anchor a b →
        (decide ¬DrawnBefore epoch anchor peer b) = true →
        (decide ¬DrawnBefore epoch anchor peer a) = true := by
      intro a b hab hb
      rw [decide_eq_true_eq] at hb ⊢
      exact fun ha => hb (drawnBefore_trans _ _ _ _ _ ha hab)
    have hsame : (m.values.filter fun other => decide ¬DrawnBefore epoch anchor peer other) =
        (others m identity).filter fun other => decide ¬DrawnBefore epoch anchor peer other := by
      unfold others
      rw [List.filter_filter]
      apply List.filter_congr
      intro other hmem
      obtain ⟨p, hp, rfl⟩ := List.mem_map.mp hmem
      by_cases hid : p.1 = identity
      · have hfound := BTreeMap.get?_eq_some_iff.mpr hp
        rw [hid, hpeer] at hfound
        cases hfound
        simp [hself]
      · simp [hm p hp, hid]
    have hthis := take_insertionSort_filter hdown (drawnBefore_total epoch anchor)
      (drawnBefore_trans epoch anchor) (l := m.values) (k := seats) (by rw [hsame]; exact hahead)
    have hothers := take_insertionSort_filter hdown (drawnBefore_total epoch anchor)
      (drawnBefore_trans epoch anchor) (l := others m identity) (k := seats) hahead
    rw [← hthis, hsame, hothers]

end Draw

/-! ## The same seats at two positions -/

section Seats

variable [World] {log : List Entry} {epoch : UInt64} {positions later : Nat}

/-- The most seats the committee of an epoch can have. -/
def seatCeiling (log : List Entry) (epoch : UInt64) (positions : Nat) : Nat :=
  max COMMITTEE_SIZE.toNat (min MAX_COMMITTEE_SIZE.toNat
    (peersWithin log (epochBoundary log epoch positions)).entries.length)

/-- An epoch draws the same first seats at two positions. -/
structure SameSeats (log : List Entry) (epoch : UInt64) (positions later seats : Nat) : Prop where
  boundary : epochBoundary log epoch later = epochBoundary log epoch positions
  drawn : (drawOrder log epoch later).take seats = (drawOrder log epoch positions).take seats

variable {seats : Nat} {size : UInt8}

theorem SameSeats.committeeOfSize (h : SameSeats log epoch positions later seats)
    (hsize : size.toNat ≤ seats) :
    toOk (committeeOfSize log epoch size later) =
      toOk (committeeOfSize log epoch size positions) := by
  have hlength := congrArg List.length h.drawn
  rw [List.length_take, List.length_take] at hlength
  have htake := congrArg (List.take size.toNat) h.drawn
  rw [List.take_take, List.take_take, Nat.min_eq_left hsize] at htake
  rw [committeeOfSize_eq, committeeOfSize_eq, htake]
  by_cases hshort : (drawOrder log epoch positions).length < size.toNat
  · rw [if_pos hshort, if_pos (by omega)]
    rfl
  · rw [if_neg hshort, if_neg (by omega)]

theorem custodyGuard_eq (log : List Entry) (epoch : UInt64) (size : UInt8) (positions : Nat) :
    custodyGuard log epoch size positions =
      match toOk (committeeOfSize log epoch size positions) with
      | none => 0
      | some seats =>
        (((seats.map fun seat => spendableWithin log seat.identity
          (epochBoundary log epoch positions)).insertionSort (· ≤ ·)).take
            (thresholdFor size).toNat).sum / 2 := by
  unfold custodyGuard
  cases committeeOfSize log epoch size positions <;> rfl

theorem SameSeats.custodyGuard (h : SameSeats log epoch positions later seats)
    (hsize : size.toNat ≤ seats) :
    custodyGuard log epoch size later = custodyGuard log epoch size positions := by
  rw [custodyGuard_eq, custodyGuard_eq, h.committeeOfSize hsize, h.boundary]

omit [World] in
theorem toNat_succ_size (h : size.toNat < 255) :
    (size + 1).toNat = size.toNat + 1 := by
  have hone : (1 : UInt8).toNat = 1 := rfl
  rw [UInt8.toNat_add, hone]
  exact Nat.mod_eq_of_lt (by omega)

theorem growCommittee_le (log : List Entry) (epoch : UInt64) (positions carried : Nat) :
    ∀ (fuel : Nat) (size : UInt8), size.toNat + fuel ≤ 255 →
      (growCommittee log epoch positions carried fuel size).toNat ≤ size.toNat + fuel := by
  intro fuel
  induction fuel with
  | zero => intro size _; exact le_rfl
  | succ fuel ih =>
    intro size hfits
    have hnext : (size + 1).toNat = size.toNat + 1 := toNat_succ_size (by omega)
    unfold growCommittee
    split
    · omega
    · have hle := ih (size + 1) (by omega)
      omega

theorem SameSeats.growCommittee (h : SameSeats log epoch positions later seats)
    (carried : Nat) :
    ∀ (fuel : Nat) (size : UInt8), size.toNat + fuel ≤ seats → size.toNat + fuel ≤ 255 →
      growCommittee log epoch later carried fuel size =
        growCommittee log epoch positions carried fuel size := by
  intro fuel
  induction fuel with
  | zero => intro size _ _; rfl
  | succ fuel ih =>
    intro size hseats hfits
    have hnext : (size + 1).toNat = size.toNat + 1 := toNat_succ_size (by omega)
    unfold Log.growCommittee
    rw [h.custodyGuard (by omega), ih (size + 1) (by omega) (by omega)]

theorem committeeSizeAt_le (log : List Entry) (epoch : UInt64) (positions : Nat) :
    (committeeSizeAt log epoch positions).toNat ≤ seatCeiling log epoch positions := by
  have hfloor : COMMITTEE_SIZE.toNat = 5 := rfl
  have hmost : MAX_COMMITTEE_SIZE.toNat = 64 := rfl
  unfold committeeSizeAt seatCeiling
  dsimp only
  split
  · omega
  · split
    · omega
    · refine (growCommittee_le _ _ _ _ _ _ ?_).trans ?_
      · omega
      · omega

/-- What an epoch carries in is read in front of its boundary, so its committee
keeps its size where it keeps its seats. -/
theorem committeeSizeAt_eq
    (hboundary : epochBoundary log epoch later = epochBoundary log epoch positions)
    (hseats : sealedValueIn log (UInt64.ofNat (epoch.toNat - 1))
      (epochBoundary log epoch positions) ≠ 0 →
      SameSeats log epoch positions later (seatCeiling log epoch positions)) :
    committeeSizeAt log epoch later = committeeSizeAt log epoch positions := by
  have hfloor : COMMITTEE_SIZE.toNat = 5 := rfl
  have hmost : MAX_COMMITTEE_SIZE.toNat = 64 := rfl
  unfold committeeSizeAt
  dsimp only
  rw [hboundary]
  split
  · rfl
  · split
    · rfl
    · rename_i hpeers hcarried
      have hsame := hseats hcarried
      apply hsame.growCommittee
      · unfold seatCeiling
        omega
      · omega

end Seats

/-! ## Late peers -/

section Late

variable [World]

/-- A sealed commitment of this epoch, or of the one it carries over. -/
def Sealing (log : List Entry) (epoch : UInt64) : Prop :=
  ∃ p ∈ commitments log, p.2.envelope.isSome ∧ ∃ at_, epochOfTs p.2.createdAt = some at_ ∧
    (at_ = epoch ∨ at_ = UInt64.ofNat (epoch.toNat - 1))

/-- At a timestamp, an epoch that holds something sealed has begun. -/
def InForce (log : List Entry) (ts : String) (epoch : UInt64) : Prop :=
  Sealing log epoch ∧
    ((∃ e ∈ log, ∃ at_, epochAt EPOCH_SECONDS e.ts = some at_ ∧ epoch ≤ at_) ∨
    ∃ at_, epochAt EPOCH_SECONDS ts = some at_ ∧ epoch ≤ at_)

/-- A peer record leaves the seats of an epoch to others: neither it nor the
record it supersedes is drawn for one. -/
def Undrawn (log : List Entry) (epoch : UInt64) (record : PeerRecord) : Prop :=
  ∀ peer, peer = record ∨ (peersWithin log log.length).get? record.identity = some peer →
    seatCeiling log epoch log.length ≤
      ((others (peersWithin log log.length) record.identity).filter fun other =>
        ¬DrawnBefore epoch (anchorAt log epoch log.length EPOCH_SECONDS) peer other).length

/-- No peer record takes a seat of an epoch in force. -/
def Undisturbed (log : List Entry) : Prop :=
  ∀ before e after, log = before ++ e :: after → e.kind = EntryKind.peer.asStr →
    ∀ record, PeerRecord.fromValue e.payload = .ok record →
      ∀ epoch, InForce before e.ts epoch → Undrawn before epoch record

theorem peersWithin_concat {before after : List Entry} {e : Entry} :
    peersWithin (before ++ e :: after) (before.length + 1) =
      (((decoded .peer PeerRecord.fromValue [e]).map Prod.snd).filter fun record =>
        (toOk record.verifySignature).isSome).foldl peerStep
          (peersWithin before before.length) := by
  have htake : (before ++ e :: after).take (before.length + 1) = before ++ [e] := by
    rw [List.take_append, List.take_of_length_le (by omega)]
    simp
  unfold peersWithin
  rw [htake, List.take_length, decoded_append, List.map_append, List.filter_append,
    List.foldl_append]

/-- An undrawn record changes the table, and not who is drawn first. -/
theorem Undrawn.take_peerStep {log : List Entry} {epoch : UInt64} {record : PeerRecord}
    (h : Undrawn log epoch record) :
    ((peerStep (peersWithin log log.length) record).values.insertionSort
        (DrawnBefore epoch (anchorAt log epoch log.length EPOCH_SECONDS))).take
          (seatCeiling log epoch log.length) =
      ((peersWithin log log.length).values.insertionSort
        (DrawnBefore epoch (anchorAt log epoch log.length EPOCH_SECONDS))).take
          (seatCeiling log epoch log.length) := by
  have hkeyed : ∀ p ∈ (peersWithin log log.length).entries, p.2.identity = p.1 := fun p hp =>
    identity_of_mem_peersWithin hp
  have hheld := take_draw_others hkeyed fun peer hget => h peer (.inr hget)
  have hnew : (((peersWithin log log.length).insert record.identity record).values.insertionSort
        (DrawnBefore epoch (anchorAt log epoch log.length EPOCH_SECONDS))).take
          (seatCeiling log epoch log.length) =
      ((others (peersWithin log log.length) record.identity).insertionSort
        (DrawnBefore epoch (anchorAt log epoch log.length EPOCH_SECONDS))).take
          (seatCeiling log epoch log.length) := by
    rw [← others_insert hkeyed record]
    apply take_draw_others
    · intro p hp
      obtain rfl | hp := BTreeMap.mem_insertEntry hp
      · rfl
      · exact hkeyed p hp
    · intro peer hget
      have hself : peer = record := by
        rw [BTreeMap.insert, BTreeMap.get?, BTreeMap.lookupEntry_insertEntry, if_pos rfl] at hget
        exact (Option.some.inj hget).symm
      rw [others_insert hkeyed record]
      exact h peer (.inl hself)
  unfold peerStep
  split
  · split
    · rfl
    · rw [hnew, hheld]
  · rw [hnew, hheld]

/-- One more entry leaves the first seats of an epoch in force to whom they
were drawn for. -/
theorem Undisturbed.draw_concat {before after : List Entry} {e : Entry}
    (h : Undisturbed (before ++ e :: after)) {epoch : UInt64} {start : Nat}
    (hfrom : From (before ++ e :: after) epoch start) (hle : start ≤ before.length)
    (hforce : e.kind = EntryKind.peer.asStr → InForce before e.ts epoch) :
    (drawOrder (before ++ e :: after) epoch (before.length + 1)).take
        (seatCeiling before epoch before.length) =
      (drawOrder (before ++ e :: after) epoch before.length).take
        (seatCeiling before epoch before.length) := by
  have hanchor := hfrom.anchorAt (show start ≤ before.length + 1 by omega)
  rw [← hfrom.anchorAt hle] at hanchor
  have htake : (before ++ e :: after).take before.length = before := List.take_left
  have hbefore : peersWithin (before ++ e :: after) before.length =
      peersWithin before before.length := by
    unfold peersWithin
    rw [htake, List.take_length]
  have hanchor_before : anchorAt (before ++ e :: after) epoch before.length EPOCH_SECONDS =
      anchorAt before epoch before.length EPOCH_SECONDS := by
    unfold anchorAt
    rw [htake, List.take_length]
  unfold drawOrder
  rw [hanchor, hanchor_before, hbefore, peersWithin_concat]
  by_cases hpeer : e.kind = EntryKind.peer.asStr
  · cases hrecord : PeerRecord.fromValue e.payload with
    | error error =>
      have hnone : decoded .peer PeerRecord.fromValue [e] = [] := by
        simp [decoded, ofKind_of_kind hpeer, hrecord, toOk]
      rw [hnone]
      rfl
    | ok record =>
      have hsome : decoded .peer PeerRecord.fromValue [e] = [(e, record)] := by
        simp [decoded, ofKind_of_kind hpeer, hrecord, toOk]
      rw [hsome, List.map_singleton]
      by_cases hsigned : (toOk record.verifySignature).isSome = true
      · have hone : ([record].filter fun r => (toOk r.verifySignature).isSome) = [record] := by
          simpa using hsigned
        rw [hone, List.foldl_cons, List.foldl_nil]
        exact (h before e after rfl hpeer record hrecord epoch (hforce hpeer)).take_peerStep
      · have hone : ([record].filter fun r => (toOk r.verifySignature).isSome) = [] := by
          simpa using hsigned
        rw [hone, List.foldl_nil]
  · have hnone : decoded .peer PeerRecord.fromValue [e] = [] := by
      unfold decoded
      rw [ofKind_eq_nil fun x hx => by rw [List.mem_singleton.mp hx]; exact hpeer]
      rfl
    rw [hnone]
    rfl

end Late

/-! ## Sizes stay -/

section Sizes

variable [World]

theorem seatCeiling_append (before rest : List Entry) (epoch : UInt64) :
    seatCeiling (before ++ rest) epoch before.length = seatCeiling before epoch before.length := by
  have hle := epochBoundary_le before epoch before.length
  have hboundary : epochBoundary (before ++ rest) epoch before.length =
      epochBoundary before epoch before.length := by
    unfold epochBoundary
    rw [List.take_left, List.take_length]
  unfold seatCeiling peersWithin
  rw [hboundary, List.take_append_of_le_length hle]

variable {epoch : UInt64}

/-- From where an epoch is in force its first seats stay. -/
theorem Undisturbed.sameSeats {log : List Entry} (h : Undisturbed log)
    {start : Nat} (hfrom : From log epoch start)
    (hforce : ∀ before e after, log = before ++ e :: after → start ≤ before.length →
      e.kind = EntryKind.peer.asStr → InForce before e.ts epoch)
    {positions : Nat} (hstart : start ≤ positions) (hend : positions ≤ log.length) :
    SameSeats log epoch start positions (seatCeiling log epoch start) := by
  refine ⟨hfrom.epochBoundary hstart, ?_⟩
  induction positions, hstart using Nat.le_induction with
  | base => rfl
  | succ positions hstart ih =>
    obtain ⟨before, e, after, rfl, rfl⟩ : ∃ before e after, log = before ++ e :: after ∧
        before.length = positions := by
      refine ⟨log.take positions, log[positions], log.drop (positions + 1), ?_, ?_⟩
      · rw [← List.drop_eq_getElem_cons hend, List.take_append_drop]
      · rw [List.length_take]
        omega
    have hceiling : seatCeiling before epoch before.length =
        seatCeiling (before ++ e :: after) epoch start := by
      rw [← seatCeiling_append before (e :: after)]
      unfold seatCeiling
      rw [hfrom.epochBoundary hstart]
    have hstep := h.draw_concat hfrom hstart (hforce before e after rfl hstart)
    rw [hceiling] at hstep
    rw [hstep]
    exact ih (by omega)

/-- An epoch's committee has one size at every position behind its first
entry. -/
theorem Undisturbed.committeeSizeAt {log : List Entry} (h : Undisturbed log)
    (hpositioned : Positioned log) (htimely : Timely log) {start : Nat} {e : Entry}
    (he : log[start]? = some e) (hat : epochAt EPOCH_SECONDS e.ts = some epoch) {positions : Nat}
    (hstart : start ≤ positions) (hend : positions ≤ log.length) :
    committeeSizeAt log epoch positions = committeeSizeAt log epoch start := by
  have hfrom := htimely.from he hat UInt64.le_rfl
  apply committeeSizeAt_eq (hfrom.epochBoundary hstart)
  intro hcarried
  apply h.sameSeats hfrom _ hstart hend
  intro before x after hsplit hle _
  constructor
  · -- what is carried over was sealed in front of the boundary
    unfold sealedValueIn at hcarried
    rw [hpositioned.within_eq_take] at hcarried
    obtain ⟨value, hvalue, -⟩ := List.exists_mem_ne_zero_of_sum_ne_zero hcarried
    rw [List.mem_filterMap] at hvalue
    obtain ⟨p, hp, hcounted⟩ := hvalue
    split at hcounted
    · rename_i hsealed
      refine ⟨p, ?_, hsealed.1, _, hsealed.2, .inr rfl⟩
      have hboundary := (epochBoundary_le log epoch start).trans hle
      unfold commitments at hp ⊢
      rw [mem_decoded] at hp ⊢
      rw [hsplit, List.take_append_of_le_length (hsplit ▸ hboundary)] at hp
      exact ⟨List.mem_of_mem_take hp.1, hp.2⟩
    · cases hcounted
  · obtain hlt | heq := hle.lt_or_eq
    · left
      rw [hsplit, List.getElem?_append_left hlt] at he
      exact ⟨e, List.mem_of_getElem? he, epoch, hat, UInt64.le_rfl⟩
    · right
      rw [hsplit, heq] at he
      simp only [List.getElem?_append_right le_rfl, Nat.sub_self, List.getElem?_cons_zero,
        Option.some.injEq] at he
      subst he
      exact ⟨epoch, hat, UInt64.le_rfl⟩

/-- From a sealed commitment on, its epoch keeps its first seats. -/
theorem Undisturbed.sameSeats_of_sealed {before after : List Entry} {e : Entry}
    (h : Undisturbed (before ++ e :: after)) (htimely : Timely (before ++ e :: after))
    (hepochs : EPOCH_SECONDS.toNat ≤ Clock.epochSeconds.toNat)
    (hkind : e.kind = EntryKind.commitment.asStr) {commitment : Commitment}
    (hdecode : Commitment.fromValue e.payload = .ok commitment)
    (hsealed : commitment.envelope.isSome)
    (hepoch : epochOfTs commitment.createdAt = some epoch) (hts : epochOfTs e.ts = some epoch) :
    SameSeats (before ++ e :: after) epoch before.length (before ++ e :: after).length
      (seatCeiling (before ++ e :: after) epoch before.length) := by
  obtain ⟨at_, hat, hle⟩ := epochAt_antitone (by decide) hepochs hts
  have hfrom : From (before ++ e :: after) epoch before.length :=
    htimely.from (by simp) hat hle
  apply h.sameSeats hfrom _ (by simp) le_rfl
  intro before' x after' hsplit hlength hpeer
  -- the peer is not the commitment, so the commitment is in front of it
  have hin : e ∈ before' := by
    have hx : (before ++ e :: after)[before'.length]? = some x := by
      rw [hsplit]
      simp
    have he : (before' ++ x :: after')[before.length]? = some e := by
      rw [← hsplit]
      simp
    obtain hlt | heq := hlength.lt_or_eq
    · rw [List.getElem?_append_left hlt] at he
      exact List.mem_of_getElem? he
    · rw [heq, List.getElem?_append_right le_rfl, Nat.sub_self, List.getElem?_cons_zero] at he
      cases he
      rw [hkind] at hpeer
      exact absurd hpeer (by decide)
  constructor
  · exact ⟨(e, commitment), mem_decoded.mpr ⟨hin, hkind, hdecode⟩, hsealed, epoch, hepoch,
      .inl rfl⟩
  · exact .inl ⟨e, hin, at_, hat, hle⟩

end Sizes

/-! ## What the audit adds up -/

section Exposure

variable [World]

/-- What a sealed commitment adds to the exposure of an epoch. -/
def sealedReward (log : List Entry) (commitment : Commitment) : Nat :=
  (((objectives log).get? commitment.objectiveId).map fun objective =>
    objective.reward.toNat).getD 0

/-- A commitment is sealed as the log demands: to the committee of its epoch,
and with what was sealed before it, inside what that committee guards. -/
structure SealStands (log : List Entry) (positions : Nat) (commitment : Commitment)
    (envelope : Envelopes.Envelope) (epoch : UInt64) : Prop where
  seats : (Envelopes.shareIndices envelope).length =
    (committeeSizeAt log epoch log.length).toNat
  threshold : Envelopes.threshold envelope = thresholdFor (committeeSizeAt log epoch log.length)
  guarded : declaresSupply log →
    sealedValueIn log epoch positions + sealedReward log commitment ≤
      custodyGuard log epoch (committeeSizeAt log epoch log.length) log.length

theorem sealedValueIn_succ {before after : List Entry} {e : Entry}
    (hpositioned : Positioned (before ++ e :: after)) (epoch : UInt64) :
    sealedValueIn (before ++ e :: after) epoch (before.length + 1) =
      sealedValueIn (before ++ e :: after) epoch before.length +
        ((commitments [e]).map fun p =>
          if p.2.envelope.isSome ∧ epochOfTs p.2.createdAt = some epoch then
            sealedReward (before ++ e :: after) p.2
          else 0).sum := by
  have htake : (before ++ e :: after).take (before.length + 1) = before ++ [e] := by
    rw [List.take_append, List.take_of_length_le (by omega)]
    simp
  unfold sealedValueIn
  rw [hpositioned.within_eq_take, hpositioned.within_eq_take, htake, List.take_left]
  unfold commitments
  rw [decoded_append, List.filterMap_append, List.sum_append]
  congr 1
  generalize decoded .commitment Commitment.fromValue [e] = found
  induction found with
  | nil => rfl
  | cons p found ih =>
    rw [List.map_cons, List.sum_cons, ← ih]
    by_cases hsealed : p.2.envelope.isSome ∧ epochOfTs p.2.createdAt = some epoch
    · cases hknown : (objectives (before ++ e :: after)).get? p.2.objectiveId with
      | none => simp [hsealed, hknown, sealedReward]
      | some objective => simp [hsealed, hknown, sealedReward]
    · rw [List.filterMap_cons, if_neg hsealed, if_neg hsealed, Nat.zero_add]

/-- Commitments that all stand are not reported. -/
theorem auditSealedFrom_eq_nil {log : List Entry} (hpositioned : Positioned log)
    (hstands : ∀ before e after, log = before ++ e :: after →
      e.kind = EntryKind.commitment.asStr → ∀ commitment,
        Commitment.fromValue e.payload = .ok commitment → ∀ envelope,
          commitment.envelope = some envelope → ∀ epoch,
            epochOfTs commitment.createdAt = some epoch →
              SealStands log before.length commitment envelope epoch) :
    ∀ (after before : List Entry) (exposure : BTreeMap Nat Nat), log = before ++ after →
      (declaresSupply log → ∀ epoch : UInt64,
        exposure.amount epoch.toNat = sealedValueIn log epoch before.length) →
      auditSealedFrom log exposure (ofKind after .commitment) = [] := by
  intro after
  induction after with
  | nil => intro before exposure _ _; rfl
  | cons e after ih =>
    intro before exposure hlog hexposure
    have hnext : log = (before ++ [e]) ++ after := by simpa using hlog
    have hlength : (before ++ [e]).length = before.length + 1 := by simp
    have hsum : ∀ epoch : UInt64, sealedValueIn log epoch (before.length + 1) =
        sealedValueIn log epoch before.length + ((commitments [e]).map fun p =>
          if p.2.envelope.isSome ∧ epochOfTs p.2.createdAt = some epoch then
            sealedReward log p.2
          else 0).sum := by
      intro epoch
      rw [hlog]
      exact sealedValueIn_succ (hlog ▸ hpositioned) epoch
    by_cases hkind : e.kind = EntryKind.commitment.asStr
    · have hkeep : ofKind (e :: after) .commitment = e :: ofKind after .commitment := by
        simp [ofKind, hkind]
      rw [hkeep]
      unfold auditSealedFrom
      cases hdecode : Commitment.fromValue e.payload with
      | error error =>
        have hnone : commitments [e] = [] := by
          simp [commitments, decoded, ofKind_of_kind hkind, hdecode, toOk]
        apply ih (before ++ [e]) exposure hnext
        intro hsupply epoch
        rw [hlength, hsum, hnone, hexposure hsupply]
        rfl
      | ok commitment =>
        have hone : commitments [e] = [(e, commitment)] := by
          simp [commitments, decoded, ofKind_of_kind hkind, hdecode, toOk]
        have hadd : ∀ epoch : UInt64, sealedValueIn log epoch (before.length + 1) =
            sealedValueIn log epoch before.length +
              if commitment.envelope.isSome ∧ epochOfTs commitment.createdAt = some epoch then
                sealedReward log commitment
              else 0 := by
          intro epoch
          rw [hsum, hone, List.map_singleton, List.sum_singleton]
        dsimp only [toOk]
        cases henvelope : commitment.envelope with
        | none =>
          apply ih (before ++ [e]) exposure hnext
          intro hsupply epoch
          rw [hlength, hadd, hexposure hsupply, henvelope]
          rfl
        | some envelope =>
          cases hepoch : epochOfTs commitment.createdAt with
          | none =>
            apply ih (before ++ [e]) exposure hnext
            intro hsupply epoch
            rw [hlength, hadd, hexposure hsupply, hepoch]
            simp
          | some epoch =>
            have hstand := hstands before e after hlog hkind commitment hdecode envelope
              henvelope epoch hepoch
            have hshape : ¬((Envelopes.shareIndices envelope).length ≠
                (committeeSizeAt log epoch log.length).toNat ∨
                Envelopes.threshold envelope ≠
                  thresholdFor (committeeSizeAt log epoch log.length)) := by
              simp [hstand.seats, hstand.threshold]
            dsimp only
            rw [if_neg hshape, List.nil_append, List.nil_append]
            cases hsupply : declaresSupply log with
            | false =>
              apply ih (before ++ [e]) exposure hnext
              intro hdeclares
              rw [hsupply] at hdeclares
              cases hdeclares
            | true =>
              have hslot : exposure.amount epoch.toNat + sealedReward log commitment ≤
                  custodyGuard log epoch (committeeSizeAt log epoch log.length)
                    log.length := by
                rw [hexposure hsupply]
                exact hstand.guarded hsupply
              unfold sealedReward at hslot
              rw [if_neg (by simp), if_neg (not_lt.mpr hslot), List.nil_append]
              apply ih (before ++ [e]) _ hnext
              intro _ other
              rw [hlength, hadd, BTreeMap.amount_insert, hexposure hsupply,
                hexposure hsupply, henvelope, hepoch]
              by_cases hsame : other = epoch
              · subst hsame
                simp [sealedReward]
              · have hne : other.toNat ≠ epoch.toNat := fun heq =>
                  hsame (UInt64.toNat_inj.mp heq)
                have hne' : ¬epoch = other := fun heq => hsame heq.symm
                simp [hne, hne']
    · have hskip : ofKind (e :: after) .commitment = ofKind after .commitment := by
        simp [ofKind, hkind]
      have hnone : commitments [e] = [] := by
        simp [commitments, decoded, ofKind, hkind]
      rw [hskip]
      apply ih (before ++ [e]) exposure hnext
      intro hsupply epoch
      rw [hlength, hsum, hnone, hexposure hsupply]
      rfl

/-- What the audit of a sealed commitment asks for where a supply is declared. -/
theorem guarded_of_auditSealed {log : List Entry} {exposure : BTreeMap Nat Nat} {e : Entry}
    {rest : List Entry} (h : auditSealedFrom log exposure (e :: rest) = [])
    {commitment : Commitment} (hdecode : Commitment.fromValue e.payload = .ok commitment)
    {envelope : Envelopes.Envelope} (henvelope : commitment.envelope = some envelope)
    {epoch : UInt64} (hepoch : epochOfTs commitment.createdAt = some epoch)
    (hsupply : declaresSupply log = true) :
    exposure.amount epoch.toNat + sealedReward log commitment ≤
      custodyGuard log epoch (committeeSizeAt log epoch log.length) log.length := by
  unfold auditSealedFrom at h
  rw [hdecode] at h
  dsimp only [toOk] at h
  rw [henvelope, hepoch] at h
  dsimp only at h
  rw [if_neg (by rw [hsupply]; decide), List.append_eq_nil_iff, List.append_eq_nil_iff] at h
  by_contra hexceeds
  have hfault := h.1.2
  unfold sealedReward at hexceeds
  rw [if_pos (not_le.mp hexceeds)] at hfault
  cases hfault

end Exposure

end Log

namespace Node

variable [World]

/-! ## Admitted commitments stand -/

variable {n : Node}

/-- A commitment that was admitted on a timely log is sealed as the whole log
demands. The codec of envelopes gives back what it wrote. -/
theorem Reaches.sealStands {m : Node} (hempty : n.log = []) (h : Reaches n m)
    (hids : Log.StableIds m.log) (hfits : m.log.length ≤ UInt64.size) (htimely : Log.Timely m.log)
    (hundisturbed : Log.Undisturbed m.log)
    (hcodec : ∀ envelope, Envelopes.fromValue (Envelopes.toValue envelope) = .ok envelope)
    (hepochs : EPOCH_SECONDS.toNat ≤ Clock.epochSeconds.toNat) {before after : List Entry}
    {e : Entry} (hlog : m.log = before ++ e :: after) (hkind : e.kind = EntryKind.commitment.asStr)
    {commitment : Commitment} (hdecode : Commitment.fromValue e.payload = .ok commitment)
    {envelope : Envelopes.Envelope} (henvelope : commitment.envelope = some envelope)
    {epoch : UInt64} (hepoch : epochOfTs commitment.createdAt = some epoch) :
    Log.SealStands m.log before.length commitment envelope epoch := by
  have hlate := h.late hempty hids hfits hlog
  have hpositioned := h.positioned hempty hfits
  have hadmits := h.admitted_as hempty hlog hkind (by decide)
  generalize hpayload : e.payload = payload at hadmits
  cases hadmits with
  | @commitment c declaredEpoch _ declared check =>
    obtain ⟨hdeclared, hadmitted⟩ := commitEpoch_ok declared
    have hdecoded := hdecode
    rw [hpayload] at hdecoded
    obtain ⟨hid, -, hcreated, hshares⟩ := Commitment.of_fromValue hdecoded
    rw [hcreated, hdeclared] at hepoch
    cases hepoch
    have hsame : c.envelope = some envelope := by
      unfold Commitment.envelopeOf at hshares
      rw [henvelope, Commitment.get_toValue] at hshares
      cases hc : c.envelope with
      | none => simp [hc, BTreeMap.lookupEntry] at hshares
      | some inner => simpa [hc, hcodec, Except.mapError, Except.map] using hshares
    unfold Log.checkCommit at check
    simp only [bind_eq_ok, okOr_eq_ok, ensure_eq_ok] at check
    obtain ⟨objective, hknown, _, -, _, -, hsealed⟩ := check
    unfold Log.checkEnvelope at hsealed
    rw [hsame] at hsealed
    simp only [bind_eq_ok, ensure_eq_ok] at hsealed
    obtain ⟨sealedEpoch, hsealedEpoch, _, hshape, _, -, _, -, hcustody⟩ := hsealed
    rw [epochOfTimestamp_ok, hdeclared] at hsealedEpoch
    cases hsealedEpoch
    have hseats : Log.SameSeats m.log epoch before.length m.log.length
        (Log.seatCeiling m.log epoch before.length) := by
      rw [hlog] at hundisturbed htimely ⊢
      exact hundisturbed.sameSeats_of_sealed htimely hepochs hkind hdecode
        (by rw [henvelope]; rfl) (by rw [hcreated]; exact hdeclared) hadmitted
    have hsize : Log.committeeSizeAt m.log epoch m.log.length =
        Log.committeeSizeAt before epoch before.length := by
      rw [Log.committeeSizeAt_eq hseats.boundary fun _ => hseats, hlog]
      exact hlate.committeeSizeAt epoch
    constructor
    · rw [hsize]
      exact hshape.1
    · rw [hsize]
      exact hshape.2
    · intro hsupply
      have hsupplied : Log.declaresSupply before = true := by
        rw [hlog, Log.declaresSupply_of_other (by rw [hkind]; decide)] at hsupply
        exact hsupply
      have hreward : Log.sealedReward m.log commitment = objective.reward.toNat := by
        rw [hlog] at hids
        unfold Log.sealedReward
        rw [hid, hlog, hids.get?_append hknown]
        rfl
      have hguard : Log.custodyGuard m.log epoch
          (Log.committeeSizeAt before epoch before.length) m.log.length =
            Log.custodyGuard before epoch (Log.committeeSizeAt before epoch before.length)
              before.length := by
        rw [hseats.custodyGuard, hlog]
        · exact hlate.custodyGuard epoch _
        · rw [hlog, Log.seatCeiling_append]
          exact Log.committeeSizeAt_le before epoch before.length
      have hvalue : Log.sealedValueIn m.log epoch before.length =
          Log.sealedValueIn before epoch before.length := by
        rw [hlog]
        exact hlate.sealedValueIn epoch
      unfold Log.checkCustody at hcustody
      dsimp only at hcustody
      rw [ensure_eq_ok] at hcustody
      rw [hsize, hguard, hvalue, hreward]
      exact hcustody hsupplied

/-! ## Peers that publish for the first time -/

/-- A first record is published. -/
theorem postPeer_new {record : PeerRecord} (ts : String) (hvalid : record.validate = .ok ())
    (hsigned : record.verifySignature = .ok ())
    (hnew : (Log.peersWithin n.log n.log.length).get? record.identity = none) :
    (n.postPeer record ts).1 = n.append .peer record.toValue ts := by
  have hcheck : Log.checkPeer n.log record = .ok () := by
    unfold Log.checkPeer
    rw [hvalid, hsigned, hnew]
    rfl
  unfold postPeer post
  rw [hcheck]

theorem peersWithin_append_peer (n : Node) {record : PeerRecord} (ts : String)
    (hvalid : record.validate = .ok ()) (hsigned : record.verifySignature = .ok ()) :
    Log.peersWithin (n.append .peer record.toValue ts).log
        (n.append .peer record.toValue ts).log.length =
      Log.peerStep (Log.peersWithin n.log n.log.length) record := by
  have hdecode : PeerRecord.fromValue record.toValue = .ok record := by
    rw [PeerRecord.fromValue_toValue, hvalid]
    rfl
  rw [log_append, List.length_append, List.length_singleton, Log.peersWithin_concat]
  generalize hentry : n.ledger.nextEntry EntryKind.peer.asStr record.toValue ts = e
  have hkind : e.kind = EntryKind.peer.asStr := by rw [← hentry, kind_nextEntry]
  have hpayload : e.payload = record.toValue := by rw [← hentry, payload_nextEntry]
  have hone : Log.decoded .peer PeerRecord.fromValue [e] = [(e, record)] := by
    simp [Log.decoded, Log.ofKind_of_kind hkind, hpayload, hdecode, toOk]
  have hkeep : ([record].filter fun r => (toOk r.verifySignature).isSome) = [record] := by
    simp [hsigned, toOk]
  rw [hone, List.map_singleton, hkeep, List.foldl_cons, List.foldl_nil]

theorem peersWithin_append_other (n : Node) {kind : EntryKind} {payload : Value} {ts : String}
    (h : kind ≠ .peer) :
    Log.peersWithin (n.append kind payload ts).log (n.append kind payload ts).log.length =
      Log.peersWithin n.log n.log.length := by
  rw [log_append, List.length_append, List.length_singleton, Log.peersWithin_concat]
  have hnone : Log.ofKind [n.ledger.nextEntry kind.asStr payload ts] .peer = [] := by
    apply Log.ofKind_eq_nil
    intro e he
    rw [List.mem_singleton.mp he, kind_nextEntry]
    exact fun hkind => h (EntryKind.asStr_inj.mp hkind)
  unfold Log.decoded
  rw [hnone]
  rfl

/-- First records of different identities are published one after another. -/
theorem run_postPeers (ts : String) (records : List PeerRecord)
    (hvalid : ∀ r ∈ records, r.validate = .ok ())
    (hsigned : ∀ r ∈ records, r.verifySignature = .ok ())
    (hdistinct : records.Pairwise fun a b => a.identity ≠ b.identity)
    (hnew : ∀ r ∈ records, (Log.peersWithin n.log n.log.length).get? r.identity = none) :
    n.run (records.map fun r => .postPeer r ts) =
        records.foldl (fun n r => n.append .peer r.toValue ts) n ∧
      Log.peersWithin (n.run (records.map fun r => .postPeer r ts)).log
          (n.run (records.map fun r => .postPeer r ts)).log.length =
        records.foldl Log.peerStep (Log.peersWithin n.log n.log.length) := by
  induction records generalizing n with
  | nil => exact ⟨rfl, rfl⟩
  | cons record records ih =>
    obtain ⟨hother, hdistinct⟩ := List.pairwise_cons.mp hdistinct
    have hpost := postPeer_new ts (hvalid record List.mem_cons_self)
      (hsigned record List.mem_cons_self) (hnew record List.mem_cons_self)
    have htable := n.peersWithin_append_peer ts (hvalid record List.mem_cons_self)
      (hsigned record List.mem_cons_self)
    have hrest := ih (n := n.append .peer record.toValue ts)
      (fun r hr => hvalid r (List.mem_cons_of_mem _ hr))
      (fun r hr => hsigned r (List.mem_cons_of_mem _ hr)) hdistinct (by
        intro r hr
        rw [htable]
        unfold Log.peerStep
        rw [hnew record List.mem_cons_self]
        show BTreeMap.lookupEntry _ (BTreeMap.insertEntry _ _ _) = none
        rw [BTreeMap.lookupEntry_insertEntry, if_neg (hother r hr).symm]
        exact hnew r (List.mem_cons_of_mem _ hr))
    have hstep : n.run ((record :: records).map fun r => .postPeer r ts) =
        (n.append .peer record.toValue ts).run (records.map fun r => .postPeer r ts) := by
      rw [← hpost]
      rfl
    rw [hstep, List.foldl_cons, List.foldl_cons, ← htable]
    exact hrest

/-! ## Runs -/

/-- A published peer record takes no seat of an epoch in force. -/
def LeavesSeats (n : Node) : Op → Prop
  | .postPeer record ts => ∀ epoch, Log.InForce n.log ts epoch → Log.Undrawn n.log epoch record
  | _ => True

theorem undisturbed_append {log new : List Entry} (h : Log.Undisturbed log)
    (hnew : ∀ e ∈ new, e.kind ≠ EntryKind.peer.asStr) : Log.Undisturbed (log ++ new) := by
  intro before e after hsplit hpeer record hrecord epoch hforce
  obtain ⟨mid, hold, -⟩ | ⟨mid, -, hin⟩ := split_append hsplit
  · exact h before e mid hold hpeer record hrecord epoch hforce
  · exact absurd hpeer (hnew e (by rw [hin]; simp))

theorem undisturbed_step (n : Node) (op : Op) (h : Log.Undisturbed n.log)
    (hop : LeavesSeats n op) : Log.Undisturbed (n.step op).log := by
  by_cases hpeer : op.kind = .peer
  · cases op with
    | postPeer record ts =>
      show Log.Undisturbed (n.post (Log.checkPeer n.log record) _ _ _ _).1.log
      cases Log.checkPeer n.log record with
      | error error => exact h
      | ok _ =>
        show Log.Undisturbed (n.append .peer record.toValue ts).log
        rw [log_append]
        intro before e after hsplit hkind found hfound epoch hforce
        obtain ⟨mid, hold⟩ | ⟨rfl, rfl⟩ := split_concat hsplit
        · exact h before e mid hold hkind found hfound epoch hforce
        · rw [payload_nextEntry, PeerRecord.fromValue_toValue, map_eq_ok] at hfound
          obtain ⟨_, -, rfl⟩ := hfound
          exact hop epoch hforce
    | _ => cases hpeer
  · obtain ⟨new, hgrown, hnew⟩ := n.step_write op
    rw [hgrown]
    apply undisturbed_append h
    intro e he hkind
    obtain ((hpay | hpay) | hpay) | hpay | hpay := hnew e he
    · rw [hpay] at hkind
      exact absurd hkind (by decide)
    · rw [hpay] at hkind
      exact absurd hkind (by decide)
    · rw [hpay] at hkind
      exact absurd hkind (by decide)
    · rw [hpay] at hkind
      exact absurd hkind (by decide)
    · rw [hpay] at hkind
      exact hpeer (EntryKind.asStr_inj.mp hkind)

/-- In a run whose peers leave the seats of the epochs in force to others, a
committee keeps its size from the first entry of its epoch on, and the audit
accuses no sealed commitment that was admitted. -/
theorem run_sealed (l : Ledger) (hempty : l.entries = []) (ops : List Op)
    (hcol : NoCollision (Log.RecordTexts ((new l).run ops).log))
    (hfits : ((new l).run ops).log.length ≤ UInt64.size)
    (htimely : Log.Timely ((new l).run ops).log)
    (hcodec : ∀ envelope, Envelopes.fromValue (Envelopes.toValue envelope) = .ok envelope)
    (hepochs : EPOCH_SECONDS.toNat ≤ Clock.epochSeconds.toNat)
    (hmeets : RunMeets LeavesSeats (new l) ops) :
    (∀ (epoch : UInt64) (start : Nat) (e : Entry), ((new l).run ops).log[start]? = some e →
      epochAt EPOCH_SECONDS e.ts = some epoch → ∀ positions, start ≤ positions →
        positions ≤ ((new l).run ops).log.length →
          Log.committeeSizeAt ((new l).run ops).log epoch positions =
            Log.committeeSizeAt ((new l).run ops).log epoch start) ∧
      Log.auditSealed ((new l).run ops).log = [] := by
  have hnil : (new l).log = [] := hempty
  have hreach := run_reaches (new l) ops
  have hundisturbed : Log.Undisturbed ((new l).run ops).log := by
    apply run_induction (P := fun n => Log.Undisturbed n.log) undisturbed_step ops _ hmeets
    intro before e after hsplit
    rw [hnil] at hsplit
    simp at hsplit
  have hpositioned := hreach.positioned hnil hfits
  constructor
  · intro epoch start e he hat positions hstart hend
    exact hundisturbed.committeeSizeAt hpositioned htimely he hat hstart hend
  · have hids := Log.stableIds_of_noCollision hcol
    apply Log.auditSealedFrom_eq_nil hpositioned _ _ [] .empty rfl
    · intro hsupply epoch
      unfold Log.sealedValueIn
      rw [hpositioned.within_eq_take]
      rfl
    · intro before e after hlog hkind commitment hdecode envelope henvelope epoch hepoch
      exact hreach.sealStands hnil hids hfits htimely hundisturbed hcodec hepochs hlog hkind
        hdecode henvelope hepoch

end Node

/-! ## A peer that takes a holder's seat -/

/-- The entries of the run below, its objective and the draw of its epoch, by the
length of the text that is hashed. -/
def sampleSealDigests : List (Nat × Nat) :=
  [(219, 0x6785b582c1dbad3cfcfd8b890d7af77f265488847df1fbdf3fafe1f574e9334b),
    (289, 0x976a7c90cc5de09a05adcd044cd1c3aea3df3fbfbb8bb09701db322130347a3c),
    (288, 0x6b33654d07e49d67b24aec7d3bd3eae85aab513b8585733dff7cf654d2fec03f),
    (515, 0x80811d3ddf2601af745129e07b7e90fe15e2d36658424266e268e2c6f5f8c031),
    (516, 0x2eb6092a786130bd49fc4bdc16476a657bc938457d6c9d16ac5a9c4cd7409fc0),
    (517, 0x3cd9c97ba09b48727a11a2ea488b3426c06adec24b8dd43e4d9d14f51889ca4e),
    (518, 0xb9422fd3590a13f60f9bb188baab724a07c4cdf83fac11cb5ae63938fc12a3f2),
    (519, 0x3732fa1190ade7640472725485a4f814b395f7dd3446e904c9eaa21084bc8383),
    (498, 0xe6dedf025ac2bb60456e8f477ee2075a2f48d36578191e278a885af3f9ce3126),
    (444, 0x3364f2127fb3273c5370eaea7520dc13151ef7a5e5fcd778792d20e81b310d81),
    (521, 0xdfd11ede58b25da5406993d4be1d6e345d6b4435f5901a581bc1bc25e2266e84),
    (350, 0x46c3054105a52cad0cae1493dec2cfc5e36508d9357084007566fe7baa20221d),
    (79, 0x41e8fae6b3e7d1a30811117e4272705f1e8acc642ae5b56ad0dfc7eb2899b5a6),
    (17, 0x4a09fdc7a15698dc21897207eb0114b2d3bfa458e1be7075921f61cd81b87320)]

/-- The ranks of the peers: texts of one length, told apart by their last byte. -/
def sampleSeatDigests : List (UInt8 × Nat) :=
  [(102, 0xb6a7031141ee34ca6df4e717374c6c0d37cee85a24d24315ee0367db17f26931),
    (100, 0x62cb0baf29238c9c352c65ebd02c1b23bcb34aa9515fcb04a53aeee95e5e80df),
    (97, 0xfb57e5c25193bdfe98e167188b60a1045af279a5bc7e5b9822fb143a68063fe8),
    (55, 0xeaa63e56a935932c85d357d6490a99916911f7587e430f882a20dcfae2420fda),
    (56, 0x477ca0250c2f472942ce13162947bae61718e4c8f2b154af6fd866bc7fd2b523),
    (48, 0xc996c022ba5703ccbde6a9d7a01a373176163d0830f11858f9ab117060ae2df0)]

@[reducible] def sampleSealHash : Sha256 where
  hash data :=
    if data.size = 128 then
      digestOfNat (((sampleSeatDigests.find? fun row =>
        data.data.toList.getLast? = some row.1).map Prod.snd).getD 0)
    else (Sha256.ofLengths sampleSealDigests).hash data

/-- An envelope is who can open it: a threshold and the seats it is addressed
to. -/
def sampleEnvelopeValue (envelope : UInt8 × List UInt8) : Value :=
  .object [("shares", .array (envelope.2.map fun seat => u64Value seat.toUInt64)),
    ("threshold", u64Value envelope.1.toUInt64)]

def sampleEnvelopeOf (value : Value) : Except String (UInt8 × List UInt8) :=
  match (value.get "threshold").bind Value.asU64, (value.get "shares").bind Value.asArray with
  | some threshold, some seats =>
    .ok (threshold.toUInt8, (seats.filterMap Value.asU64).map UInt64.toUInt8)
  | _, _ => .error "no envelope"

theorem sampleEnvelopeOf_value (envelope : UInt8 × List UInt8) :
    sampleEnvelopeOf (sampleEnvelopeValue envelope) = .ok envelope := by
  simp [sampleEnvelopeOf, sampleEnvelopeValue, Value.get_object, BTreeMap.lookupEntry,
    Function.comp_def]

/-- Signatures verify. -/
@[reducible] def sampleSealWorld : World :=
  { sampleWorld with
    toSha256 := sampleSealHash
    verifyValue := fun _ _ _ => true
    Envelope := UInt8 × List UInt8
    toValue := sampleEnvelopeValue
    fromValue := sampleEnvelopeOf
    threshold := Prod.fst
    shareIndices := Prod.snd
    openSealed := fun _ _ _ _ _ _ _ => none }

section Sample

local instance sampleSealInstance : World := sampleSealWorld

def sampleFunder : String := "8a88e3dd7409f195fd52db2d3cba5d72ca6709bf1d94121bf3748801b40f6f5c"

def sampleSecondHolder : String :=
  "8139770ea87d175f56a35466c34c7ecccb8d8a91b4ee37a25df60f5b8fc9b394"

def sampleThirdHolder : String := "ed4928c628d1c2c6eae90338905995612959273a5c63f93636c14614ac8737d1"

def sampleSeatOne : PeerRecord where
  identity := sampleFunder
  transport := "ce8e3abf6f21bff57e79f7039fb0a15a5d580f6112debacbd0f7e67aa9d2c1bf"
  addr := "a:1"
  seq := 0
  createdAt := "2026-01-01T00:10:00Z"
  signature := some ("1937a773338daff029ab21e777feea4f77c4ccd6a6a5db8a4f97bc647e3bdf68" ++
    "9daab9e6f3fbce39c51ee3aaaaae013117cfc625adbbb3ad6640b3a760f16804")

def sampleSeatTwo : PeerRecord where
  identity := sampleSecondHolder
  transport := "771f2775b3efa57d40068d1cc64e43e0739c771ecb5d2a847fd691100c3dc26d"
  addr := "a:10"
  seq := 0
  createdAt := "2026-01-01T00:10:00Z"
  signature := some ("c84552e3e6b51871ddf35f80fb494c7afddcb965cf5622a5f6da04239fa1b9e3" ++
    "4af8cde7be312577f67431ddd6133692d31e0b090f06018781f41b41e99bb505")

def sampleSeatThree : PeerRecord where
  identity := sampleThirdHolder
  transport := "692881b222b460ebf14be541f19b785495314a4d90147d44c5a66fa9d1e7e7ca"
  addr := "a:100"
  seq := 0
  createdAt := "2026-01-01T00:10:00Z"
  signature := some ("20633277f8be1d8803fcb379e29ee9fb51e6a32d8f6d5a57957fcbf05de485be" ++
    "61284bda6a10f91e2a411c4bd110bf3350f19285577ae8c189dd2f0a3c3b0605")

def sampleSeatFour : PeerRecord where
  identity := "ca93ac1705187071d67b83c7ff0efe8108e8ec4530575d7726879333dbdabe7c"
  transport := "cc5fbebc8ec422dbfed7d31a174e87cb4f832ed0855c3accbb2cf10c87eb2297"
  addr := "a:1000"
  seq := 0
  createdAt := "2026-01-01T00:10:00Z"
  signature := some ("1470461044125f0fdf1f55c25e66e11d32ff8b21e74ea0b76149e004af5e9ff0" ++
    "ec30ed477dca52612959bb119e5e11b93a8a20e8e8b8a95148b6e33f8d4dcb0c")

def sampleSeatFive : PeerRecord where
  identity := "6e7a1cdd29b0b78fd13af4c5598feff4ef2a97166e3ca6f2e4fbfccd80505bf1"
  transport := "ef3ffa45ce00d11a4de1f46a14680fc18020019673c82431f7f0c90b467df278"
  addr := "a:10000"
  seq := 0
  createdAt := "2026-01-01T00:10:00Z"
  signature := some ("2bc88baf1b21fce40f2cc1a9e9a85d48cad69a5483f90f06a513e018fed5ef26" ++
    "b3812f8b05b31b323b4a646ef69de765239cd5c95c0d79c47030240c27e76b0d")

def sampleLatePeer : PeerRecord where
  identity := "8a875fff1eb38451577acd5afee405456568dd7c89e090863a0557bc7af49f17"
  transport := "cce25d279b460768e907dbe5f63b7966e01abdaa26e276819c5c46fd710bb310"
  addr := "ab:10000"
  seq := 0
  createdAt := "2026-01-01T00:10:00Z"
  signature := some ("8d9f83d06965dcc00dc267dc20983edf63486cdfcb9816b8ea44d218b914bf88" ++
    "9f8e26641df5e4b22ec429666c4497643cf1e41f263d9dd77c358843dd3e3a0c")

/-- Three holders and two others. -/
def sampleSeats : List PeerRecord :=
  [sampleSeatOne, sampleSeatTwo, sampleSeatThree, sampleSeatFour, sampleSeatFive]

/-- It pays one unit, which a holder has put up. -/
def sampleSealObjective : Objective :=
  { Objective.new "g" "s" (.object [("kind", .string "replay")]) 1 sampleFunder
      "2026-01-01T00:10:00Z" none none with
    fundingSignature := some ("8605fbcb24b3fea413cdded5598b721760b245e178f3bc8d913fe5b3cccb44cf" ++
      "3beeaf9f3bbdeae490c32cb002398ea7065bff391d3d072000e2f3590bbe7f08") }

def sampleSealedCommitment : Commitment :=
  { objectiveId := "sha256:46c3054105a52cad0cae1493dec2cfc5e36508d9357084007566fe7baa20221d"
    submitter := "alice"
    hash := "sha256:c9d0036bed6744bcdf692fc980d8717d7e5f5a4f4e8266b4a84982602fb1cd09"
    createdAt := "2026-01-01T00:10:00Z"
    envelope := some (3, [1, 2, 3, 4, 5])
    signature := none }

def sampleSealIssuances : List Op :=
  [.postIssuance { holder := sampleFunder, units := 2, createdAt := "2026-01-01T00:00:00Z" }
      "2026-01-01T00:00:00Z",
    .postIssuance { holder := sampleSecondHolder, units := 20, createdAt := "2026-01-01T00:00:00Z" }
      "2026-01-01T00:00:00Z",
    .postIssuance { holder := sampleThirdHolder, units := 2, createdAt := "2026-01-01T00:00:00Z" }
      "2026-01-01T00:00:00Z"]

/-- A commitment is sealed to the committee of the five. -/
def sampleSealOps : List Op :=
  sampleSealIssuances ++ sampleSeats.map (fun r => .postPeer r "2026-01-01T00:10:00Z") ++
    [.postObjective sampleSealObjective "2026-01-01T00:10:00Z",
      .commit sampleSealedCommitment "2026-01-01T00:10:00Z"]

theorem sampleSeats_publish :
    ∀ r ∈ sampleLatePeer :: sampleSeats,
      r.validate = .ok () ∧ r.verifySignature = .ok () := by
  have hchecked : ((sampleLatePeer :: sampleSeats).all fun r =>
      (toOk r.validate).isSome && (toOk r.verifySignature).isSome) = true := by decide
  intro r hr
  have hr := List.all_eq_true.mp hchecked r hr
  rw [Bool.and_eq_true] at hr
  obtain ⟨_, hvalid⟩ := Option.isSome_iff_exists.mp hr.1
  obtain ⟨_, hsigned⟩ := Option.isSome_iff_exists.mp hr.2
  exact ⟨toOk_eq_some hvalid, toOk_eq_some hsigned⟩

/-- The node the five peers are seated on. -/
def sampleSeated : Node :=
  sampleSeats.foldl (fun n r => n.append .peer r.toValue "2026-01-01T00:10:00Z")
    ((Node.new (sampleLog [])).run sampleSealIssuances)

def sampleFunded : Node :=
  sampleSeated.append .objective sampleSealObjective.toValue "2026-01-01T00:10:00Z"

theorem sampleSeated_eq :
    (Node.new (sampleLog [])).run (sampleSealIssuances ++
      sampleSeats.map fun r => .postPeer r "2026-01-01T00:10:00Z") = sampleSeated ∧
    Log.peersWithin sampleSeated.log sampleSeated.log.length =
      sampleSeats.foldl Log.peerStep .empty := by
  have htable : Log.peersWithin ((Node.new (sampleLog [])).run sampleSealIssuances).log
      ((Node.new (sampleLog [])).run sampleSealIssuances).log.length = .empty := by
    apply BTreeMap.entries_injective
    show _ = []
    rw [← List.isEmpty_iff]
    decide
  obtain ⟨hrun, hpeers⟩ := Node.run_postPeers "2026-01-01T00:10:00Z" sampleSeats
    (n := (Node.new (sampleLog [])).run sampleSealIssuances)
    (fun r hr => (sampleSeats_publish r (List.mem_cons_of_mem _ hr)).1)
    (fun r hr => (sampleSeats_publish r (List.mem_cons_of_mem _ hr)).2) (by decide) (by
      intro r _
      rw [htable]
      rfl)
  rw [htable, hrun] at hpeers
  rw [Node.run_append]
  exact ⟨hrun, hpeers⟩

/-- Behind the issuances everything happens in one epoch. -/
theorem sampleSeal_anchor {rest : List Entry}
    (h : ∀ e ∈ rest, e.ts = "2026-01-01T00:10:00Z") :
    Log.anchorAt (((Node.new (sampleLog [])).run sampleSealIssuances).log ++ rest) 2945377
        (3 + rest.length) EPOCH_SECONDS =
      "sha256:6b33654d07e49d67b24aec7d3bd3eae85aab513b8585733dff7cf654d2fec03f" := by
  have hthree : ((Node.new (sampleLog [])).run sampleSealIssuances).log.length = 3 := by
    decide
  have hfirst : Log.anchorAt ((Node.new (sampleLog [])).run sampleSealIssuances).log 2945377 3
      EPOCH_SECONDS =
        "sha256:6b33654d07e49d67b24aec7d3bd3eae85aab513b8585733dff7cf654d2fec03f" := by
    decide +kernel
  have hts : epochAt EPOCH_SECONDS "2026-01-01T00:10:00Z" = some 2945377 := by decide +kernel
  generalize ((Node.new (sampleLog [])).run sampleSealIssuances).log = first at hthree hfirst
  have hfrom : Log.From (first ++ rest) 2945377 3 := by
    intro e he at_ hat
    rw [← hthree, List.drop_left] at he
    rw [h e he, hts] at hat
    cases hat
    exact UInt64.le_rfl
  rw [hfrom.anchorAt (by omega), ← hfirst]
  unfold Log.anchorAt
  rw [← hthree, List.take_left, List.take_length]

theorem sampleFunded_eq :
    (Node.new (sampleLog [])).run (sampleSealIssuances ++
      sampleSeats.map (fun r => .postPeer r "2026-01-01T00:10:00Z") ++
        [.postObjective sampleSealObjective "2026-01-01T00:10:00Z"]) = sampleFunded := by
  have hcheck : (toOk (Log.checkObjective sampleSeated.log sampleSealObjective)).isSome = true := by
    decide
  obtain ⟨_, hcheck⟩ := Option.isSome_iff_exists.mp hcheck
  rw [Node.run_append, sampleSeated_eq.1]
  show (sampleSeated.post (Log.checkObjective sampleSeated.log sampleSealObjective) _ _ _ _).1 = _
  rw [toOk_eq_some hcheck]
  rfl

theorem sampleFunded_ts : ∃ rest, sampleFunded.log =
    ((Node.new (sampleLog [])).run sampleSealIssuances).log ++ rest ∧ rest.length = 6 ∧
      ∀ e ∈ rest, e.ts = "2026-01-01T00:10:00Z" := by
  refine ⟨sampleFunded.log.drop 3, ?_, by decide, ?_⟩
  · rfl
  · have hall : ((sampleFunded.log.drop 3).all fun e => e.ts = "2026-01-01T00:10:00Z") = true := by
      decide
    intro e he
    simpa using List.all_eq_true.mp hall e he

theorem sampleFunded_peers :
    Log.peersWithin sampleFunded.log 9 = sampleSeats.foldl Log.peerStep .empty := by
  have hpeers : Log.peersWithin sampleFunded.log sampleFunded.log.length =
      sampleSeats.foldl Log.peerStep .empty := by
    rw [← sampleSeated_eq.2]
    exact Node.peersWithin_append_other _ (by decide)
  obtain ⟨rest, hlog, hrest, -⟩ := sampleFunded_ts
  have hlength : sampleFunded.log.length = 9 := by decide
  rw [hlength] at hpeers
  exact hpeers

/-- The five in the order they are drawn. -/
theorem sampleFunded_draw : Log.drawOrder sampleFunded.log 2945377 9 =
    [sampleSeatFive, sampleSeatTwo, sampleSeatOne, sampleSeatFour, sampleSeatThree] := by
  obtain ⟨rest, hlog, hrest, hts⟩ := sampleFunded_ts
  have hanchor := sampleSeal_anchor hts
  rw [← hlog, hrest] at hanchor
  unfold Log.drawOrder
  rw [sampleFunded_peers, hanchor]
  decide +kernel

/-- What the three cheapest of them stand to lose, halved. -/
theorem sampleFunded_guard : Log.custodyGuard sampleFunded.log 2945377 5 9 = 1 := by
  rw [Log.custodyGuard_eq, Log.committeeOfSize_eq, sampleFunded_draw]
  decide +kernel

/-- The objective the commitment is for. -/
theorem sampleFunded_objective : ∃ o : Objective, (Log.objectives sampleFunded.log).get?
    sampleSealedCommitment.objectiveId = some o ∧ o.reward = 1 ∧
      o.requireSignedSubmitter = false := by
  have hknown : ((Log.objectives sampleFunded.log).get? sampleSealedCommitment.objectiveId).any
      (fun o => o.reward = 1 && !o.requireSignedSubmitter) = true := by decide +kernel
  obtain ⟨o, ho, hparts⟩ := (Option.any_eq_true ..).mp hknown
  simp only [Bool.and_eq_true, decide_eq_true_eq, Bool.not_eq_true'] at hparts
  exact ⟨o, ho, hparts⟩

theorem sampleFunded_check : Log.checkCommit sampleFunded.log sampleSealedCommitment = .ok () := by
  obtain ⟨o, hknown, hreward, hsigned⟩ := sampleFunded_objective
  have hlength : sampleFunded.log.length = 9 := by decide
  have hsize : Log.committeeSizeAt sampleFunded.log 2945377 9 = 5 := by decide +kernel
  have hvalue : Log.sealedValueIn sampleFunded.log 2945377 9 = 0 := by decide
  have hunsettled :
      Log.settlementOf sampleFunded.log sampleSealedCommitment.objectiveId = none := by
    rw [← Option.isNone_iff_eq_none]
    decide
  have hepoch : epochOfTimestamp "commitment" sampleSealedCommitment.createdAt = .ok 2945377 := by
    rw [Node.epochOfTimestamp_ok]
    decide +kernel
  have hcustody : Log.checkCustody sampleFunded.log o 2945377 5 = .ok () := by
    unfold Log.checkCustody
    rw [ensure_eq_ok, hlength, hvalue, hreward, sampleFunded_guard]
    decide
  have hdrawn : ∃ seats, Log.committeeOfSize sampleFunded.log 2945377 5 9 = .ok seats := by
    rw [Log.committeeOfSize_eq, sampleFunded_draw, if_neg (by decide)]
    exact ⟨_, rfl⟩
  have henvelope : Log.checkEnvelope sampleFunded.log sampleSealedCommitment o = .ok () := by
    have hshape : ([1, 2, 3, 4, 5] : List UInt8).length = (5 : UInt8).toNat ∧
        (3 : UInt8) = thresholdFor 5 := by decide
    have hseats : ([1, 2, 3, 4, 5] : List UInt8).insertionSort (· ≤ ·) =
        (List.range (5 : UInt8).toNat).map fun i => UInt8.ofNat (i + 1) := by decide
    have hcommittee : ∃ seats, Log.committeeFor sampleFunded.log 2945377 9 = .ok seats := by
      unfold Log.committeeFor
      rw [hsize]
      exact hdrawn
    obtain ⟨seats, hcommittee⟩ := hcommittee
    simp only [Log.checkEnvelope, sampleSealedCommitment, bind_eq_ok, ensure_eq_ok]
    refine ⟨2945377, hepoch, (), ?_, (), ?_, seats, ?_, ?_⟩
    all_goals rw [hlength]
    · rw [hsize]
      exact hshape
    · rw [hsize]
      exact hseats
    · exact hcommittee
    · rw [hsize]
      exact hcustody
  simp only [Log.checkCommit, bind_eq_ok, ensure_eq_ok, okOr_eq_ok]
  refine ⟨o, hknown, (), ?_, (), ?_, henvelope⟩
  · rw [hsigned]
    simp
  · rw [hunsettled]
    simp

/-- The node of a drain that found nothing to do. -/
def sampleSealSettled : Node :=
  { sampleFunded with
    drains := sampleFunded.drains ++ [{ length := sampleFunded.log.length, now := 2945377 }] }

def sampleCommitted : Node :=
  sampleSealSettled.append .commitment sampleSealedCommitment.toValue "2026-01-01T00:10:00Z"

theorem sampleCommitted_eq : (Node.new (sampleLog [])).run sampleSealOps = sampleCommitted := by
  have hepoch : toOk (Log.commitEpoch sampleSealedCommitment "2026-01-01T00:10:00Z") =
      some 2945377 := by decide +kernel
  have hdue : Log.dueEpochs sampleFunded.log 2945377 = [] := by decide
  have hdrain : sampleFunded.settleDue 2945377 "2026-01-01T00:10:00Z" =
      (sampleSealSettled, .ok []) := by
    show Node.settleEpochs "2026-01-01T00:10:00Z" sampleSealSettled
      (Log.dueEpochs sampleFunded.log 2945377) = _
    rw [hdue]
    rfl
  have hops : sampleSealOps = (sampleSealIssuances ++
      sampleSeats.map (fun r => .postPeer r "2026-01-01T00:10:00Z") ++
        [.postObjective sampleSealObjective "2026-01-01T00:10:00Z"]) ++
      [.commit sampleSealedCommitment "2026-01-01T00:10:00Z"] := rfl
  have hone : ∀ n : Node, n.run [.commit sampleSealedCommitment "2026-01-01T00:10:00Z"] =
      (n.commit sampleSealedCommitment "2026-01-01T00:10:00Z").1 := fun _ => rfl
  rw [hops, Node.run_append, sampleFunded_eq, hone]
  unfold Node.commit
  rw [toOk_eq_some hepoch]
  dsimp only
  rw [hdrain]
  show (sampleSealSettled.post (Log.checkCommit sampleFunded.log sampleSealedCommitment) _ _ _ _).1 = _
  rw [sampleFunded_check]
  rfl

/-- A sixth peer ranks in front of a holder. -/
def sampleDisplaced : Node :=
  sampleCommitted.append .peer sampleLatePeer.toValue "2026-01-01T00:10:00Z"

theorem sampleCommitted_log : ∃ e, sampleCommitted.log = sampleFunded.log ++ [e] ∧
    e.kind = EntryKind.commitment.asStr ∧ e.payload = sampleSealedCommitment.toValue ∧
      e.ts = "2026-01-01T00:10:00Z" :=
  ⟨_, rfl, rfl, rfl, rfl⟩

theorem sampleCommitted_peers : Log.peersWithin sampleCommitted.log sampleCommitted.log.length =
    sampleSeats.foldl Log.peerStep .empty := by
  have hsettled : Log.peersWithin sampleSealSettled.log sampleSealSettled.log.length =
      Log.peersWithin sampleFunded.log 9 := by
    have hlength : sampleFunded.log.length = 9 := by decide
    rw [← hlength]
    rfl
  rw [← sampleFunded_peers, ← hsettled]
  exact Node.peersWithin_append_other _ (by decide)

theorem sampleDisplaced_eq : (Node.new (sampleLog [])).run
    (sampleSealOps ++ [.postPeer sampleLatePeer "2026-01-01T00:10:00Z"]) = sampleDisplaced := by
  have hone : ∀ n : Node, n.run [.postPeer sampleLatePeer "2026-01-01T00:10:00Z"] =
      (n.postPeer sampleLatePeer "2026-01-01T00:10:00Z").1 := fun _ => rfl
  obtain ⟨hvalid, hsigned⟩ := sampleSeats_publish sampleLatePeer List.mem_cons_self
  rw [Node.run_append, sampleCommitted_eq, hone]
  apply Node.postPeer_new _ hvalid hsigned
  rw [sampleCommitted_peers, ← Option.isNone_iff_eq_none]
  decide

/-- Everything behind the issuances is in one epoch, whoever is drawn. -/
theorem sampleDisplaced_log : ∃ e late, sampleDisplaced.log = sampleFunded.log ++ [e, late] ∧
    e.kind = EntryKind.commitment.asStr ∧ e.payload = sampleSealedCommitment.toValue ∧
      late.kind = EntryKind.peer.asStr ∧
        e.ts = "2026-01-01T00:10:00Z" ∧ late.ts = "2026-01-01T00:10:00Z" := by
  obtain ⟨e, hlog, hkind, hpayload, hts⟩ := sampleCommitted_log
  refine ⟨e, sampleCommitted.ledger.nextEntry EntryKind.peer.asStr sampleLatePeer.toValue
    "2026-01-01T00:10:00Z", ?_, hkind, hpayload, rfl, hts, rfl⟩
  show sampleCommitted.log ++ [_] = _
  rw [hlog, List.append_assoc]
  rfl

theorem sampleDisplaced_draw : Log.drawOrder sampleDisplaced.log 2945377 11 =
    [sampleSeatFive, sampleSeatTwo, sampleSeatOne, sampleLatePeer, sampleSeatFour,
      sampleSeatThree] := by
  obtain ⟨hvalid, hsigned⟩ := sampleSeats_publish sampleLatePeer List.mem_cons_self
  have hpeers : Log.peersWithin sampleDisplaced.log sampleDisplaced.log.length =
      Log.peerStep (sampleSeats.foldl Log.peerStep .empty) sampleLatePeer := by
    rw [← sampleCommitted_peers]
    exact Node.peersWithin_append_peer _ _ hvalid hsigned
  obtain ⟨e, late, hlog, -, -, -, he, hlate⟩ := sampleDisplaced_log
  obtain ⟨rest, hfunded, hrest, hts⟩ := sampleFunded_ts
  have hsame : ∀ x ∈ rest ++ [e, late], x.ts = "2026-01-01T00:10:00Z" := by
    intro x hx
    rw [List.mem_append, List.mem_cons, List.mem_singleton] at hx
    obtain hx | rfl | rfl := hx
    · exact hts x hx
    · exact he
    · exact hlate
  have hanchor := sampleSeal_anchor hsame
  have hlength : sampleFunded.log.length = 9 := by decide
  have heleven : sampleDisplaced.log.length = 11 := by
    rw [hlog, List.length_append, hlength]
    rfl
  rw [← List.append_assoc, ← hfunded, ← hlog, List.length_append, hrest] at hanchor
  rw [heleven] at hpeers
  unfold Log.drawOrder
  rw [hpeers, show 11 = 3 + (6 + [e, late].length) from rfl, hanchor]
  decide +kernel

theorem sampleDisplaced_guard : Log.custodyGuard sampleDisplaced.log 2945377 5 11 = 0 := by
  rw [Log.custodyGuard_eq, Log.committeeOfSize_eq, sampleDisplaced_draw]
  decide +kernel

/-- The holder's seat is gone, and the audit accuses the commitment that was
admitted when it was there. -/
theorem not_sealed : Log.Timely ((Node.new (sampleLog [])).run
      (sampleSealOps ++ [.postPeer sampleLatePeer "2026-01-01T00:10:00Z"])).log ∧
    Log.auditSealed ((Node.new (sampleLog [])).run
      (sampleSealOps ++ [.postPeer sampleLatePeer "2026-01-01T00:10:00Z"])).log ≠ [] := by
  rw [sampleDisplaced_eq]
  refine ⟨by decide +kernel, fun hclean => ?_⟩
  obtain ⟨e, late, hlog, hkind, hpayload, hpeer, -, -⟩ := sampleDisplaced_log
  have hnone : Log.ofKind sampleFunded.log .commitment = [] := by
    rw [← List.isEmpty_iff]
    decide
  have hlength : sampleDisplaced.log.length = 11 := by
    have hnine : sampleFunded.log.length = 9 := by decide
    rw [hlog, List.length_append, hnine]
    rfl
  have hsize : Log.committeeSizeAt sampleDisplaced.log 2945377 11 = 5 := by decide +kernel
  have hsupply : Log.declaresSupply sampleDisplaced.log = true := by decide
  have hlate : Log.ofKind [e, late] .commitment = [e] := by
    simp [Log.ofKind, hkind, hpeer]
  have hdecode : ∃ c, Commitment.fromValue e.payload = .ok c ∧
      c.objectiveId = sampleSealedCommitment.objectiveId ∧
      c.createdAt = sampleSealedCommitment.createdAt ∧ c.envelope.isSome := by
    have hread : (toOk (Commitment.fromValue sampleSealedCommitment.toValue)).any (fun c =>
        c.envelope.isSome) = true := by decide
    obtain ⟨c, hc, hsealed⟩ := (Option.any_eq_true ..).mp hread
    have hdecode := toOk_eq_some hc
    obtain ⟨hid, -, hcreated, -⟩ := Commitment.of_fromValue hdecode
    exact ⟨c, by rw [hpayload, hdecode], hid, hcreated, hsealed⟩
  obtain ⟨c, hdecode, hid, hcreated, henvelope⟩ := hdecode
  obtain ⟨envelope, henvelope⟩ := Option.isSome_iff_exists.mp henvelope
  have hepoch : epochOfTs c.createdAt = some 2945377 := by
    rw [hcreated]
    decide +kernel
  unfold Log.auditSealed at hclean
  rw [hlog, Log.ofKind_append, hnone, hlate, ← hlog] at hclean
  have hguarded := Log.guarded_of_auditSealed hclean hdecode henvelope hepoch hsupply
  have hreward : Log.sealedReward sampleDisplaced.log c = 1 := by
    obtain ⟨o, hknown, hreward, -⟩ := sampleFunded_objective
    have hobjectives : Log.objectives sampleDisplaced.log = Log.objectives sampleFunded.log := by
      rw [hlog]
      apply Log.objectives_append_of_none
      simp [Log.ofKind, hkind, hpeer]
    unfold Log.sealedReward
    rw [hobjectives, hid, hknown]
    show o.reward.toNat = 1
    rw [hreward]
    rfl
  rw [hlength, hsize, sampleDisplaced_guard, hreward] at hguarded
  exact absurd hguarded (by decide)

/-- Before anything is sealed, every peer may register. -/
theorem leavesSeats_of_unsealed (commitment : Commitment) (ts : String) (ops : List Op) {n : Node}
    (hops : ∀ op ∈ ops, op.kind ≠ .commitment) (hn : Log.ofKind n.log .commitment = []) :
    Node.RunMeets Node.LeavesSeats n (ops ++ [.commit commitment ts]) := by
  induction ops generalizing n with
  | nil => exact ⟨trivial, trivial⟩
  | cons op ops ih =>
    constructor
    · cases op with
      | postPeer record ts =>
        intro epoch hforce
        obtain ⟨⟨p, hp, -⟩, -⟩ := hforce
        unfold Log.commitments Log.decoded at hp
        rw [hn] at hp
        cases hp
      | _ => trivial
    · apply ih fun other hother => hops other (List.mem_cons_of_mem _ hother)
      obtain ⟨new, hgrown, hnew⟩ := n.step_write op
      rw [hgrown, Log.ofKind_append, hn, List.nil_append]
      apply Log.ofKind_eq_nil
      intro e he hkind
      obtain ((hpay | hpay) | hpay) | hpay | hpay := hnew e he
      all_goals rw [hpay, EntryKind.asStr_inj] at hkind
      · cases hkind
      · cases hkind
      · cases hkind
      · cases hkind
      · exact hops op List.mem_cons_self hkind

theorem sampleSeal_recordText {text : String} (h : Log.RecordTexts sampleCommitted.log text) :
    text ∈ [sampleSealObjective.toValue.canonicalString,
      sampleSealObjective.verifier.canonicalString] := by
  have hclaims : Log.claims sampleCommitted.log = [] := by
    rw [← List.isEmpty_iff]
    decide
  rcases h with ⟨p, hp, htext⟩ | ⟨p, hp, -⟩
  · have hobjective : p.2 = sampleSealObjective := by
      obtain ⟨hmem, hkind, hdecode⟩ := Log.mem_decoded.mp hp
      have hvalid : sampleSealObjective.validate = .ok () := by decide
      have hpayload : p.1.payload = sampleSealObjective.toValue := by
        have hnone : Log.ofKind sampleSeated.log .objective = [] := by
          rw [← List.isEmpty_iff]
          decide
        obtain ⟨e, hlog, hcommitment, -, -⟩ := sampleCommitted_log
        have hin := Log.mem_ofKind.mpr ⟨hmem, hkind⟩
        have hother : Log.ofKind [e] .objective = [] := by
          simp [Log.ofKind, hcommitment]
        unfold sampleFunded at hlog
        rw [Node.log_append] at hlog
        rw [hlog, Log.ofKind_append, Log.ofKind_append, hnone, hother, List.nil_append,
          List.append_nil, Log.mem_ofKind, List.mem_singleton] at hin
        rw [hin.1, Node.payload_nextEntry]
      rw [hpayload, Objective.fromValue_toValue,
        Objective.stripNulls_of_noNulls (Objective.noNulls_of_validate hvalid), hvalid] at hdecode
      exact (Except.ok.inj hdecode).symm
    rw [hobjective] at htext
    obtain rfl | rfl | ⟨block, hblock, -⟩ := htext
    · simp
    · simp
    · cases hblock
  · rw [hclaims] at hp
    cases hp

theorem run_sealed_sample :
    Log.auditSealed ((Node.new (sampleLog [])).run sampleSealOps).log = [] := by
  apply (Node.run_sealed (sampleLog []) rfl sampleSealOps ?_ ?_ ?_ ?_ ?_ ?_).2
  · rw [sampleCommitted_eq]
    apply noCollision_of_nodup _ fun _ => sampleSeal_recordText
    decide +kernel
  · rw [sampleCommitted_eq]
    decide
  · rw [sampleCommitted_eq]
    decide +kernel
  · exact sampleEnvelopeOf_value
  · decide
  · exact leavesSeats_of_unsealed sampleSealedCommitment "2026-01-01T00:10:00Z"
      (sampleSealIssuances ++ sampleSeats.map (fun r => .postPeer r "2026-01-01T00:10:00Z") ++
        [.postObjective sampleSealObjective "2026-01-01T00:10:00Z"])
      (n := Node.new (sampleLog [])) (by decide) rfl

end Sample

end Cairn.Ports
