import Cairn.Ports.Node.Replay
import Cairn.Ports.Node.Spending

/-!
# A drain called again

After a drain that stopped, the next one settles the epoch it stopped in again
and goes on from there. What both paid together is what the first would have
paid on a working disk.

One stop is not made good: between a frontier and what the move earned. The
claim finds its own score at the frontier and is never paid.
-/

namespace Cairn.Ports

open Cairn.Verified
open Cairn.Verified.AppendOnly
open Cairn.Ports.Canonical

namespace Log

/-! ## What payments leave as it was -/

theorem linksFrom_of_payments [Sha256] {log log' : List Entry}
    (h : ExtendsBy Node.IsPayment log log') (stopAt : Option UInt64) (head : String) :
    linksFrom stopAt head log' = linksFrom stopAt head log := by
  obtain ⟨new, rfl, hnew⟩ := h
  have hnone : ∀ head, linksFrom stopAt head new = [] := by
    induction new with
    | nil =>
      intro head
      rfl
    | cons e rest ih =>
      intro head
      have hkind : e.kind ≠ EntryKind.batch.asStr := by
        obtain hk | hk := hnew e (by simp)
        · rw [hk, ne_eq, EntryKind.asStr_inj]
          decide
        · rw [hk, ne_eq, EntryKind.asStr_inj]
          decide
      unfold linksFrom
      rw [if_pos hkind]
      exact ih (fun x hx => hnew x (by simp [hx])) head
  induction log generalizing head with
  | nil => exact hnone head
  | cons e rest ih =>
    rw [List.cons_append]
    unfold linksFrom
    rw [ih]
    cases payloadU64 e.payload "epoch" with
    | none => rfl
    | some epoch =>
      dsimp only
      rw [ih]

section Epochs

variable [Clock]

variable {log log' : List Entry}

theorem epochBeacon_of_payments (h : ExtendsBy Node.IsPayment log log') (hlog : Numbered log)
    (hlog' : Numbered log') (epoch : UInt64) :
    epochBeaconWithin log' epoch log'.length = epochBeaconWithin log epoch log.length := by
  unfold epochBeaconWithin
  rw [hlog.within, hlog'.within, Node.ofKind_payouts (h.mono fun _ he => .inl he) (by decide)]

variable [Sha256]

theorem anchorOfEpoch_of_payments (h : ExtendsBy Node.IsPayment log log') (hlog : Numbered log)
    (hlog' : Numbered log') (epoch : UInt64) :
    anchorOfEpoch log' epoch = anchorOfEpoch log epoch := by
  unfold anchorOfEpoch anchorOfEpochWithin
  rw [epochBeacon_of_payments h hlog hlog']
  unfold epochChainHeadBefore epochLinksBefore
  rw [List.take_length, List.take_length, linksFrom_of_payments h]

theorem batchOf_of_payments (h : ExtendsBy Node.IsPayment log log') (hlog : Numbered log)
    (hlog' : Numbered log') (epoch : UInt64) : batchOf log' epoch = batchOf log epoch := by
  unfold batchOf acceptedInEpoch
  rw [anchorOfEpoch_of_payments h hlog hlog',
    acceptedClaimsByEpoch_of_payouts (h.mono fun _ he => .inl he)]

end Epochs

end Log

namespace Node

variable [World]

open Log

/-! ## The epochs that are left -/

/-- A drain that did some of its epochs left the others, and a later drain
finds what both would have found. -/
theorem dueEpochs_resume {log log' log'' : List Entry} {now now' : UInt64} (hle : now ≤ now')
    {done rest : List UInt64} (hdue : dueEpochs log now = done ++ rest)
    (h' : ExtendsBy Node.IsPayout log log')
    (hdrained' : drainedEpochs log' = drainedEpochs log ++ done)
    (h'' : ExtendsBy Node.IsPayout log log'')
    (hdrained'' : drainedEpochs log'' = drainedEpochs log ++ (done ++ rest)) :
    dueEpochs log' now' = rest ++ dueEpochs log'' now' := by
  have hle' := UInt64.le_iff_toNat_le.mp hle
  have hsorted := pairwise_dueEpochs log now
  rw [hdue, List.pairwise_append] at hsorted
  obtain ⟨-, hrest, hcross⟩ := hsorted
  have hmem : ∀ epoch, epoch ∈ dueEpochs log now ↔ epoch ∈ done ∨ epoch ∈ rest := by
    intro epoch
    rw [hdue, List.mem_append]
  have hafter : ∀ settled ∈ rest, ∀ epoch ∈ dueEpochs log'' now', settled.toNat < epoch.toNat := by
    intro settled hsettled epoch hepoch
    rw [mem_dueEpochs, hdrained''] at hepoch
    exact UInt64.lt_iff_toNat_lt.mp (hepoch.2.2.2 settled (by simp [hsettled]))
  have : Std.Irrefl fun a b : UInt64 => a.toNat < b.toNat := ⟨fun a => lt_irrefl _⟩
  have : Std.Antisymm fun a b : UInt64 => a.toNat < b.toNat :=
    ⟨fun a b h h' => absurd h (lt_asymm h')⟩
  apply List.Pairwise.eq_of_mem_iff (pairwise_dueEpochs log' now')
    (List.pairwise_append.mpr ⟨hrest, pairwise_dueEpochs log'' now', hafter⟩)
  intro epoch
  rw [List.mem_append, mem_dueEpochs, mem_dueEpochs, hdrained', hdrained'',
    acceptedClaimsByEpoch_of_payouts h', acceptedClaimsByEpoch_of_payouts h'']
  have hdone : epoch ∈ dueEpochs log now ↔ _ := mem_dueEpochs
  rw [hmem] at hdone
  constructor
  · rintro ⟨hclaim, hfresh, hfinal, hlater⟩
    by_cases hin : epoch ∈ rest
    · exact .inl hin
    · right
      refine ⟨hclaim, by simpa [hin] using hfresh, hfinal, ?_⟩
      intro settled hsettled
      rw [← List.append_assoc, List.mem_append] at hsettled
      obtain hsettled | hsettled := hsettled
      · exact hlater settled hsettled
      · -- an epoch before one of the rest was due with it
        rw [UInt64.lt_iff_toNat_lt]
        by_contra hnot
        have hdue' := mem_dueEpochs.mp ((hmem settled).mpr (.inr hsettled))
        have hfinal' : satAdd epoch Clock.finalityEpochs < now.toNat := by
          have hmono : satAdd epoch Clock.finalityEpochs ≤ satAdd settled Clock.finalityEpochs := by
            unfold satAdd
            omega
          exact lt_of_le_of_lt hmono hdue'.2.2.1
        have hmine := hdone.mpr ⟨hclaim, fun h => hfresh (by simp [h]), hfinal',
          fun s hs => hlater s (by simp [hs])⟩
        obtain hmine | hmine := hmine
        · exact hfresh (by simp [hmine])
        · exact hin hmine
  · rintro (hin | ⟨hclaim, hfresh, hfinal, hlater⟩)
    · obtain ⟨hclaim, hfresh, hfinal, hlater⟩ := hdone.mp (.inr hin)
      refine ⟨hclaim, ?_, by omega, ?_⟩
      · rw [List.mem_append, not_or]
        refine ⟨hfresh, fun h => ?_⟩
        exact absurd (hcross epoch h epoch hin) (lt_irrefl _)
      · intro settled hsettled
        obtain hsettled | hsettled := List.mem_append.mp hsettled
        · exact hlater settled hsettled
        · exact UInt64.lt_iff_toNat_lt.mpr (hcross settled hsettled epoch hin)
    · refine ⟨hclaim, fun h => hfresh ?_, hfinal, fun s hs => hlater s ?_⟩
      · rw [← List.append_assoc]
        exact List.mem_append_left _ h
      · rw [← List.append_assoc]
        exact List.mem_append_left _ hs

variable {n m : Node} {ts : String} {claim : Claim} {objective : Objective} {ratchet : Ratchet}
  {e : Entry}

theorem drainedEpochs_settleEpoch (h : Steady n) (epoch : UInt64) (ts : String) :
    drainedEpochs (n.settleEpoch epoch ts).1.log = drainedEpochs n.log ++ [epoch] := by
  rw [settleEpoch_eq h, log_append, drainedEpochs_append,
    drainedEpochs_of_payments (settleBatch_log epoch ts _ n [])]
  simp [drainedEpochs, ofKind]

theorem drainedEpochs_settleEpochs (ts : String) (epochs : List UInt64) (h : Steady n) :
    drainedEpochs (settleEpochs ts n epochs).1.log = drainedEpochs n.log ++ epochs := by
  induction epochs generalizing n with
  | nil => rw [settleEpochs, List.append_nil]
  | cons epoch rest ih =>
    rw [settleEpochs_cons h, ih (h.settleEpoch epoch ts), drainedEpochs_settleEpoch h,
      List.append_assoc, List.singleton_append]

theorem numbered_append (h : Numbered n.log) (kind : EntryKind) (payload : Value) (ts : String) :
    Numbered (n.append kind payload ts).log := by
  rw [log_append]
  exact h.concat (n.seq_nextEntry_le _ _ _)

theorem numbered_settleOne (h : Numbered n.log) (claim : Claim) (epoch : UInt64)
    (consumed : List String) (ts : String) : Numbered (n.settleOne claim epoch consumed ts).1.log :=
  settleOne_log_induction (fun _ _ _ _ hm => numbered_append hm _ _ _) claim epoch consumed ts h

theorem numbered_settleEpoch (h : Numbered n.log) (epoch : UInt64) (ts : String) :
    Numbered (n.settleEpoch epoch ts).1.log := by
  apply settleEpoch_induction (P := fun m => Numbered m.log) _ _ epoch h
  · intro start m claim epoch consumed _ _ hm
    exact numbered_settleOne hm claim epoch consumed ts
  · intro m epoch anchor order hm
    exact numbered_append hm _ _ _

variable {epoch : UInt64} {consumed : List String}

theorem StoppedIn.numbered {batch : List Claim}
    (h : StoppedIn epoch ts n consumed batch m) (hn : Numbered n.log) : Numbered m.log := by
  induction h with
  | atRecord => exact hn
  | atClaim stops =>
    cases stops with
    | before => exact hn
    | scanned =>
      rw [log_paidUnitKeys]
      exact hn
    | moved => exact numbered_append hn _ _ _
  | later _ _ ih => exact ih (numbered_settleOne hn _ _ _ _)

/-! ## Going on from a stop -/

/-- Every call of the drain is noted first. -/
def called (n : Node) (now : UInt64) : Node :=
  { n with drains := n.drains ++ [{ length := n.log.length, now := now }] }

theorem settleDue_eq (n : Node) (now : UInt64) (ts : String) :
    n.settleDue now ts = settleEpochs ts (n.called now) (dueEpochs n.log now) := rfl

theorem Steady.called (h : Steady n) (now : UInt64) : Steady (n.called now) :=
  ⟨h.named, ⟨h.units.index, h.units.settled, h.units.sound, h.units.disjoint, h.units.complete⟩,
    h.pools⟩

/-- No batch of the epochs a drain settles names a unit in two jobs. -/
def UnsharedIn (ts : String) (n : Node) (epochs : List UInt64) : Prop :=
  ∀ done epoch rest, epochs = done ++ epoch :: rest →
    Unshared (settleEpochs ts n done).1.log (batchOf (settleEpochs ts n done).1.log epoch)

/-- The epoch a drain stopped in pays the same when it is settled again. -/
theorem StoppedAt.again {epochs : List UInt64} (h : StoppedAt ts n epochs m) (hn : Steady n)
    (hnum : Numbered n.log) (hunshared : UnsharedIn ts n epochs) (hpaid : FrontiersPaid m.log)
    (ts' : String) :
    ∃ done epoch rest, epochs = done ++ epoch :: rest ∧ Steady m ∧
      ExtendsBy IsPayment (settleEpochs ts n done).1.log m.log ∧
      ∀ r : Node, Steady r → r.log = m.log →
        Twin ((settleEpochs ts n done).1.settleEpoch epoch ts).1.log
          (r.settleEpoch epoch ts').1.log := by
  induction h with
  | @inEpoch n m epoch rest stops =>
    have hclaims : ∀ c ∈ batchOf n.log epoch, ∃ e, (e, c) ∈ Log.claims n.log :=
      fun c hc => exists_claim_of_mem_batchOf hc (.refl _)
    obtain ⟨hm, honward⟩ := stops.steady hn hclaims hpaid
    refine ⟨[], epoch, rest, rfl, hm, honward.payments, ?_⟩
    intro r hr hlog
    have hnum' : Numbered r.log := hlog ▸ stops.numbered hnum
    have hpayments : ExtendsBy IsPayment n.log r.log := hlog ▸ honward.payments
    have hreplay : Twin (settleBatch epoch ts n [] (batchOf n.log epoch)).1.log
        (settleBatch epoch ts' r [] (batchOf n.log epoch)).1.log :=
      stops.replay hn hclaims (hunshared [] epoch rest rfl) hpaid ts' r [] hr hlog
        fun c _ => consumedAlike_refl m.log c []
    show Twin (n.settleEpoch epoch ts).1.log _
    rw [settleEpoch_eq hn, settleEpoch_eq hr, batchOf_of_payments hpayments hnum hnum',
      anchorOfEpoch_of_payments hpayments hnum hnum', log_append, log_append]
    exact hreplay.concat (.inr rfl) (.inr rfl) rfl
  | @later n m epoch rest outcomes settles stops ih =>
    have hunshared' : UnsharedIn ts (n.settleEpoch epoch ts).1 rest := by
      intro done epoch' rest' hsplit
      have hbatch := hunshared (epoch :: done) epoch' rest' (by rw [hsplit, List.cons_append])
      rw [settleEpochs_cons hn] at hbatch
      exact hbatch
    obtain ⟨done, epoch', rest', hsplit, hm, hpayments, hagain⟩ :=
      ih (hn.settleEpoch epoch ts) (numbered_settleEpoch hnum epoch ts) hunshared' hpaid
    refine ⟨epoch :: done, epoch', rest', by rw [hsplit, List.cons_append], hm, ?_⟩
    rw [settleEpochs_cons hn]
    exact ⟨hpayments, hagain⟩

theorem settleEpochs_payouts (ts : String) (n : Node) (epochs : List UInt64) :
    ExtendsBy IsPayout n.log (settleEpochs ts n epochs).1.log :=
  log_settleEpochs_extends n epochs ts

/-- A drain that did not stop in the middle of a move is completed by the
next one. -/
theorem StoppedAt.resume {now now' : UInt64} (hle : now ≤ now')
    (h : StoppedAt ts (n.called now) (dueEpochs n.log now) m) (hn : Steady n)
    (hnum : Numbered n.log) (hunshared : UnsharedIn ts (n.called now) (dueEpochs n.log now))
    (hpaid : FrontiersPaid m.log) (ts' : String) :
    Twin ((n.settleDue now ts).1.settleDue now' ts').1.log (m.settleDue now' ts').1.log := by
  have hcalled := hn.called now
  obtain ⟨done, epoch, rest, hsplit, hm, hpayments, hagain⟩ :=
    h.again hcalled hnum hunshared hpaid ts'
  have hstart := Steady.settleEpochs hcalled done ts
  have hfull : (n.settleDue now ts).1 = (settleEpochs ts
      ((settleEpochs ts (n.called now) done).1.settleEpoch epoch ts).1 rest).1 := by
    rw [settleDue_eq, hsplit, settleEpochs_append ts done _ hcalled, settleEpochs_cons hstart]
  have hsteady : Steady (n.settleDue now ts).1 := Steady.settleEpochs hcalled _ ts
  -- the second drain finds the epoch that was cut, and what both would have found
  have hresume : dueEpochs m.log now' =
      (epoch :: rest) ++ dueEpochs (n.settleDue now ts).1.log now' := by
    apply dueEpochs_resume hle hsplit
    · exact (settleEpochs_payouts ts (n.called now) done).trans
        (hpayments.mono fun _ he => .inl he)
    · rw [drainedEpochs_of_payments hpayments]
      exact drainedEpochs_settleEpochs ts done hcalled
    · exact n.settleDue_log now ts
    · rw [← hsplit]
      exact drainedEpochs_settleEpochs ts _ hcalled
  have hcalled' := hm.called now'
  have hepoch := hagain (m.called now') hcalled' rfl
  have hrest := settleEpochs_twin ts ts' rest (hstart.settleEpoch epoch ts)
    (hcalled'.settleEpoch epoch ts') hepoch
  rw [← hfull] at hrest
  rw [settleDue_eq m, hresume, List.cons_append, settleEpochs_cons hcalled',
    settleEpochs_append ts' rest _ (hcalled'.settleEpoch epoch ts'), settleDue_eq]
  exact settleEpochs_twin ts' ts' _ (hsteady.called now')
    (Steady.settleEpochs (hcalled'.settleEpoch epoch ts') rest ts') hrest

/-! ## A payment that is lost -/

/-- A claim whose own score stands at the frontier, and that was not paid. -/
structure Lost (n : Node) (claim : Claim) (objective : Objective) (ratchet : Ratchet) : Prop where
  known : (Log.objectives n.log).get? claim.objectiveId = some objective
  isRatchet : ∃ block, objective.ratchet = some block ∧ Ratchet.fromValue block = .ok ratchet
  frontier : ∃ held, latestFrontier n.log claim.objectiveId = .ok held ∧
    ∀ score, (n.settlingVerdict claim).score = some score →
      ratchet.progress score ≤ heldProgress ratchet held
  unpaid : claim.id ∉ settledIds n.log

/-- What settling a claim leaves of a frontier that can be read can be read. -/
theorem latestFrontier_settleOne {id : String} {held : Option FrontierEntry}
    (h : latestFrontier n.log id = .ok held) (claim : Claim) (epoch : UInt64)
    (consumed : List String) (ts : String) :
    ∃ held', latestFrontier (n.settleOne claim epoch consumed ts).1.log id = .ok held' := by
  generalize hres : n.settleOne claim epoch consumed ts = res
  have hcases := n.settleOne_settled claim epoch consumed ts
  rw [hres] at hcases
  cases hcases with
  | unpaid => exact ⟨held, h⟩
  | unpaidUnit =>
    rw [log_paidUnitKeys]
    exact ⟨held, h⟩
  | overflowed => exact ⟨held, h⟩
  | whole =>
    rw [latestFrontier_pay]
    exact ⟨held, h⟩
  | @improved _ _ _ _ score reward paid =>
    rw [latestFrontier_recordMove]
    by_cases hid : claim.objectiveId = id
    · subst hid
      exact ⟨_, latestFrontier_advance n claim score paid ts⟩
    · rw [latestFrontier_advance_of_ne _ _ _ _ _ hid]
      exact ⟨held, h⟩
  | unit =>
    show ∃ held', latestFrontier ((n.paidUnitKeys _ _).1.pay claim _ ts).log id = .ok held'
    rw [latestFrontier_pay, log_paidUnitKeys]
    exact ⟨held, h⟩

theorem Lost.stalls (h : Lost n claim objective ratchet) (epoch : UInt64) (consumed : List String)
    (ts : String) : (n.settleOne claim epoch consumed ts).1 = n := by
  obtain ⟨block, hblock, hparse⟩ := h.isRatchet
  obtain ⟨held, hheld, hscore⟩ := h.frontier
  rw [settleOne_ratchet h.known hblock hparse hheld]
  refine (settleImprovement_stalls ts ?_).1
  intro score hreported
  rw [Bool.eq_false_iff, ne_eq, Ratchet.improves_iff]
  have hmin := Ratchet.minImprovement_pos_of_validate (Ratchet.fromValue_valid hparse)
  have hle := hscore score hreported
  unfold heldProgress at hle
  omega

/-- Settling a claim, this one or another, pays nothing for this one. -/
theorem Lost.settleOne {c d : Claim} (h : Lost n c objective ratchet) (hstable : StableClaims n.log)
    {e' : Entry} (hc : (e, c) ∈ Log.claims n.log) (hd : (e', d) ∈ Log.claims n.log) (epoch : UInt64)
    (consumed : List String) (ts : String) :
    Lost (n.settleOne d epoch consumed ts).1 c objective ratchet := by
  by_cases hid : d.id = c.id
  · have hsame : d = c := hstable _ hd _ hc hid
    rw [hsame, h.stalls]
    exact h
  · have honward := n.settleOne_onward d epoch consumed ts
    obtain ⟨block, hblock, hparse⟩ := h.isRatchet
    obtain ⟨held, hheld, hscore⟩ := h.frontier
    obtain ⟨held', hheld'⟩ := latestFrontier_settleOne hheld d epoch consumed ts
    constructor
    · rw [Log.objectives_of_payments honward.payments]
      exact h.known
    · exact ⟨block, hblock, hparse⟩
    · refine ⟨held', hheld', ?_⟩
      intro score hreported
      rw [settlingVerdict_of_payments honward.payments] at hreported
      exact (hscore score hreported).trans
        (honward.frontier _ _ _ _ _ _ h.known hblock hparse hheld hheld')
    · obtain hsame | hmore := (n.settleOne_settled d epoch consumed ts).settledIds
      · rw [hsame]
        exact h.unpaid
      · rw [hmore, List.mem_append, List.mem_singleton, not_or]
        exact ⟨h.unpaid, fun heq => hid heq.symm⟩

theorem Lost.append_batch (h : Lost n claim objective ratchet) (epoch : UInt64) (anchor : String)
    (order : List String) (ts : String) :
    Lost (n.append .batch (batchValue epoch anchor order) ts) claim objective ratchet := by
  have hext : ExtendsBy IsPayout n.log (n.append .batch (batchValue epoch anchor order) ts).log :=
    (ExtendsBy.refl _).concat (.inr rfl)
  have hfrontiers : latestFrontier (n.append .batch (batchValue epoch anchor order) ts).log
      claim.objectiveId = latestFrontier n.log claim.objectiveId := by
    rw [latestFrontier_eq, latestFrontier_eq, log_append, frontiersOf_append]
    simp [frontiersOf, ofKind]
  constructor
  · unfold Log.objectives decoded
    rw [ofKind_payouts hext (by decide)]
    exact h.known
  · exact h.isRatchet
  · rw [hfrontiers]
    unfold settlingVerdict recordedVerdict
    rw [ofKind_payouts hext (by decide)]
    exact h.frontier
  · rw [log_append, settledIds_append, settledIds_of_ne (by simp), List.append_nil]
    exact h.unpaid

/-- No drain pays for it. -/
theorem Lost.settleDue (h : Lost n claim objective ratchet) (hstable : StableClaims n.log)
    (hclaim : (e, claim) ∈ Log.claims n.log) (now : UInt64) (ts : String) :
    claim.id ∉ settledIds (n.settleDue now ts).1.log := by
  have hkept : ExtendsBy IsPayout n.log (n.settleDue now ts).1.log ∧
      Lost (n.settleDue now ts).1 claim objective ratchet := by
    apply settleDue_induction (P := fun m => ExtendsBy IsPayout n.log m.log ∧
      Lost m claim objective ratchet)
    · rintro m call ⟨hext, hm⟩
      exact ⟨hext, hm.known, hm.isRatchet, hm.frontier, hm.unpaid⟩
    · rintro start m d epoch consumed hbatch hstart ⟨hext, hm⟩
      obtain ⟨e', hd⟩ := exists_claim_of_mem_batchOf hbatch hstart
      have hclaims := claims_of_payouts hext
      have hstable' : StableClaims m.log := by
        unfold StableClaims
        rw [hclaims]
        exact hstable
      have hclaim' : (e, claim) ∈ Log.claims m.log := by
        rw [hclaims]
        exact hclaim
      exact ⟨hext.trans ((m.settleOne_log d epoch consumed ts).mono fun e he => .inl he),
        hm.settleOne hstable' hclaim' hd epoch consumed ts⟩
    · rintro m epoch anchor order ⟨hext, hm⟩
      exact ⟨hext.concat (.inr rfl), hm.append_batch epoch anchor order ts⟩
    · exact ⟨.refl _, h⟩
  exact hkept.2.unpaid

theorem settlingVerdict_advance (n : Node) (claim c : Claim) (score : Int64)
    (paidCumulative : UInt64) (ts : String) :
    (n.advance claim score paidCumulative ts).settlingVerdict c = n.settlingVerdict c :=
  settlingVerdict_of_payments ((ExtendsBy.refl _).concat (.inr rfl)) c

/-- A move cut in half is lost, and would have been paid. -/
theorem Stopped.lost
    (h : Stopped n claim epoch consumed ts m) (hn : Steady n)
    (hclaim : (e, claim) ∈ Log.claims n.log) (hfresh : claim.id ∉ settledIds n.log)
    (hnot : ¬FrontiersPaid m.log) :
    ∃ objective ratchet, Lost m claim objective ratchet ∧ ExtendsBy IsPayment n.log m.log ∧
      claim.id ∈ settledIds (n.settleOne claim epoch consumed ts).1.log := by
  cases h with
  | before => exact absurd hn.pools.frontiersPaid hnot
  | scanned known isJob parses =>
    exact absurd (hn.paidUnitKeys hclaim known isJob parses).pools.frontiersPaid hnot
  | @moved objective block ratchet held score reward paid known isRatchet parses frontier scores
      adds pays full =>
      have hext : ExtendsBy IsPayment n.log (n.advance claim score paid ts).log :=
        (ExtendsBy.refl _).concat (.inr rfl)
      refine ⟨objective, ratchet, ⟨?_, ⟨block, isRatchet, parses⟩, ?_, ?_⟩, hext, ?_⟩
      · rw [Log.objectives_of_payments hext]
        exact known
      · refine ⟨_, latestFrontier_advance n claim score paid ts, ?_⟩
        intro score' hscore'
        rw [settlingVerdict_advance, scores] at hscore'
        cases hscore'
        exact le_rfl
      · rw [advance, log_append, settledIds_append, settledIds_of_ne (by simp), List.append_nil]
        exact hfresh
      · rw [full]
        exact settledIds_pay _ claim reward ts

theorem StoppedIn.lost {ts : String} {n m : Node}
    {batch : List Claim} (h : StoppedIn epoch ts n consumed batch m) (hn : Steady n)
    (hclaims : ∀ c ∈ batch, ∃ e, (e, c) ∈ Log.claims n.log) (hids : (batch.map Claim.id).Nodup)
    (hfresh : ∀ c ∈ batch, c.id ∉ settledIds n.log) (hnot : ¬FrontiersPaid m.log) :
    ∃ claim ∈ batch, ∃ objective ratchet, Lost m claim objective ratchet ∧
      ExtendsBy IsPayment n.log m.log ∧
      claim.id ∈ settledIds (settleBatch epoch ts n consumed batch).1.log := by
  induction h with
  | atRecord => exact absurd hn.pools.frontiersPaid hnot
  | @atClaim n m consumed claim rest stops =>
    obtain ⟨e, hclaim⟩ := hclaims claim (by simp)
    obtain ⟨objective, ratchet, hlost, hext, hpaid⟩ :=
      stops.lost hn hclaim (hfresh claim (by simp)) hnot
    obtain ⟨outcome, hok⟩ := settleOne_ok hn.pools claim epoch consumed ts
    refine ⟨claim, by simp, objective, ratchet, hlost, hext, ?_⟩
    rw [settleBatch_cons rest hok]
    exact settledIds_of_extends (settleBatch_log epoch ts rest _ _) hpaid
  | @later n m consumed claim rest outcome settles stops ih =>
    obtain ⟨e, hclaim⟩ := hclaims claim (by simp)
    have hext := n.settleOne_payments claim epoch consumed ts
    rw [List.map_cons, List.nodup_cons] at hids
    have hfresh' : ∀ c ∈ rest, c.id ∉ settledIds (n.settleOne claim epoch consumed ts).1.log := by
      intro c hc
      have hold := hfresh c (by simp [hc])
      have hne : c.id ≠ claim.id := fun heq => hids.1 (heq ▸ List.mem_map_of_mem hc)
      obtain hsame | hmore := (n.settleOne_settled claim epoch consumed ts).settledIds
      · rw [hsame]
        exact hold
      · rw [hmore, List.mem_append, List.mem_singleton, not_or]
        exact ⟨hold, hne⟩
    obtain ⟨lost, hmem, objective, ratchet, hlost, hext', hpaid⟩ :=
      ih (hn.settleOne hclaim epoch consumed ts) (by
        intro c hc
        rw [claims_of_payments hext]
        exact hclaims c (by simp [hc])) hids.2 hfresh' hnot
    refine ⟨lost, by simp [hmem], objective, ratchet, hlost,
      (n.settleOne_log claim epoch consumed ts).trans hext', ?_⟩
    rw [settleBatch_cons rest settles]
    exact hpaid

theorem settledIds_settleEpoch (h : Steady n) (epoch : UInt64) (ts : String) :
    settledIds (n.settleEpoch epoch ts).1.log =
      settledIds (settleBatch epoch ts n [] (batchOf n.log epoch)).1.log := by
  rw [settleEpoch_eq h, log_append, settledIds_append, settledIds_of_ne (by simp), List.append_nil]

/-- A drain that stopped in the middle of a move lost a payment. -/
theorem StoppedAt.lost {epochs : List UInt64} (h : StoppedAt ts n epochs m) (hn : Steady n)
    (honce : PaidOnce n.log) (hnodup : epochs.Nodup)
    (hfresh : ∀ epoch ∈ epochs, epoch ∉ drainedEpochs n.log) (hnot : ¬FrontiersPaid m.log) :
    ∃ e claim objective ratchet, (e, claim) ∈ Log.claims m.log ∧ StableClaims m.log ∧
      Lost m claim objective ratchet ∧ claim.id ∈ settledIds (settleEpochs ts n epochs).1.log := by
  induction h with
  | @inEpoch n m epoch rest stops =>
    have hunsettled : ∀ c ∈ batchOf n.log epoch, c.id ∉ settledIds n.log := by
      intro c hc hid
      obtain ⟨epoch', hepoch', hdrained⟩ := honce.drained _ hid
      rw [claimEpoch_of_mem_batchOf hc] at hepoch'
      cases hepoch'
      exact hfresh epoch (by simp) hdrained
    obtain ⟨claim, hmem, objective, ratchet, hlost, hext, hpaid⟩ := stops.lost hn
      (fun c hc => exists_claim_of_mem_batchOf hc (.refl _)) (nodup_ids_batchOf _ _) hunsettled
      hnot
    obtain ⟨e, hclaim⟩ := exists_claim_of_mem_batchOf hmem hext
    have hclaims := claims_of_payouts (hext.mono fun _ he => Or.inl he)
    refine ⟨e, claim, objective, ratchet, hclaim, ?_, hlost, ?_⟩
    · unfold StableClaims
      rw [hclaims]
      exact hn.named.stableClaims
    · rw [settleEpochs_cons hn]
      apply settledIds_of_extends (settleEpochs_payouts ts _ rest)
      rw [settledIds_settleEpoch hn]
      exact hpaid
  | @later n m epoch rest outcomes settles stops ih =>
    rw [List.nodup_cons] at hnodup
    have hepoch := settleEpoch_once ts hn.pools honce (hfresh epoch (by simp))
    rw [settleEpochs_cons hn]
    apply ih (hn.settleEpoch epoch ts) hepoch.2.1 hnodup.2 _ hnot
    intro later hlater
    rw [drainedEpochs_settleEpoch hn, List.mem_append, List.mem_singleton, not_or]
    exact ⟨hfresh later (by simp [hlater]), fun heq => hnodup.1 (heq ▸ hlater)⟩

end Node

namespace Log

/-! ## What a failure must not change -/

/-- The claim and the amount of every settlement. -/
def settlements (log : List Entry) : List (Option String × Option UInt64) :=
  (ofKind log .settlement).map fun e =>
    (payloadStr e.payload "claim_id", payloadU64 e.payload "reward")

/-- The same settlements, the same frontiers, the same batches. -/
structure SettledAlike (log log' : List Entry) : Prop where
  settlements : ∀ paid, paid ∈ settlements log ↔ paid ∈ settlements log'
  frontiers : ∀ objectiveId, latestFrontier log objectiveId = latestFrontier log' objectiveId
  batches : (ofKind log .batch).map Entry.payload = (ofKind log' .batch).map Entry.payload

theorem SettledAlike.refl (log : List Entry) : SettledAlike log log :=
  ⟨fun _ => Iff.rfl, fun _ => rfl, rfl⟩

theorem settledAlike_of_twin {log log' : List Entry} (h : Twin log log') : SettledAlike log log' where
  settlements := by
    have hpayloads := congrArg (List.map fun payload =>
      (payloadStr payload "claim_id", payloadU64 payload "reward")) (h.map_payload_ofKind .settlement)
    rw [List.map_map, List.map_map] at hpayloads
    intro paid
    unfold Log.settlements
    exact iff_of_eq (congrArg (paid ∈ ·) hpayloads)
  frontiers := by
    intro objectiveId
    have hpayments : jobPayments [objectiveId] log = jobPayments [objectiveId] log' := by
      unfold jobPayments
      rw [h.records]
    exact (queries_of_jobPayments hpayments (List.mem_singleton_self _)).1
  batches := h.map_payload_ofKind .batch

/-- Who was paid can be read off the settlements. -/
theorem SettledAlike.settledIds {log log' : List Entry} (h : SettledAlike log log') {id : String}
    (hid : id ∈ settledIds log) : id ∈ Log.settledIds log' := by
  unfold Log.settledIds at hid ⊢
  rw [List.mem_filterMap] at hid ⊢
  obtain ⟨e, he, hclaim⟩ := hid
  obtain ⟨e', he', heq⟩ := List.mem_map.mp ((h.settlements _).mp (List.mem_map_of_mem he))
  refine ⟨e', he', ?_⟩
  rw [← hclaim]
  exact congrArg Prod.fst heq

end Log

namespace Node

variable [World]

open Log

variable {n m : Node} {ts : String}

theorem Steady.settleDue (h : Steady n) (now : UInt64) (ts : String) :
    Steady (n.settleDue now ts).1 := by
  rw [settleDue_eq]
  exact Steady.settleEpochs (h.called now) _ ts

theorem settleDueOn_resume {now now' : UInt64} (hle : now ≤ now') (hn : Steady n)
    (hnum : Numbered n.log) {room : Nat} (hm : (n.settleDueOn room now ts).1 = m)
    (hunshared : UnsharedIn ts (n.called now) (dueEpochs n.log now)) (hpaid : FrontiersPaid m.log)
    (ts' : String) :
    SettledAlike ((n.settleDue now ts).1.settleDue now' ts').1.log
      (m.settleDue now' ts').1.log := by
  subst hm
  obtain hworks | ⟨-, hstops⟩ := settleDueOn_cases room n now ts
  · rw [hworks]
    apply SettledAlike.refl
  · exact settledAlike_of_twin (hstops.resume hle hn hnum hunshared hpaid ts')

theorem settleDueOn_loses (hn : Steady n) (honce : PaidOnce n.log) {room : Nat} {now : UInt64}
    (hm : (n.settleDueOn room now ts).1 = m) (hnot : ¬FrontiersPaid m.log) (now' : UInt64)
    (ts' : String) :
    ¬SettledAlike ((n.settleDue now ts).1.settleDue now' ts').1.log
      (m.settleDue now' ts').1.log := by
  subst hm
  obtain hworks | ⟨-, hstops⟩ := settleDueOn_cases room n now ts
  · rw [hworks] at hnot
    have hsteady := hn.settleDue now ts
    exact absurd hsteady.pools.frontiersPaid hnot
  · obtain ⟨e, claim, objective, ratchet, hclaim, hstable, hlost, hpaid⟩ :=
      hstops.lost (hn.called now) honce (nodup_dueEpochs _ _)
        (fun epoch hepoch => (mem_dueEpochs.mp hepoch).2.1) hnot
    intro hsettled
    apply hlost.settleDue hstable hclaim now' ts'
    apply hsettled.settledIds
    exact settledIds_of_extends ((n.settleDue now ts).1.settleDue_log now' ts') hpaid

theorem StoppedIn.payments {epoch : UInt64} {consumed : List String} {batch : List Claim}
    (h : StoppedIn epoch ts n consumed batch m) : ExtendsBy IsPayment n.log m.log := by
  induction h with
  | atRecord => exact .refl _
  | atClaim stops =>
    cases stops with
    | before => exact .refl _
    | scanned =>
      rw [log_paidUnitKeys]
      exact .refl _
    | moved => exact (ExtendsBy.refl _).concat (.inr rfl)
  | later _ _ ih => exact (settleOne_log _ _ _ _ _).trans ih

theorem StoppedAt.payouts {epochs : List UInt64} (h : StoppedAt ts n epochs m) :
    ExtendsBy IsPayout n.log m.log := by
  induction h with
  | inEpoch stops => exact stops.payments.mono fun _ he => .inl he
  | @later n m epoch rest outcomes settles stops ih =>
    have hepoch := settleEpochs_payouts ts n [epoch]
    rw [settleEpochs] at hepoch
    generalize n.settleEpoch epoch ts = res at settles hepoch ih
    obtain ⟨k, result⟩ := res
    cases settles
    exact hepoch.trans ih

/-- A drain appends nothing but payouts, wherever it stops. -/
theorem settleDueOn_payouts (room : Nat) (n : Node) (now : UInt64) (ts : String) :
    ExtendsBy IsPayout n.log (n.settleDueOn room now ts).1.log := by
  obtain hworks | ⟨-, hstops⟩ := settleDueOn_cases room n now ts
  · rw [hworks]
    exact n.settleDue_log now ts
  · exact hstops.payouts

end Node

/-! ## The sample, cut between a settlement and its batch -/

/-- The records of the run below and their entries, by the length of the text
that is hashed. -/
def sampleMoveDigests : List (Nat × Nat) :=
  [(79, 0x09318e5bede4cf9b29ab0f1c0cfd108deb3068dbc88c72147c4a17b5dc26d5ce),
    (114, 0xa6cd3b90f3c77a8c6ab7f2add449bcda1de0dbb71497913d8c94268488a371a5),
    (208, 0xba22b8e567bc2c2bfbdbe66c0f254e2c59089438fb20461874c19f730c199c73),
    (246, 0x886d12da97cf92bc5c1b8aa15bb3725093a7f51b2d7e1093cf586c6079ed23ee),
    (247, 0xfde56424df0dc18dbe47bd2fe4fc3bfe68bfdb9e22e3ad8bf768bbfea93570f1),
    (258, 0xf40cb9219adf4891db96ba50bab15cf828afc80e85148c7c4b1c7e0d07ba307e),
    (260, 0xfffc7361326a3fab8a60e32e2a3e215804de204de3b4e31247cc4a8acab90dc1),
    (325, 0x91d84a44aec31bb2f278c44a9eb0f18dc729c517208d7df001dd3290b117c731),
    (352, 0x57206b9ce446c4d9c0fc1d69d1ca8c218b7e9fade2b50921c5a887490a3a26fb),
    (355, 0xcdb0bdfbf11a4bd5b34d85c622d665c311d4a3b4cb04b038d80f4de4c21d6f52),
    (369, 0x5a82eab2388f77217cc5e9053b3c44ae6d0443a94739c3275ac289e2d18075bd),
    (386, 0xda4e53a8e28f8efc8e4db660e4c68a4c902b00b0de6226dd1745c47711474678),
    (396, 0xd02c89255cb1c4d77c006bd76aa2b8e6fbf5fd3d0e7016a8629a7989bc123232)]

@[reducible] def sampleMoveWorld : World :=
  { sampleWorld with toSha256 := .ofLengths sampleMoveDigests }

/-- A ratchet from zero to ten that pays one unit a point. -/
def sampleRatchetJob : Objective :=
  { sampleObjective with
    verifier := .object [("kind", .string "evaluator")]
    piecework := none
    ratchet := some (.object [("baseline", i64Value 0), ("direction", .string "maximize"),
      ("min_improvement", u64Value 1), ("reward", u64Value 10), ("target", i64Value 10)]) }

def sampleRatchetJobId : String :=
  "sha256:886d12da97cf92bc5c1b8aa15bb3725093a7f51b2d7e1093cf586c6079ed23ee"

def sampleMoveId : String :=
  "sha256:ba22b8e567bc2c2bfbdbe66c0f254e2c59089438fb20461874c19f730c199c73"

/-- The evaluator gives every artifact four points. -/
def sampleEvaluator : Registry where
  run _ _ := { status := .accept, detail := "", evidence := .object [("score", i64Value 4)] }
  transform _ _ _ value _ := .ok value

/-- Post the ratchet, commit to a claim and reveal it. -/
def sampleMoveOps : letI := sampleMoveWorld; List Op :=
  letI := sampleMoveWorld
  [.postObjective sampleRatchetJob "2026-01-01T00:00:00Z",
    .commit ⟨sampleRatchetJobId, "alice",
      "sha256:09318e5bede4cf9b29ab0f1c0cfd108deb3068dbc88c72147c4a17b5dc26d5ce",
      "2026-01-01T00:00:00Z", none, none⟩ "2026-01-01T00:00:00Z",
    .reveal sampleEvaluator { sampleClaim with objectiveId := sampleRatchetJobId }
      "2026-01-01T00:10:00Z"]

end Cairn.Ports
