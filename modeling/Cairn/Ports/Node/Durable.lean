import Cairn.Ports.Node.Bounded
import Cairn.Ports.Node.Spending
import Cairn.Ports.Node.Units

/-!
# What a run leaves where it was

A run numbers its entries by their positions and names only objectives it
holds. So whatever a run appends comes late: every bounded query keeps the
answer it gave when the position it is bounded by was the end of the log.
-/

namespace Cairn.Ports

open Cairn.Verified
open Cairn.Verified.AppendOnly
open Cairn.Ports.Canonical

namespace Log

/-! ## Time -/

/-- Timestamps that can be read do not decrease. -/
def Timely (log : List Entry) : Prop :=
  log.Pairwise fun a b =>
    ∀ s t, parseRfc3339 a.ts = some s → parseRfc3339 b.ts = some t → s ≤ t

instance : DecidablePred Timely := fun log =>
  decidable_of_iff
    (log.Pairwise fun a b => ∀ s ∈ parseRfc3339 a.ts, ∀ t ∈ parseRfc3339 b.ts, s ≤ t)
    ⟨fun h => h.imp fun hab s t hs ht => hab s hs t ht,
      fun h => h.imp fun hab s hs t ht => hab s t hs ht⟩

theorem epochAt_le {secondsPerEpoch : UInt64} {a b : String} {x y : UInt64}
    (h : ∀ s t, parseRfc3339 a = some s → parseRfc3339 b = some t → s ≤ t)
    (ha : epochAt secondsPerEpoch a = some x) (hb : epochAt secondsPerEpoch b = some y) :
    x ≤ y := by
  unfold epochAt at ha hb
  cases hs : parseRfc3339 a with
  | none => simp [hs] at ha
  | some s =>
    cases ht : parseRfc3339 b with
    | none => simp [ht] at hb
    | some t =>
      rw [hs] at ha
      rw [ht] at hb
      simp only [Option.ite_none_right_eq_some, Option.some.injEq] at ha hb
      obtain ⟨-, rfl⟩ := ha
      obtain ⟨-, rfl⟩ := hb
      rw [UInt64.le_iff_toNat_le]
      apply epochOf_mono
      have hle := h s t hs ht
      have hbound := parseRfc3339_lt ht
      rw [UInt64.toNat_ofNat', UInt64.toNat_ofNat', Nat.mod_eq_of_lt (by omega),
        Nat.mod_eq_of_lt (by omega)]
      omega

/-! ## Positions -/

/-- Every entry carries its position. -/
def Positioned (log : List Entry) : Prop :=
  ∀ (i : Nat) (e : Entry), log[i]? = some e → e.seq.toNat = i

theorem positioned_nil : Positioned [] := by
  intro i e h
  cases h

variable {e : Entry} {log before : List Entry}

theorem Positioned.concat (h : Positioned log) (hseq : e.seq.toNat = log.length) :
    Positioned (log ++ [e]) := by
  intro i x hx
  by_cases hi : i < log.length
  · rw [List.getElem?_append_left hi] at hx
    exact h i x hx
  · rw [List.getElem?_append_right (Nat.le_of_not_lt hi), List.getElem?_singleton] at hx
    split at hx
    · cases hx
      omega
    · cases hx

theorem Positioned.of_prefix {log' : List Entry} (h : Positioned log') (hp : log <+: log') :
    Positioned log := by
  obtain ⟨rest, rfl⟩ := hp
  intro i e he
  apply h i e
  rw [List.getElem?_append_left (List.getElem?_eq_some_iff.mp he).1]
  exact he

theorem Positioned.numbered (h : Positioned log) : Numbered log := by
  intro e he
  obtain ⟨i, hi, rfl⟩ := List.getElem_of_mem he
  rw [h i _ (List.getElem?_eq_getElem hi)]
  exact hi

/-- What comes later is numbered higher. -/
theorem Positioned.le_seq {rest : List Entry} (h : Positioned (before ++ rest)) (he : e ∈ rest) :
    before.length ≤ e.seq.toNat := by
  obtain ⟨i, hi, rfl⟩ := List.getElem_of_mem he
  have hat := h (before.length + i) rest[i] (by simp [hi])
  omega

/-- Numbered below a position is in front of it. -/
theorem Positioned.within_eq_take (h : Positioned log) (positions : Nat) :
    within log positions = log.take positions := by
  have hsplit : Positioned (log.take positions ++ log.drop positions) := by
    rw [List.take_append_drop]
    exact h
  have hkeep : within (log.take positions) positions = log.take positions := by
    apply within_of_le
    intro e he
    have hlt := (hsplit.of_prefix (List.prefix_append _ _)).numbered e he
    rw [List.length_take] at hlt
    omega
  have hdrop : within (log.drop positions) positions = [] := by
    unfold within
    rw [List.filter_eq_nil_iff]
    intro e he
    by_cases hlong : positions ≤ log.length
    · have hle := hsplit.le_seq he
      rw [List.length_take, Nat.min_eq_left hlong] at hle
      simpa using hle
    · rw [List.drop_eq_nil_of_le (by omega)] at he
      cases he
  rw [← List.take_append_drop positions log, within_append, hkeep, hdrop, List.append_nil,
    List.take_append_drop]

/-! ## The declared supply -/

/-- Issuance ends at the first entry of another kind. -/
theorem genesisPrefix_of_other {after : List Entry} (h : e.kind ≠ EntryKind.issuance.asStr) :
    genesisPrefix (before ++ e :: after) = genesisPrefix before := by
  unfold genesisPrefix
  rw [List.takeWhile_append]
  split
  · rw [List.takeWhile_cons_of_neg (by simpa using h), List.append_nil]
    omega
  · rfl

theorem declaresSupply_of_other {after : List Entry} (h : e.kind ≠ EntryKind.issuance.asStr) :
    declaresSupply (before ++ e :: after) = declaresSupply before := by
  unfold declaresSupply
  rw [genesisPrefix_of_other h]

end Log

/-! ## The fields of a commitment -/

section Commitments

variable [Envelopes]

/-- What an entry of a commitment gives back. -/
theorem Commitment.of_fromValue {c d : Commitment} (h : Commitment.fromValue c.toValue = .ok d) :
    d.objectiveId = c.objectiveId ∧ d.submitter = c.submitter ∧ d.createdAt = c.createdAt ∧
      Commitment.envelopeOf c.toValue = .ok d.envelope := by
  unfold Commitment.fromValue at h
  simp only [bind_eq_ok] at h
  obtain ⟨value, hvalue, envelope, henvelope, objectiveId, hid, submitter, hsubmitter, hash, -,
    createdAt, hcreated, signature, -, _, -, hret⟩ := h
  have hobject : expectObject c.toValue "commitment" = .ok c.toValue := expectObject_object _ _
  rw [hobject] at hvalue
  cases hvalue
  have hget : ∀ field text, c.toValue.get field = some (.string text) →
      requiredString c.toValue "commitment" field = .ok text := fun field text =>
    requiredString_of_get
  rw [hget _ c.objectiveId (by rw [Commitment.get_toValue]; simp [BTreeMap.lookupEntry])] at hid
  rw [hget _ c.submitter (by rw [Commitment.get_toValue]; simp [BTreeMap.lookupEntry])]
    at hsubmitter
  rw [hget _ c.createdAt (by rw [Commitment.get_toValue]; simp [BTreeMap.lookupEntry])]
    at hcreated
  cases hid
  cases hsubmitter
  cases hcreated
  cases hret
  exact ⟨rfl, rfl, rfl, henvelope⟩

end Commitments

namespace Node

variable [World]

/-! ## What every entry finds -/

variable {m n : Node} {before : List Entry}

/-- A log of a run is numbered by position; `append` refuses one more entry
than a sequence number can count. -/
theorem Reaches.positioned (hempty : n.log = []) (h : Reaches n m)
    (hfits : m.log.length ≤ UInt64.size) : Log.Positioned m.log := by
  apply h.log_induction (P := fun log => log.length ≤ UInt64.size → Log.Positioned log) _ _ hfits
  · intro k kind payload ts ih hlength
    rw [log_append] at hlength ⊢
    rw [List.length_append, List.length_singleton] at hlength
    apply (ih (by omega)).concat
    rw [seq_nextEntry, UInt64.toNat_ofNat']
    exact Nat.mod_eq_of_lt hlength
  · intro _
    rw [hempty]
    exact Log.positioned_nil

/-- A settlement is written under an objective the log holds. -/
theorem Reaches.settlement_known (hempty : n.log = []) (h : Reaches n m)
    (hids : Log.StableIds m.log) {after : List Entry} {e : Entry}
    (hlog : m.log = before ++ e :: after) (hkind : e.kind = EntryKind.settlement.asStr) :
    ∃ id, payloadStr e.payload "objective_id" = some id ∧
      ((Log.objectives before).get? id).isSome := by
  induction h generalizing before after with
  | refl => simp [hempty] at hlog
  | @write m kind payload ts _ admitted ih =>
    rw [log_append] at hlog hids
    obtain ⟨mid, hm⟩ | ⟨rfl, rfl⟩ := split_concat hlog
    · exact ih (hids.of_prefix (List.prefix_append _ _)) hm
    · exact absurd (EntryKind.asStr_inj.mp hkind) admitted.not_payout.1
  | @drain m now ts hm ih =>
    have hdrained : Reaches n (m.settleDue now ts).1 := hm.drain
    have hpools := hdrained.pools hempty hids
    obtain ⟨new, hgrown, hpayout⟩ := m.settleDue_log now ts
    rw [hgrown] at hlog hids hpools
    obtain ⟨mid, hfound, -⟩ | ⟨mid, hbefore, hnew⟩ := split_append hlog
    · exact ih (hids.of_prefix (List.prefix_append _ _)) hfound
    · have hnone : ∀ es, es ⊆ new → Log.ofKind es .objective = [] := by
        intro es hes
        apply Log.ofKind_eq_nil
        intro x hx
        obtain (hx | hx) | hx := hpayout x (hes hx) <;> rw [hx] <;> decide
      obtain ⟨id, hid, hknown⟩ := hpools.settlement e
        (Log.mem_ofKind.mpr ⟨by rw [hnew]; simp, hkind⟩)
      rw [Log.objectives_append_of_none (hnone new (List.Subset.refl _))] at hknown
      refine ⟨id, hid, ?_⟩
      rw [hbefore, Log.objectives_append_of_none (hnone mid (by rw [hnew]; simp))]
      exact hknown

/-- A commitment is written under an objective the log holds. -/
theorem Reaches.commitment_known (hempty : n.log = []) (h : Reaches n m) {after : List Entry}
    {e : Entry} (hlog : m.log = before ++ e :: after) (hkind : e.kind = EntryKind.commitment.asStr)
    {commitment : Commitment} (hdecode : Commitment.fromValue e.payload = .ok commitment) :
    ((Log.objectives before).get? commitment.objectiveId).isSome := by
  have hadmits := h.admitted_as hempty hlog hkind (by decide)
  generalize e.payload = payload at hadmits hdecode
  cases hadmits with
  | commitment declared check =>
    have hfields := Commitment.of_fromValue hdecode
    unfold Log.checkCommit at check
    simp only [bind_eq_ok, okOr_eq_ok] at check
    obtain ⟨objective, hknown, -⟩ := check
    rw [hfields.1, hknown]
    rfl

/-! ## Late appends -/

/-- Whatever follows in a reachable log comes late. -/
theorem Reaches.late (hempty : n.log = []) (h : Reaches n m) (hids : Log.StableIds m.log)
    (hfits : m.log.length ≤ UInt64.size) {rest : List Entry} (hlog : m.log = before ++ rest) :
    Log.Late before rest before.length := by
  have hpositioned := h.positioned hempty hfits
  rw [hlog] at hpositioned hids
  have hkept : ∀ {id : String}, ((Log.objectives before).get? id).isSome →
      (Log.objectives (before ++ rest)).get? id = (Log.objectives before).get? id := by
    intro id hknown
    obtain ⟨o, ho⟩ := Option.isSome_iff_exists.mp hknown
    rw [ho]
    exact hids.get?_append ho
  have hgrow : ∀ {xs ys : List Entry} {id : String}, before = xs ++ ys →
      ((Log.objectives xs).get? id).isSome → ((Log.objectives before).get? id).isSome := by
    intro xs ys id hsplit hknown
    obtain ⟨o, ho⟩ := Option.isSome_iff_exists.mp hknown
    have hstable : Log.StableIds (xs ++ ys) := by
      rw [← hsplit]
      exact hids.of_prefix (List.prefix_append _ _)
    rw [hsplit, hstable.get?_append ho]
    rfl
  constructor
  · exact le_rfl
  · intro kind _ e he
    exact hpositioned.le_seq (Log.mem_ofKind.mp he).1
  · intro e he objectiveId hid
    rw [List.take_length, Log.mem_ofKind] at he
    obtain ⟨xs, ys, hsplit⟩ := List.append_of_mem he.1
    have hwhole : m.log = xs ++ e :: (ys ++ rest) := by rw [hlog, hsplit]; simp
    obtain ⟨id, hid', hknown⟩ := h.settlement_known hempty (hlog ▸ hids) hwhole he.2
    rw [hid] at hid'
    cases hid'
    exact hkept (hgrow hsplit hknown)
  · intro p hp _
    rw [Log.mem_decoded, Log.mem_within] at hp
    obtain ⟨xs, ys, hsplit⟩ := List.append_of_mem hp.1.1
    have hwhole : m.log = xs ++ p.1 :: (ys ++ rest) := by rw [hlog, hsplit]; simp
    have hknown := h.commitment_known hempty hwhole hp.2.1 hp.2.2
    exact hkept (hgrow hsplit hknown)

/-! ## Conditions on the calls of a run -/

/-- Every call of a run meets a condition on the node it is made on. -/
def RunMeets (condition : Node → Op → Prop) : Node → List Op → Prop
  | _, [] => True
  | n, op :: ops => condition n op ∧ RunMeets condition (n.step op) ops

/-- What every call that meets a condition keeps, such a run keeps. -/
theorem run_induction {P : Node → Prop} {condition : Node → Op → Prop}
    (hstep : ∀ n op, P n → condition n op → P (n.step op)) (ops : List Op) (hn : P n)
    (hmeets : RunMeets condition n ops) : P (n.run ops) := by
  induction ops generalizing n with
  | nil => exact hn
  | cons op ops ih => exact ih (hstep n op hn hmeets.1) hmeets.2

end Node

end Cairn.Ports
