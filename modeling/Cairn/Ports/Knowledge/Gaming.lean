import Cairn.Ports.Knowledge.Graph

/-!
# What a further voice can do

Adding a voice to a snapshot of `src/knowledge.rs`. Voices are counted by the groups
they fall into, and a group is a connected component, so a voice that belongs to two
groups makes them one: a refutation can lower the number of refutations, and a
corroboration can do so too. A voice that joins one group at most only adds. A
retraction is heard from nobody but the key that submitted its target.
-/

namespace Cairn.Ports.Knowledge

open Cairn.Verified Cairn.Verified.Forest
open Cairn.Ports.Canonical

namespace KnowledgeGraph

/-! ## Standing and confidence -/

variable {c d r : UInt32} {standing : Standing}

theorem standingOf_eq_some {voices : Voices}
    (h : standingOf (some .accept) voices c r d = some standing) :
    standing.wasVerified = true ∧ (standing = .withdrawn ↔ voices.retractedBy ≠ none) ∧
      (standing = .superseded ↔
        voices.retractedBy = none ∧ voices.supersededBy.isEmpty = false) := by
  unfold standingOf at h
  rw [if_neg (by simp), if_neg (by simp)] at h
  cases hretracted : voices.retractedBy <;> cases hsuperseded : voices.supersededBy.isEmpty <;>
    simp only [hretracted, hsuperseded] at h ⊢ <;> grind [Standing.wasVerified]

theorem confidenceOf_congr {standing' : Standing}
    (hverified : standing.wasVerified = standing'.wasVerified)
    (hwithdrawn : standing = .withdrawn ↔ standing' = .withdrawn)
    (hsuperseded : standing = .superseded ↔ standing' = .superseded) (c r d : UInt32)
    (reproducible : Reproducible) (epoch asOfEpoch : UInt64) (policy : ConfidencePolicy) :
    confidenceOf standing c r d reproducible epoch asOfEpoch policy =
      confidenceOf standing' c r d reproducible epoch asOfEpoch policy := by
  simp only [confidenceOf, confidenceWithin, weigh, hverified, hwithdrawn, hsuperseded]

/-- Fewer voices for a claim and more against it give no higher number. -/
theorem confidenceOf_mono {c' r' d' : UInt32} {reproducible : Reproducible}
    {epoch asOfEpoch : UInt64} {policy : ConfidencePolicy} {v w : Nat}
    (hv : confidenceOf standing c r d reproducible epoch asOfEpoch policy = some v)
    (hw : confidenceOf standing c' r' d' reproducible epoch asOfEpoch policy = some w)
    (hc : c'.toNat ≤ c.toNat) (hr : r.toNat ≤ r'.toNat) (hd : d.toNat ≤ d'.toNat) : w ≤ v := by
  have hmul := Nat.mul_le_mul_right policy.perCorroboration.toNat hc
  have hbelow : Reading.Below ⟨standing, c, r, d, reproducible, epoch, asOfEpoch, policy⟩
      ⟨standing, c', r', d', reproducible, epoch, asOfEpoch, policy⟩ :=
    { standing := rfl
      reproducible := rfl
      policy := rfl
      credit := by
        unfold Reading.credit
        dsimp only
        omega
      debit := Nat.add_le_add (Nat.mul_le_mul_right _ hr) (Nat.mul_le_mul_right _ hd)
      elapsed := .inl rfl }
  exact @Reading.confidenceWithin_mono _ _ hbelow 64 _ _ hv hw

theorem standing_iff {voices voices' : Voices} {c' r' d' : UInt32} {standing' : Standing}
    (h : standingOf (some .accept) voices c r d = some standing)
    (h' : standingOf (some .accept) voices' c' r' d' = some standing')
    (hkeeps : (voices'.retractedBy ≠ none ↔ voices.retractedBy ≠ none) ∧
      (voices'.supersededBy.isEmpty = true ↔ voices.supersededBy.isEmpty = true)) :
    standing.wasVerified = standing'.wasVerified ∧
      (standing = .withdrawn ↔ standing' = .withdrawn) ∧
      (standing = .superseded ↔ standing' = .superseded) := by
  obtain ⟨hv, hw, hs⟩ := standingOf_eq_some h
  obtain ⟨hv', hw', hs'⟩ := standingOf_eq_some h'
  obtain ⟨hretracted, hsuperseded⟩ := hkeeps
  refine ⟨hv.trans hv'.symm, by rw [hw, hw', hretracted], ?_⟩
  rw [hs, hs', ← not_iff_not.mpr hretracted |>.trans not_ne_iff |>.symm.trans not_ne_iff |>.symm]
  simp only [Bool.eq_false_iff, ne_eq, hsuperseded]

theorem toNat_ofNat_le {m n : Nat} (h : m ≤ n) (hn : n < 2 ^ 32) :
    (UInt32.ofNat m).toNat ≤ (UInt32.ofNat n).toNat := by
  rwa [UInt32.toNat_ofNat_of_lt' (Nat.lt_of_le_of_lt h hn), UInt32.toNat_ofNat_of_lt' hn]

theorem fresh {facts : List ClaimFacts} {voice : ClaimFacts}
    (hnodup : ((voice :: facts).map ClaimFacts.id).Nodup) {x : ClaimFacts} (hx : x ∈ facts) :
    x.id ≠ voice.id := by
  intro heq
  rw [List.map_cons, List.nodup_cons] at hnodup
  exact hnodup.1 (heq ▸ List.mem_map_of_mem hx)

theorem nodup_tail {facts : List ClaimFacts} {voice : ClaimFacts}
    (hnodup : ((voice :: facts).map ClaimFacts.id).Nodup) :
    (facts.map ClaimFacts.id).Nodup :=
  (List.nodup_cons.mp hnodup).2

theorem card_lt_of_meets {xs : List (String × Relation)} {number : Nat → Nat}
    (hle : ∀ i, number i ≤ i) {p : String × Relation → Prop} {C : Finset Nat}
    (hC : ∀ c, c ∈ C ↔ Meets xs number p c) : C.card ≤ xs.length := by
  rw [← Finset.card_range xs.length]
  refine Finset.card_le_card fun c hc => ?_
  obtain ⟨i, a, hi, -, rfl⟩ := (hC c).mp hc
  exact Finset.mem_range.mpr ((hle i).trans_lt (List.getElem?_eq_some_iff.mp hi).1)

section Snapshot

variable [Sha256] [Signatures]

/-! ## The tally of a snapshot -/

/-- What a snapshot makes of the voices about a claim: their places are numbered by
groups, and the counts are the groups that a kind of voice meets. -/
structure Tallied (facts : List ClaimFacts) (target : ClaimFacts) (number : Nat → Nat)
    (voices : Voices) : Prop where
  linked : ∀ i j a b, (heard (new facts) target target.id)[i]? = some a →
    (heard (new facts) target target.id)[j]? = some b →
      (number i = number j ↔
        Forest.Linked (heard (new facts) target target.id) (OneSource facts) a b)
  number_le : ∀ i, number i ≤ i
  corroborating : ∀ c, c ∈ voices.corroborating ↔
    Meets (heard (new facts) target target.id) number (fun v => effect v.2 = .corroborates) c
  refuting : ∀ c, c ∈ voices.refuting ↔
    Meets (heard (new facts) target target.id) number (fun v => v.2 = .refutes) c
  disputing : ∀ c, c ∈ voices.disputing ↔
    Meets (heard (new facts) target target.id) number
      (fun v => effect v.2 = .contests ∧ v.2 ≠ .refutes) c
  superseded : voices.supersededBy.isEmpty = true ↔
    ∀ v ∈ heard (new facts) target target.id, effect v.2 ≠ .supersedes
  retracted : voices.retractedBy ≠ none ↔
    ∃ v ∈ heard (new facts) target target.id, effect v.2 = .withdraws
  asserted : ∀ i a, (heard (new facts) target target.id)[i]? = some a →
    ⟨a.1, a.2, true, number i⟩ ∈ assertionsOf (new facts) target target.id 0
  length_le : (heard (new facts) target target.id).length ≤
    (assertionsOf (new facts) target target.id 0).length

variable {facts : List ClaimFacts}

theorem exists_tallied (hnodup : (facts.map ClaimFacts.id).Nodup) {target : ClaimFacts}
    (htarget : target ∈ facts) :
    ∃ number, Tallied facts target number (voicesOf (new facts) target target.id 0) := by
  obtain ⟨number, hclasses, hle, hiff⟩ :=
    independenceClasses_eq hnodup (heard (new facts) target target.id)
  have hzip : classified (new facts) target target.id 0 =
      (heard (new facts) target target.id).zipIdx.map fun v => (v.1, number v.2) := by
    rw [classified, hclasses, List.zip_map_right, List.zipIdx_eq_zip_range', List.range_eq_range']
    rfl
  have hmem : ∀ voice, voice ∈ classified (new facts) target target.id 0 ↔
      ∃ i a, (heard (new facts) target target.id)[i]? = some a ∧ voice = (a, number i) := by
    intro voice
    simp only [hzip, List.mem_map, List.mem_zipIdx_iff_getElem?]
    constructor
    · rintro ⟨⟨a, i⟩, hi, rfl⟩
      exact ⟨i, a, hi, rfl⟩
    · rintro ⟨i, a, hi, rfl⟩
      exact ⟨(a, i), hi, rfl⟩
  have hmeets : ∀ (p : String × Relation → Prop) c,
      (∃ voice ∈ classified (new facts) target target.id 0, p voice.1 ∧ voice.2 = c) ↔
        Meets (heard (new facts) target target.id) number p c := by
    intro p c
    constructor
    · rintro ⟨voice, hvoice, hp, rfl⟩
      obtain ⟨i, a, hi, rfl⟩ := (hmem voice).mp hvoice
      exact ⟨i, a, hi, hp, rfl⟩
    · rintro ⟨i, a, hi, hp, rfl⟩
      exact ⟨(a, number i), (hmem _).mpr ⟨i, a, hi, rfl⟩, hp, rfl⟩
  have hfst : ∀ a, a ∈ heard (new facts) target target.id ↔
      ∃ voice ∈ classified (new facts) target target.id 0, voice.1 = a := by
    intro a
    constructor
    · intro ha
      obtain ⟨i, hi⟩ := List.mem_iff_getElem?.mp ha
      exact ⟨(a, number i), (hmem _).mpr ⟨i, a, hi, rfl⟩, rfl⟩
    · rintro ⟨voice, hvoice, rfl⟩
      obtain ⟨i, a, hi, rfl⟩ := (hmem voice).mp hvoice
      exact List.mem_of_getElem? hi
  have hcounted := counted_run .silent (classified (new facts) target target.id 0)
  refine ⟨number, ?_⟩
  constructor
  · intro i j a b hi hj
    exact (hiff i j).trans (linked_iff (fun v hv => oneSource_self hnodup htarget hv) hi hj)
  · exact hle
  · intro c
    rw [voicesOf, hcounted.corroborating, ← hmeets]
    simp [Voices.silent]
  · intro c
    rw [voicesOf, hcounted.refuting, ← hmeets fun v => v.2 = .refutes]
    simp [Voices.silent]
  · intro c
    rw [voicesOf, hcounted.disputing,
      ← hmeets fun v => effect v.2 = .contests ∧ v.2 ≠ .refutes]
    simp [Voices.silent]
  · rw [voicesOf, hcounted.superseded]
    refine (and_iff_right rfl).trans ⟨fun h a ha => ?_, fun h voice hvoice => ?_⟩
    · obtain ⟨voice, hvoice, rfl⟩ := (hfst a).mp ha
      exact h voice hvoice
    · exact h _ ((hfst _).mpr ⟨voice, hvoice, rfl⟩)
  · rw [voicesOf, hcounted.retracted]
    refine (or_iff_right (fun h => h rfl)).trans ⟨?_, ?_⟩
    · rintro ⟨voice, hvoice, h⟩
      exact ⟨voice.1, (hfst _).mpr ⟨voice, hvoice, rfl⟩, h⟩
    · rintro ⟨a, ha, h⟩
      obtain ⟨voice, hvoice, rfl⟩ := (hfst a).mp ha
      exact ⟨voice, hvoice, h⟩
  · intro i a hi
    refine (List.perm_insertionSort _ _).mem_iff.mpr (List.mem_append_left _ ?_)
    exact List.mem_map.mpr ⟨(a, number i), (hmem _).mpr ⟨i, a, hi, rfl⟩, rfl⟩
  · rw [assertionsOf, List.length_insertionSort, List.length_append, List.length_map, hzip,
      List.length_map, List.length_zipIdx]
    exact Nat.le_add_right _ _

/-- The state of an accepted claim, read back. -/
theorem state_eq_some (hnodup : (facts.map ClaimFacts.id).Nodup) {target : ClaimFacts}
    (htarget : target ∈ facts) (hverdict : target.verdict = some .accept)
    {policy : ConfidencePolicy} (hdepth : policy.independenceDepth = 0) {asOfEpoch : UInt64}
    {s : KnowledgeState} (h : (new facts).state target.id policy asOfEpoch = some (some s)) :
    s.corroborations = .ofNat (voicesOf (new facts) target target.id 0).corroborating.card ∧
      s.refutations = .ofNat (voicesOf (new facts) target target.id 0).refuting.card ∧
      s.disputes = .ofNat (voicesOf (new facts) target target.id 0).disputing.card ∧
      s.assertions = assertionsOf (new facts) target target.id 0 ∧
      standingOf (some .accept) (voicesOf (new facts) target target.id 0) s.corroborations
        s.refutations s.disputes = some s.standing ∧
      confidenceOf s.standing s.corroborations s.refutations s.disputes target.reproducible
        target.epoch asOfEpoch policy = some s.confidence := by
  rw [state, (get?_facts hnodup).mpr ⟨htarget, rfl⟩] at h
  obtain ⟨s', hs', hsome⟩ := Option.map_eq_some_iff.mp h
  obtain rfl := Option.some.inj hsome
  rw [stateOf, hverdict, hdepth] at hs'
  obtain ⟨standing, hstanding, hs'⟩ := Option.bind_eq_some_iff.mp hs'
  obtain ⟨confidence, hconfidence, hs'⟩ := Option.bind_eq_some_iff.mp hs'
  obtain rfl := Option.some.inj hs'
  exact ⟨rfl, rfl, rfl, rfl, hstanding, hconfidence⟩

/-! ## One more voice -/

/-- A claim of the snapshot has one source with another. -/
def SharesSource (facts : List ClaimFacts) (id : String) (voice : ClaimFacts) : Prop :=
  ∃ x ∈ facts, x.id = id ∧ SameSource x voice

/-- A claim has one source with the voices of one class at most. -/
def JoinsOne (facts : List ClaimFacts) (s : KnowledgeState) (voice : ClaimFacts) : Prop :=
  ∀ a ∈ s.assertions, ∀ b ∈ s.assertions, a.grounded = true → b.grounded = true →
    SharesSource facts a.by_ voice → SharesSource facts b.by_ voice → a.class_ = b.class_

section Cons

variable {facts : List ClaimFacts} {voice target : ClaimFacts}

omit [Sha256] in
theorem mem_heard_cons (hnodup : ((voice :: facts).map ClaimFacts.id).Nodup)
    (htarget : target ∈ facts) {v : String × Relation} :
    v ∈ heard (new (voice :: facts)) target target.id ↔
      v.1 = voice.id ∧ Speaks voice v.2 target ∨ v ∈ heard (new facts) target target.id := by
  rw [mem_heard hnodup (List.mem_cons_of_mem _ htarget), mem_heard (nodup_tail hnodup) htarget,
    List.exists_mem_cons_iff, eq_comm]

omit [Sha256] in
theorem ne_of_mem_heard (hnodup : ((voice :: facts).map ClaimFacts.id).Nodup)
    (htarget : target ∈ facts) {v : String × Relation}
    (hv : v ∈ heard (new facts) target target.id) :
    v.1 ≠ voice.id := by
  obtain ⟨author, hauthor, hid, -⟩ := (mem_heard (nodup_tail hnodup) htarget).mp hv
  rw [← hid]
  exact fresh hnodup hauthor

variable {a b : String × Relation}

omit [Signatures] in
theorem oneSource_cons (ha : a.1 ≠ voice.id) (h : OneSource (voice :: facts) a b) :
    OneSource facts a b ∨ b.1 = voice.id ∧ SharesSource facts a.1 voice := by
  obtain ⟨x, hx, y, hy, hxa, hyb, hsame⟩ := h
  rcases List.mem_cons.mp hx with rfl | hx'
  · exact absurd hxa.symm ha
  · rcases List.mem_cons.mp hy with rfl | hy
    · exact .inr ⟨hyb.symm, x, hx', hxa, hsame⟩
    · exact .inl ⟨x, hx', y, hy, hxa, hyb, hsame⟩

/-- A chain through a further voice that joins one group stays in that group. -/
theorem linked_of_cons (hnodup : ((voice :: facts).map ClaimFacts.id).Nodup)
    (hone : ∀ c ∈ heard (new facts) target target.id, ∀ d ∈ heard (new facts) target target.id,
      SharesSource facts c.1 voice → SharesSource facts d.1 voice →
        Forest.Linked (heard (new facts) target target.id) (OneSource facts) c d)
    (htarget : target ∈ facts) (ha : a ∈ heard (new facts) target target.id)
    (hb : b ∈ heard (new facts) target target.id)
    (h : Forest.Linked (heard (new (voice :: facts)) target target.id)
      (OneSource (voice :: facts)) a b) :
    Forest.Linked (heard (new facts) target target.id) (OneSource facts) a b := by
  -- where the chain stands: in the group of `a`, or at the new voice next to it
  have hwalk : (b.1 ≠ voice.id →
        Forest.Linked (heard (new facts) target target.id) (OneSource facts) a b) ∧
      (b.1 = voice.id → ∃ c ∈ heard (new facts) target target.id,
        Forest.Linked (heard (new facts) target target.id) (OneSource facts) a c ∧
          SharesSource facts c.1 voice) := by
    clear hb
    induction h with
    | refl =>
      exact ⟨fun _ => .refl, fun heq => absurd heq (ne_of_mem_heard hnodup htarget ha)⟩
    | @tail b c _ hstep ih =>
      obtain ⟨hb, hc, hbc⟩ := hstep
      have hold : ∀ v ∈ heard (new (voice :: facts)) target target.id, v.1 ≠ voice.id →
          v ∈ heard (new facts) target target.id := fun v hv hne =>
        ((mem_heard_cons hnodup htarget).mp hv).resolve_left fun h => hne h.1
      by_cases hbnew : b.1 = voice.id
      · obtain ⟨d, hd, had, hshares⟩ := ih.2 hbnew
        refine ⟨fun hcold => ?_, fun _ => ⟨d, hd, had, hshares⟩⟩
        rcases oneSource_cons hcold hbc.symm with hcb | ⟨-, hshares'⟩
        · obtain ⟨-, -, y, hy, -, hyb, -⟩ := hcb
          exact absurd (hyb.trans hbnew) (fresh hnodup hy)
        · exact had.trans (hone d hd c (hold c hc hcold) hshares hshares')
      · have hab := ih.1 hbnew
        rcases oneSource_cons hbnew hbc with hsource | ⟨hcnew, hshares⟩
        · refine ⟨fun hcold => hab.tail ⟨hold b hb hbnew, hold c hc hcold, hsource⟩,
            fun hcnew => ?_⟩
          obtain ⟨-, -, y, hy, -, hyc, -⟩ := hsource
          exact absurd (hyc.trans hcnew) (fresh hnodup hy)
        · exact ⟨fun hcold => absurd hcnew hcold, fun _ => ⟨b, hold b hb hbnew, hab, hshares⟩⟩
  exact hwalk.1 (ne_of_mem_heard hnodup htarget hb)

theorem linked_cons (hnodup : ((voice :: facts).map ClaimFacts.id).Nodup) (htarget : target ∈ facts)
    (h : Forest.Linked (heard (new facts) target target.id) (OneSource facts) a b) :
    Forest.Linked (heard (new (voice :: facts)) target target.id)
      (OneSource (voice :: facts)) a b := by
  refine h.mono (fun v hv => (mem_heard_cons hnodup htarget).mpr (.inr hv)) fun c _ d _ hcd => ?_
  obtain ⟨x, hx, y, hy, hsame⟩ := hcd
  exact ⟨x, List.mem_cons_of_mem _ hx, y, List.mem_cons_of_mem _ hy, hsame⟩

end Cons

/-! ## What the counts do -/

section Counts

variable {facts : List ClaimFacts} {voice target : ClaimFacts} {number number' : Nat → Nat}
  {voices voices' : Voices} {p : String × Relation → Prop} {C D : Finset Nat}

/-- The groups that a voice of one source has, in terms of links. -/
theorem linked_of_joinsOne
    (htally : Tallied facts target number voices) {s : KnowledgeState}
    (hs : s.assertions = assertionsOf (new facts) target target.id 0)
    (hjoin : JoinsOne facts s voice) :
    ∀ c ∈ heard (new facts) target target.id, ∀ d ∈ heard (new facts) target target.id,
      SharesSource facts c.1 voice → SharesSource facts d.1 voice →
        Forest.Linked (heard (new facts) target target.id) (OneSource facts) c d := by
  intro c hc d hd hcv hdv
  obtain ⟨i, hi⟩ := List.mem_iff_getElem?.mp hc
  obtain ⟨j, hj⟩ := List.mem_iff_getElem?.mp hd
  refine (htally.linked i j c d hi hj).mp ?_
  exact hjoin ⟨c.1, c.2, true, number i⟩ (hs ▸ htally.asserted i c hi)
    ⟨d.1, d.2, true, number j⟩ (hs ▸ htally.asserted j d hj) rfl rfl hcv hdv

theorem card_le_cons (hnodup : ((voice :: facts).map ClaimFacts.id).Nodup)
    (htarget : target ∈ facts) (htally : Tallied facts target number voices)
    (htally' : Tallied (voice :: facts) target number' voices')
    (hone : ∀ c ∈ heard (new facts) target target.id, ∀ d ∈ heard (new facts) target target.id,
      SharesSource facts c.1 voice → SharesSource facts d.1 voice →
        Forest.Linked (heard (new facts) target target.id) (OneSource facts) c d)
    (hC : ∀ c, c ∈ C ↔ Meets (heard (new facts) target target.id) number p c)
    (hD : ∀ c, c ∈ D ↔ Meets (heard (new (voice :: facts)) target target.id) number' p c) :
    C.card ≤ D.card :=
  card_le_of_linked hC hD (fun i j a b hi hj => (htally.linked i j a b hi hj).mpr)
    (fun i j a b hi hj => (htally'.linked i j a b hi hj).mp)
    (fun _ ha _ => (mem_heard_cons hnodup htarget).mpr (.inr ha))
    fun _ ha _ hb _ _ h => linked_of_cons hnodup hone htarget ha hb h

/-- A voice of another kind meets no group for this one. -/
theorem card_cons_le (hnodup : ((voice :: facts).map ClaimFacts.id).Nodup)
    (htarget : target ∈ facts) (htally : Tallied facts target number voices)
    (htally' : Tallied (voice :: facts) target number' voices')
    (hquiet : ∀ kind, Speaks voice kind target → ¬ p (voice.id, kind))
    (hC : ∀ c, c ∈ C ↔ Meets (heard (new facts) target target.id) number p c)
    (hD : ∀ c, c ∈ D ↔ Meets (heard (new (voice :: facts)) target target.id) number' p c) :
    D.card ≤ C.card := by
  refine card_le_of_linked hD hC (fun i j a b hi hj => (htally'.linked i j a b hi hj).mpr)
    (fun i j a b hi hj => (htally.linked i j a b hi hj).mp) (fun a ha hp => ?_)
    fun _ _ _ _ _ _ h => linked_cons hnodup htarget h
  rcases (mem_heard_cons hnodup htarget).mp ha with ⟨hid, hspeaks⟩ | hold
  · exact absurd (hid ▸ hp) (hquiet a.2 hspeaks)
  · exact hold

/-- What neither withdraws nor supersedes leaves both as they were. -/
theorem keeps_cons (hnodup : ((voice :: facts).map ClaimFacts.id).Nodup)
    (htarget : target ∈ facts) (htally : Tallied facts target number voices)
    (htally' : Tallied (voice :: facts) target number' voices')
    (hkeep : ∀ kind, Speaks voice kind target → effect kind ≠ .withdraws ∧
      effect kind ≠ .supersedes) :
    (voices'.retractedBy ≠ none ↔ voices.retractedBy ≠ none) ∧
      (voices'.supersededBy.isEmpty = true ↔ voices.supersededBy.isEmpty = true) := by
  have hmem := fun v => @mem_heard_cons _ _ voice _ hnodup htarget v
  rw [htally'.retracted, htally.retracted, htally'.superseded, htally.superseded]
  refine ⟨⟨?_, ?_⟩, ⟨fun h v hv => h v ((hmem v).mpr (.inr hv)), fun h v hv => ?_⟩⟩
  · rintro ⟨v, hv, hwithdraws⟩
    rcases (hmem v).mp hv with ⟨-, hspeaks⟩ | hold
    · exact absurd hwithdraws (hkeep v.2 hspeaks).1
    · exact ⟨v, hold, hwithdraws⟩
  · rintro ⟨v, hv, hwithdraws⟩
    exact ⟨v, (hmem v).mpr (.inr hv), hwithdraws⟩
  · rcases (hmem v).mp hv with ⟨-, hspeaks⟩ | hold
    · exact (hkeep v.2 hspeaks).2
    · exact h v hold

end Counts

/-- Two tallied states of one claim, by how their counts compare. -/
theorem confidence_le {facts' : List ClaimFacts} (hnodup : (facts.map ClaimFacts.id).Nodup)
    (hnodup' : (facts'.map ClaimFacts.id).Nodup) {target : ClaimFacts} (htarget : target ∈ facts)
    (htarget' : target ∈ facts') (hverdict : target.verdict = some .accept)
    {policy : ConfidencePolicy} (hdepth : policy.independenceDepth = 0) {asOfEpoch : UInt64}
    {s s' : KnowledgeState} (hs : (new facts).state target.id policy asOfEpoch = some (some s))
    (hs' : (new facts').state target.id policy asOfEpoch = some (some s'))
    (hkeeps : ((voicesOf (new facts') target target.id 0).retractedBy ≠ none ↔
        (voicesOf (new facts) target target.id 0).retractedBy ≠ none) ∧
      ((voicesOf (new facts') target target.id 0).supersededBy.isEmpty = true ↔
        (voicesOf (new facts) target target.id 0).supersededBy.isEmpty = true))
    (hc : s'.corroborations.toNat ≤ s.corroborations.toNat)
    (hr : s.refutations.toNat ≤ s'.refutations.toNat) (hd : s.disputes.toNat ≤ s'.disputes.toNat) :
    s'.confidence ≤ s.confidence := by
  obtain ⟨-, -, -, -, hstanding, hconfidence⟩ :=
    state_eq_some hnodup htarget hverdict hdepth hs
  obtain ⟨-, -, -, -, hstanding', hconfidence'⟩ :=
    state_eq_some hnodup' htarget' hverdict hdepth hs'
  obtain ⟨hverified, hwithdrawn, hsuperseded⟩ := standing_iff hstanding hstanding' hkeeps
  rw [confidenceOf_congr hverified hwithdrawn hsuperseded] at hconfidence
  exact confidenceOf_mono hconfidence hconfidence' hc hr hd

/-- What further voices do to an accepted claim. A contesting one that joins one
group at most never raises the confidence, a corroborating one lowers neither the
confidence nor the counts against, and nobody else withdraws. The snapshot's order
does not matter, and the classes are the components of having one source. -/
theorem voices_sound (facts : List ClaimFacts) (hnodup : (facts.map ClaimFacts.id).Nodup)
    (target : ClaimFacts) (htarget : target ∈ facts) (hverdict : target.verdict = some .accept)
    (policy : ConfidencePolicy) (hdepth : policy.independenceDepth = 0) (asOfEpoch : UInt64) :
    (∀ (voice : ClaimFacts) (s s' : KnowledgeState),
      ((voice :: facts).map ClaimFacts.id).Nodup → JoinsOne facts s voice →
      (new facts).state target.id policy asOfEpoch = some (some s) →
      (new (voice :: facts)).state target.id policy asOfEpoch = some (some s') →
      s'.assertions.length < 2 ^ 32 →
      ((∀ relation ∈ voice.claim.relations, relation.target = target.id →
          effect relation.kind = .contests) → s'.confidence ≤ s.confidence) ∧
        ((∀ relation ∈ voice.claim.relations, relation.target = target.id →
            effect relation.kind = .corroborates) →
          s.confidence ≤ s'.confidence ∧ s.refutations ≤ s'.refutations ∧
            s.disputes ≤ s'.disputes)) ∧
      (∀ (added : List ClaimFacts) (s s' : KnowledgeState),
        ((added ++ facts).map ClaimFacts.id).Nodup →
        (∀ x ∈ added, ¬ ((signedSubmitter target.claim.submitter).isSome ∧
          x.claim.submitter = target.claim.submitter ∧ x.claim.verifySignature.isOk)) →
        (new facts).state target.id policy asOfEpoch = some (some s) →
        (new (added ++ facts)).state target.id policy asOfEpoch = some (some s') →
        (s'.standing = .withdrawn ↔ s.standing = .withdrawn)) ∧
      (∀ facts', facts.Perm facts' → ∀ claimId policy asOfEpoch,
        (new facts').state claimId policy asOfEpoch = (new facts).state claimId policy asOfEpoch) ∧
      (independenceClasses (new facts) (heard (new facts) target target.id) 0).length =
        (heard (new facts) target target.id).length ∧
      ∀ i c, (independenceClasses (new facts) (heard (new facts) target target.id) 0)[i]? =
          some c →
        IsLeast {j | Connected (heard (new facts) target target.id) (OneSource facts) i j} c := by
  obtain ⟨number, htally⟩ := exists_tallied hnodup htarget
  refine ⟨fun voice s s' hnodup' hjoin hs hs' hfew => ?_,
    fun added s s' hnodup' hadded hs hs' => ?_, fun facts' hperm claimId policy asOfEpoch => ?_, ?_,
    fun i c hc => independenceClasses_isLeast hnodup hc⟩
  · have htarget' : target ∈ voice :: facts := List.mem_cons_of_mem _ htarget
    obtain ⟨number', htally'⟩ := exists_tallied hnodup' htarget'
    obtain ⟨hc, hr, hd, hassertions, -, -⟩ := state_eq_some hnodup htarget hverdict hdepth hs
    obtain ⟨hc', hr', hd', hassertions', -, -⟩ := state_eq_some hnodup' htarget' hverdict hdepth hs'
    have hone := linked_of_joinsOne htally hassertions hjoin
    have hlength : (heard (new (voice :: facts)) target target.id).length < 2 ^ 32 :=
      htally'.length_le.trans_lt (hassertions' ▸ hfew)
    have hltc := (card_lt_of_meets htally'.number_le htally'.corroborating).trans_lt hlength
    have hltr := (card_lt_of_meets htally'.number_le htally'.refuting).trans_lt hlength
    have hltd := (card_lt_of_meets htally'.number_le htally'.disputing).trans_lt hlength
    have hlec := card_le_cons hnodup' htarget htally htally' hone htally.corroborating
      htally'.corroborating
    have hler := card_le_cons hnodup' htarget htally htally' hone htally.refuting
      htally'.refuting
    have hled := card_le_cons hnodup' htarget htally htally' hone htally.disputing
      htally'.disputing
    have hr_le : s.refutations.toNat ≤ s'.refutations.toNat := by
      rw [hr, hr']
      exact toNat_ofNat_le hler hltr
    have hd_le : s.disputes.toNat ≤ s'.disputes.toNat := by
      rw [hd, hd']
      exact toNat_ofNat_le hled hltd
    refine ⟨fun hcontests => ?_, fun hcorroborates => ?_⟩
    · have heffect : ∀ kind, Speaks voice kind target → effect kind = .contests := by
        rintro kind ⟨⟨relation, hrelation, hid, rfl⟩, -, -⟩
        exact hcontests relation hrelation hid
      have hkeeps := keeps_cons hnodup' htarget htally htally' fun kind h => by
        rw [heffect kind h]
        decide
      have hcle := card_cons_le hnodup' htarget htally htally'
        (fun kind h => by rw [heffect kind h]; decide) htally.corroborating htally'.corroborating
      refine confidence_le hnodup hnodup' htarget htarget' hverdict hdepth hs hs' hkeeps ?_
        hr_le hd_le
      rw [hc, hc']
      exact toNat_ofNat_le hcle (hlec.trans_lt hltc)
    · have heffect : ∀ kind, Speaks voice kind target → effect kind = .corroborates := by
        rintro kind ⟨⟨relation, hrelation, hid, rfl⟩, -, -⟩
        exact hcorroborates relation hrelation hid
      have hkeeps := keeps_cons hnodup' htarget htally htally' fun kind h => by
        rw [heffect kind h]
        decide
      refine ⟨?_, hr_le, hd_le⟩
      refine confidence_le hnodup' hnodup htarget' htarget hverdict hdepth hs' hs
        ⟨hkeeps.1.symm, hkeeps.2.symm⟩ ?_ ?_ ?_
      · rw [hc, hc']
        exact toNat_ofNat_le hlec hltc
      · have hle := card_cons_le hnodup' htarget htally htally'
          (p := fun v => v.2 = .refutes)
          (fun kind h heq => by
            have := heffect kind h
            rw [show kind = .refutes from heq] at this
            cases this) htally.refuting htally'.refuting
        rw [hr, hr']
        exact toNat_ofNat_le hle (hler.trans_lt hltr)
      · have hle := card_cons_le hnodup' htarget htally htally'
          (fun kind h hp => by
            have := hp.1
            rw [heffect kind h] at this
            cases this) htally.disputing htally'.disputing
        rw [hd, hd']
        exact toNat_ofNat_le hle (hled.trans_lt hltd)
  · have htarget' : target ∈ added ++ facts := List.mem_append_right _ htarget
    obtain ⟨number', htally'⟩ := exists_tallied hnodup' htarget'
    obtain ⟨-, -, -, -, hstanding, -⟩ := state_eq_some hnodup htarget hverdict hdepth hs
    obtain ⟨-, -, -, -, hstanding', -⟩ := state_eq_some hnodup' htarget' hverdict hdepth hs'
    rw [(standingOf_eq_some hstanding).2.1, (standingOf_eq_some hstanding').2.1,
      htally.retracted, htally'.retracted]
    constructor
    · rintro ⟨v, hv, hwithdraws⟩
      obtain ⟨author, hauthor, hid, hspeaks⟩ := (mem_heard hnodup' htarget').mp hv
      have hretracts : v.2 = .retracts := by
        cases hkind : v.2 <;> rw [hkind] at hwithdraws <;> cases hwithdraws
      rcases List.mem_append.mp hauthor with hnew | hold
      · exact absurd (hspeaks.retracts hretracts) (hadded author hnew)
      · exact ⟨v, (mem_heard hnodup htarget).mpr ⟨author, hold, hid, hspeaks⟩, hwithdraws⟩
    · rintro ⟨v, hv, hwithdraws⟩
      obtain ⟨author, hauthor, hid, hspeaks⟩ := (mem_heard hnodup htarget).mp hv
      exact ⟨v, (mem_heard hnodup' htarget').mpr
        ⟨author, List.mem_append_right _ hauthor, hid, hspeaks⟩, hwithdraws⟩
  · have hnodup' : ((facts.map fun fact => (fact.id, fact)).map Prod.fst).Nodup := by
      rwa [List.map_map]
    have hindexed := BTreeMap.ofList_perm hnodup' (hperm.map fun fact => (fact.id, fact))
    have hnew : new facts = new facts' := by
      unfold new
      rw [hindexed]
    rw [hnew]
  · obtain ⟨number, hclasses, -⟩ :=
      independenceClasses_eq hnodup (heard (new facts) target target.id)
    rw [hclasses, List.length_map, List.length_range]

/-! ## A voice that joins two groups -/

/-- What one would like of a contesting voice, whatever it joins. -/
def ContestLowers : Prop :=
  ∀ (facts : List ClaimFacts) (target voice : ClaimFacts) (policy : ConfidencePolicy)
    (asOfEpoch : UInt64) (s s' : KnowledgeState),
    ((voice :: facts).map ClaimFacts.id).Nodup → target ∈ facts →
    target.verdict = some .accept → voice.verdict = some .accept →
    policy.independenceDepth = 0 →
    (∃ kind, effect kind = .contests ∧ voice.claim.relations = [⟨kind, target.id⟩]) →
    (new facts).state target.id policy asOfEpoch = some (some s) →
    (new (voice :: facts)).state target.id policy asOfEpoch = some (some s') →
    s'.confidence ≤ s.confidence

/-- And of a corroborating one. -/
def CorroborationKeeps : Prop :=
  ∀ (facts : List ClaimFacts) (target voice : ClaimFacts) (policy : ConfidencePolicy)
    (asOfEpoch : UInt64) (s s' : KnowledgeState),
    ((voice :: facts).map ClaimFacts.id).Nodup → target ∈ facts →
    target.verdict = some .accept → voice.verdict = some .accept →
    policy.independenceDepth = 0 →
    (∃ kind, effect kind = .corroborates ∧ voice.claim.relations = [⟨kind, target.id⟩]) →
    (new facts).state target.id policy asOfEpoch = some (some s) →
    (new (voice :: facts)).state target.id policy asOfEpoch = some (some s') →
    s.refutations ≤ s'.refutations

end Snapshot

namespace Sample

/-- Digests that tell texts of different lengths apart. -/
@[reducible] def hash : Sha256 where
  hash data := digestOfNat data.size

/-- Nobody signs here. -/
@[reducible] def keys : Signatures where
  verifyValue _ _ _ := false

/-- An accepted claim that says one thing about another, or nothing. -/
def fact (id submitter : String) (artifact : Value) (relations : List ClaimRelation) :
    ClaimFacts where
  id := id
  claim :=
    { objectiveId := "o", submitter, artifact, nonce := "", createdAt := "", cites := [],
      relations, signature := none }
  verdict := some .accept
  epoch := 0
  reproducible := .yes

def target : ClaimFacts := fact "t" "t" (.object []) []

def artifact : Value := .object [("a", .null)]

def otherArtifact : Value := .object [("ab", .null)]

/-- Two refutations, by two parties with two artifacts. -/
def refuted : List ClaimFacts :=
  [target, fact "a" "a" artifact [⟨.refutes, "t"⟩], fact "b" "b" otherArtifact [⟨.refutes, "t"⟩]]

/-- The party of the first with the artifact of the second. -/
def bridge (kind : Relation) : ClaimFacts := fact "c" "a" otherArtifact [⟨kind, "t"⟩]

/-- A party of its own with an artifact of its own. -/
def stranger : ClaimFacts := fact "c" "c" (.object [("abc", .null)]) [⟨.conflictsWith, "t"⟩]

/-- Confidence and refutations of the target. -/
def reading (facts : List ClaimFacts) : Option (Nat × UInt32) :=
  ((@KnowledgeGraph.state hash keys (new facts) "t" .default 0).bind id).map fun s =>
    (s.confidence, s.refutations)

theorem exists_state (facts : List ClaimFacts) (reading' : Nat × UInt32)
    (h : reading facts = some reading') :
    ∃ s, @KnowledgeGraph.state hash keys (new facts) "t" .default 0 = some (some s) ∧
      (s.confidence, s.refutations) = reading' := by
  obtain ⟨s, hs, hreading⟩ := Option.map_eq_some_iff.mp h
  obtain ⟨s', hs', rfl⟩ := Option.bind_eq_some_iff.mp hs
  exact ⟨s, hs', hreading⟩

end Sample

open Sample in
/-- A refutation that joins two others raises the confidence from nothing to 300, and
a replication that joins them leaves one refutation of two. -/
theorem not_monotone : ¬ @ContestLowers hash keys ∧ ¬ @CorroborationKeeps hash keys := by
  obtain ⟨s, hs, hreading⟩ := exists_state refuted (0, 2) rfl
  constructor
  · intro h
    obtain ⟨s', hs', hreading'⟩ := exists_state (bridge .refutes :: refuted) (300, 1) rfl
    have hle := h refuted target (bridge .refutes) .default 0 s s' (by decide) List.mem_cons_self
      rfl rfl rfl ⟨.refutes, rfl, rfl⟩ hs hs'
    rw [(Prod.mk.inj hreading).1, (Prod.mk.inj hreading').1] at hle
    exact absurd hle (by decide)
  · intro h
    obtain ⟨s', hs', hreading'⟩ := exists_state (bridge .replicates :: refuted) (420, 1) rfl
    have hle := h refuted target (bridge .replicates) .default 0 s s' (by decide)
      List.mem_cons_self rfl rfl rfl ⟨.replicates, rfl, rfl⟩ hs hs'
    rw [(Prod.mk.inj hreading).2, (Prod.mk.inj hreading').2] at hle
    exact absurd hle (by decide)

open Sample in
/-- A stranger's conflict on top of two refutations. -/
theorem voices_sound_stranger : ∃ s s',
    @KnowledgeGraph.state hash keys (new refuted) "t" .default 0 = some (some s) ∧
      @KnowledgeGraph.state hash keys (new (stranger :: refuted)) "t" .default 0 =
        some (some s') ∧
      s'.confidence ≤ s.confidence := by
  obtain ⟨s, hs, -⟩ := exists_state refuted (0, 2) rfl
  obtain ⟨s', hs', -⟩ := exists_state (stranger :: refuted) (0, 2) rfl
  let _ : Sha256 := hash
  let _ : Signatures := keys
  have hsound := voices_sound refuted (by decide) target List.mem_cons_self rfl .default rfl 0
  refine ⟨s, s', hs, hs', (hsound.1 stranger s s' (by decide) ?_ hs hs' ?_).1 ?_⟩
  · rintro a - b - - - ⟨x, hx, -, hsame⟩
    have hnone : ∀ x ∈ refuted, ¬ SameSource x stranger := by decide
    exact absurd hsame (hnone x hx)
  · have hnodup : ((stranger :: refuted).map ClaimFacts.id).Nodup := by decide
    have htarget : target ∈ stranger :: refuted := List.mem_cons_of_mem _ List.mem_cons_self
    have hassertions := (state_eq_some hnodup htarget rfl rfl hs').2.2.2.1
    rw [hassertions]
    decide
  · decide

end KnowledgeGraph

end Cairn.Ports.Knowledge
