import Cairn.Ports.Knowledge.Classes
import Cairn.Ports.Knowledge.Confidence
import Cairn.Ports.Records.Claim
import Cairn.Ports.Verdict
import Mathlib.Data.List.Sort

/-!
# The claim graph

`KnowledgeGraph` of `src/knowledge.rs`: a snapshot of the log indexed by claim, and
what it says about one of them. A relation is heard from a claim that was accepted,
a retraction only from the key that submitted its target. Voices are grouped by
party and by work before they are counted, so what a new voice does depends on which
groups it joins.

The state is `none` where the checked build stops: where a sum or a product leaves
its type. Inside, there is nothing for a claim that the snapshot does not have.
-/

namespace Cairn.Ports.Knowledge

open Cairn.Verified Cairn.Verified.Forest
open Cairn.Ports.Canonical

/-- The mechanical effect of a relation on its target's standing. -/
inductive Effect where
  | corroborates
  | contests
  | supersedes
  | withdraws
deriving DecidableEq

/-- How a relation bears on the claim it names. -/
def effect : Relation → Effect
  | .replicates | .generalizes => .corroborates
  | .refutes | .failsToReplicate | .conflictsWith => .contests
  | .supersedes | .corrects | .narrows => .supersedes
  | .retracts => .withdraws

/-- One claim, with the log's verdict on it and the epoch it landed in. -/
structure ClaimFacts where
  id : String
  claim : Claim
  verdict : Option Status
  epoch : UInt64
  reproducible : Reproducible

/-- One asserted edge, with who asserted it. -/
structure Assertion where
  by_ : String
  kind : Relation
  grounded : Bool
  class_ : Nat
deriving DecidableEq

/-- Everything there is to say about one claim. -/
structure KnowledgeState where
  claimId : String
  standing : Standing
  verdict : Option Status
  reproducible : Reproducible
  corroborations : UInt32
  refutations : UInt32
  disputes : UInt32
  supersededBy : List String
  retractedBy : Option String
  assertions : List Assertion
  confidence : Nat
deriving DecidableEq

/-- The derived order of claim ids with relations. -/
def voiceLe (a b : String × Relation) : Prop :=
  a.1 < b.1 ∨ a.1 = b.1 ∧ a.2.ctorIdx ≤ b.2.ctorIdx

instance : DecidableRel voiceLe := fun _ _ => inferInstanceAs (Decidable (_ ∨ _))

/-- `usize::MAX`, the class of an assertion that is not heard. -/
def USIZE_MAX : Nat := 2 ^ 64 - 1

/-- The claim graph, indexed for standing queries. -/
structure KnowledgeGraph where
  facts : BTreeMap String ClaimFacts
  /-- From a claim to those asserting something about it. -/
  inbound : BTreeMap String (List (String × Relation))

namespace KnowledgeGraph

/-! ## Building the index -/

/-- One relation of the claim `id`; what names no claim of the snapshot is dropped. -/
def point (facts : BTreeMap String ClaimFacts) (id : String)
    (inbound : BTreeMap String (List (String × Relation))) (relation : ClaimRelation) :
    BTreeMap String (List (String × Relation)) :=
  if facts.containsKey relation.target then
    inbound.insert relation.target
      ((inbound.get? relation.target).getD [] ++ [(id, relation.kind)])
  else inbound

/-- The relations of one claim. -/
def pointAll (facts : BTreeMap String ClaimFacts)
    (inbound : BTreeMap String (List (String × Relation))) (fact : String × ClaimFacts) :
    BTreeMap String (List (String × Relation)) :=
  fact.2.claim.relations.foldl (point facts fact.1) inbound

/-- Index a snapshot of the log; of facts with one id the last counts. -/
def new (facts : List ClaimFacts) : KnowledgeGraph :=
  let indexed := BTreeMap.ofList (facts.map fun fact => (fact.id, fact))
  { facts := indexed
    inbound := (indexed.entries.foldl (pointAll indexed) BTreeMap.empty).mapValues
      (List.insertionSort voiceLe) }

/-! ## Who is heard, and as how many -/

section Voices

variable [Sha256] [Signatures]

/-- Whether an assertion is heard at all. -/
def isGrounded (g : KnowledgeGraph) (voice : String × Relation) (target : ClaimFacts) : Bool :=
  match g.facts.get? voice.1 with
  | none => false
  | some author =>
    if voice.2 = .retracts then
      (signedSubmitter target.claim.submitter).isSome &&
        author.claim.submitter = target.claim.submitter &&
        author.claim.verifySignature.isOk
    else author.verdict = some .accept

/-- One citation on the walk: what was seen, and what is new. -/
def cite (g : KnowledgeGraph) (walk : List String × List String) (cited : String) :
    List String × List String :=
  if g.facts.containsKey cited ∧ cited ∉ walk.1 then (cited :: walk.1, walk.2 ++ [cited]) else walk

/-- One hop of the walk, from a frontier. -/
def hop (g : KnowledgeGraph) (seen frontier : List String) : List String × List String :=
  frontier.foldl
    (fun walk id =>
      match g.facts.get? id with
      | none => walk
      | some fact => fact.claim.cites.foldl (cite g) walk)
    (seen, [])

def walkCites (g : KnowledgeGraph) : Nat → List String → List String → List String
  | 0, _, seen => seen
  | depth + 1, frontier, seen =>
    let next := hop g seen frontier
    if next.2.isEmpty then next.1 else walkCites g depth next.2 next.1

/-- Claims reachable by following `cites` up to `depth` hops. -/
def ancestors (g : KnowledgeGraph) (id : String) (depth : UInt32) : List String :=
  if g.facts.containsKey id then walkCites g depth.toNat [id] [] else []

/-- The same party, the same work, or a shared ancestry. -/
def correlated (g : KnowledgeGraph) (depth : UInt32) (a b : String × Relation) : Bool :=
  match g.facts.get? a.1, g.facts.get? b.1 with
  | some x, some y =>
    x.claim.submitter = y.claim.submitter || x.claim.artifactId = y.claim.artifactId ||
      (0 < depth &&
        (ancestors g a.1 depth).any fun id => (ancestors g b.1 depth).contains id)
  | _, _ => false

/-- One class index for each voice, positionally. -/
def independenceClasses (g : KnowledgeGraph) (heard : List (String × Relation)) (depth : UInt32) :
    List Nat :=
  classesOf heard.length fun i j =>
    match heard[i]?, heard[j]? with
    | some a, some b => correlated g depth a b
    | _, _ => false

/-! ## The state of a claim -/

/-- What the voices come to, while they are counted. -/
structure Voices where
  corroborating : Finset Nat
  refuting : Finset Nat
  disputing : Finset Nat
  supersededBy : List String
  retractedBy : Option String

/-- One voice, with its class. -/
def Voices.hear (voices : Voices) (voice : (String × Relation) × Nat) : Voices :=
  match effect voice.1.2 with
  | .corroborates => { voices with corroborating := insert voice.2 voices.corroborating }
  | .contests =>
    if voice.1.2 = .refutes then { voices with refuting := insert voice.2 voices.refuting }
    else { voices with disputing := insert voice.2 voices.disputing }
  | .supersedes => { voices with supersededBy := voices.supersededBy ++ [voice.1.1] }
  | .withdraws =>
    { voices with
      retractedBy := if voices.retractedBy.isNone then some voice.1.1 else voices.retractedBy }

def Voices.silent : Voices where
  corroborating := ∅
  refuting := ∅
  disputing := ∅
  supersededBy := []
  retractedBy := none

/-- The standing, in the order of precedence. Adding the two counts stops the build
where they do not fit. -/
def standingOf (verdict : Option Status) (voices : Voices)
    (corroborations refutations disputes : UInt32) : Option Standing :=
  if verdict = some .reject then some .refuted
  else if verdict ≠ some .accept then some .unverified
  else if voices.retractedBy.isSome then some .withdrawn
  else if !voices.supersededBy.isEmpty then some .superseded
  else if 2 ^ 32 ≤ refutations.toNat + disputes.toNat then none
  else if 0 < refutations + disputes then some .contested
  else if 0 < corroborations then some .corroborated
  else some .accepted

/-- The relations pointed at a claim that are heard. -/
def heard (g : KnowledgeGraph) (fact : ClaimFacts) (claimId : String) : List (String × Relation) :=
  ((g.inbound.get? claimId).getD []).filter fun voice => isGrounded g voice fact

def ungrounded (g : KnowledgeGraph) (fact : ClaimFacts) (claimId : String) :
    List (String × Relation) :=
  ((g.inbound.get? claimId).getD []).filter fun voice => !isGrounded g voice fact

/-- The voices about a claim, each with its class. -/
def classified (g : KnowledgeGraph) (fact : ClaimFacts) (claimId : String) (depth : UInt32) :
    List ((String × Relation) × Nat) :=
  (heard g fact claimId).zip (independenceClasses g (heard g fact claimId) depth)

def voicesOf (g : KnowledgeGraph) (fact : ClaimFacts) (claimId : String) (depth : UInt32) :
    Voices :=
  (classified g fact claimId depth).foldl Voices.hear .silent

/-- The assertions for the reader, heard or not. -/
def assertionsOf (g : KnowledgeGraph) (fact : ClaimFacts) (claimId : String) (depth : UInt32) :
    List Assertion :=
  List.insertionSort (fun a b => voiceLe (a.by_, a.kind) (b.by_, b.kind))
    ((classified g fact claimId depth).map (fun v => ⟨v.1.1, v.1.2, true, v.2⟩) ++
      (ungrounded g fact claimId).map fun v => ⟨v.1, v.2, false, USIZE_MAX⟩)

/-- The state of one claim that the snapshot has. -/
def stateOf (g : KnowledgeGraph) (fact : ClaimFacts) (claimId : String) (policy : ConfidencePolicy)
    (asOfEpoch : UInt64) : Option KnowledgeState := do
  let voices := voicesOf g fact claimId policy.independenceDepth
  let corroborations := UInt32.ofNat voices.corroborating.card
  let refutations := UInt32.ofNat voices.refuting.card
  let disputes := UInt32.ofNat voices.disputing.card
  let standing ← standingOf fact.verdict voices corroborations refutations disputes
  let confidence ← confidenceOf standing corroborations refutations disputes fact.reproducible
    fact.epoch asOfEpoch policy
  some
    { claimId, standing, verdict := fact.verdict, reproducible := fact.reproducible,
      corroborations, refutations, disputes,
      supersededBy := voices.supersededBy.insertionSort (· ≤ ·)
      retractedBy := voices.retractedBy
      assertions := assertionsOf g fact claimId policy.independenceDepth
      confidence }

/-- The standing and confidence of one claim, as of an epoch. -/
def state (g : KnowledgeGraph) (claimId : String) (policy : ConfidencePolicy)
    (asOfEpoch : UInt64) : Option (Option KnowledgeState) :=
  match g.facts.get? claimId with
  | none => some none
  | some fact => (stateOf g fact claimId policy asOfEpoch).map some

end Voices

end KnowledgeGraph

namespace KnowledgeGraph

/-! ## Who is heard -/

variable {facts : BTreeMap String ClaimFacts} {id target : String}
  {inbound : BTreeMap String (List (String × Relation))} {voice : String × Relation}

theorem mem_point {relation : ClaimRelation} :
    voice ∈ ((point facts id inbound relation).get? target).getD [] ↔
      voice ∈ (inbound.get? target).getD [] ∨
        facts.containsKey target ∧ relation.target = target ∧ voice = (id, relation.kind) := by
  unfold point
  by_cases hkey : facts.containsKey relation.target
  · rw [if_pos hkey, BTreeMap.get?_insert]
    split_ifs with htarget
    · subst htarget
      simp [hkey]
    · simp [Ne.symm htarget]
  · rw [if_neg hkey]
    constructor
    · exact .inl
    · rintro (h | ⟨h, rfl, -⟩)
      · exact h
      · exact absurd h hkey

theorem mem_points {relations : List ClaimRelation} :
    voice ∈ ((relations.foldl (point facts id) inbound).get? target).getD [] ↔
      voice ∈ (inbound.get? target).getD [] ∨
        facts.containsKey target ∧
          ∃ relation ∈ relations, relation.target = target ∧ voice = (id, relation.kind) := by
  induction relations generalizing inbound with
  | nil => simp
  | cons relation relations ih =>
    rw [List.foldl_cons, ih, mem_point, List.exists_mem_cons_iff, and_or_left, or_assoc]

theorem mem_pointAll {entries : List (String × ClaimFacts)} :
    voice ∈ ((entries.foldl (pointAll facts) inbound).get? target).getD [] ↔
      voice ∈ (inbound.get? target).getD [] ∨
        facts.containsKey target ∧
          ∃ entry ∈ entries, ∃ relation ∈ entry.2.claim.relations,
            relation.target = target ∧ voice = (entry.1, relation.kind) := by
  induction entries generalizing inbound with
  | nil => simp
  | cons entry entries ih =>
    rw [List.foldl_cons, ih, pointAll, mem_points, List.exists_mem_cons_iff, and_or_left,
      or_assoc]

variable {facts : List ClaimFacts}

theorem get?_facts (hnodup : (facts.map ClaimFacts.id).Nodup)
    {fact : ClaimFacts} : (new facts).facts.get? id = some fact ↔ fact ∈ facts ∧ fact.id = id := by
  have hnodup' : ((facts.map fun fact => (fact.id, fact)).map Prod.fst).Nodup := by
    rwa [List.map_map]
  refine (BTreeMap.get?_ofList_eq_some_iff hnodup').trans ?_
  simp only [List.mem_map, Prod.mk.injEq]
  constructor
  · rintro ⟨x, hx, rfl, rfl⟩
    exact ⟨hx, rfl⟩
  · rintro ⟨hfact, rfl⟩
    exact ⟨fact, hfact, rfl, rfl⟩

theorem mem_sorted :
    voice ∈ ((inbound.mapValues (List.insertionSort voiceLe)).get? target).getD [] ↔
      voice ∈ (inbound.get? target).getD [] := by
  rw [BTreeMap.get?_mapValues]
  cases inbound.get? target with
  | none => rfl
  | some voices => exact (List.perm_insertionSort voiceLe voices).mem_iff

/-- The relations pointed at a claim of the snapshot. -/
theorem mem_inbound (hnodup : (facts.map ClaimFacts.id).Nodup)
    {target : ClaimFacts} (htarget : target ∈ facts) :
    voice ∈ ((new facts).inbound.get? target.id).getD [] ↔
      ∃ author ∈ facts, author.id = voice.1 ∧
        ∃ relation ∈ author.claim.relations, relation.target = target.id ∧
          relation.kind = voice.2 := by
  have hkey : (new facts).facts.containsKey target.id := by
    rw [BTreeMap.containsKey_iff]
    exact ⟨target, (get?_facts hnodup).mpr ⟨htarget, rfl⟩⟩
  refine mem_sorted.trans ?_
  rw [mem_pointAll, BTreeMap.get?_empty]
  simp only [Option.getD_none, List.not_mem_nil, false_or]
  constructor
  · rintro ⟨-, ⟨id, author⟩, hentry, relation, hrelation, htarget', rfl⟩
    obtain ⟨hauthor, hid⟩ := (get?_facts hnodup).mp (BTreeMap.get?_eq_some_iff.mpr hentry)
    exact ⟨author, hauthor, hid, relation, hrelation, htarget', rfl⟩
  · rintro ⟨author, hauthor, hid, relation, hrelation, htarget', hkind⟩
    refine ⟨hkey, (voice.1, author), ?_, relation, hrelation, htarget', by rw [hkind]⟩
    exact BTreeMap.get?_eq_some_iff.mp ((get?_facts hnodup).mpr ⟨hauthor, hid⟩)

section Heard

variable [Signatures]

/-- A claim that says something of this kind about another and is heard. -/
structure Speaks (author : ClaimFacts) (kind : Relation) (target : ClaimFacts) : Prop where
  relation : ∃ relation ∈ author.claim.relations, relation.target = target.id ∧
    relation.kind = kind
  retracts : kind = .retracts → (signedSubmitter target.claim.submitter).isSome ∧
    author.claim.submitter = target.claim.submitter ∧ author.claim.verifySignature.isOk
  accepted : kind ≠ .retracts → author.verdict = some .accept

/-- Who is heard about a claim. -/
theorem mem_heard {facts : List ClaimFacts} (hnodup : (facts.map ClaimFacts.id).Nodup)
    {target : ClaimFacts} (htarget : target ∈ facts) {voice : String × Relation} :
    voice ∈ heard (new facts) target target.id ↔
      ∃ author ∈ facts, author.id = voice.1 ∧ Speaks author voice.2 target := by
  have hgrounded : ∀ author ∈ facts, author.id = voice.1 →
      (isGrounded (new facts) voice target = true ↔
        (voice.2 = .retracts → (signedSubmitter target.claim.submitter).isSome ∧
          author.claim.submitter = target.claim.submitter ∧ author.claim.verifySignature.isOk) ∧
        (voice.2 ≠ .retracts → author.verdict = some .accept)) := by
    intro author hauthor hid
    rw [isGrounded, (get?_facts hnodup).mpr ⟨hauthor, hid⟩]
    by_cases hretracts : voice.2 = .retracts
    · simp [hretracts, and_assoc]
    · simp [hretracts]
  rw [heard, List.mem_filter, mem_inbound hnodup htarget]
  constructor
  · rintro ⟨⟨author, hauthor, hid, hrelation⟩, hheard⟩
    obtain ⟨hretracts, haccepted⟩ := (hgrounded author hauthor hid).mp hheard
    exact ⟨author, hauthor, hid, hrelation, hretracts, haccepted⟩
  · rintro ⟨author, hauthor, hid, hspeaks⟩
    exact ⟨⟨author, hauthor, hid, hspeaks.relation⟩,
      (hgrounded author hauthor hid).mpr ⟨hspeaks.retracts, hspeaks.accepted⟩⟩

end Heard

/-! ## Who goes with whom -/

section Sources

variable [Sha256]

/-- The same party or the same work. -/
def SameSource (a b : ClaimFacts) : Prop :=
  a.claim.submitter = b.claim.submitter ∨ a.claim.artifactId = b.claim.artifactId

instance (a b : ClaimFacts) : Decidable (SameSource a b) := inferInstanceAs (Decidable (_ ∨ _))

/-- Two voices of a snapshot whose claims have the same party or the same work. -/
def OneSource (facts : List ClaimFacts) (a b : String × Relation) : Prop :=
  ∃ x ∈ facts, ∃ y ∈ facts, x.id = a.1 ∧ y.id = b.1 ∧ SameSource x y

variable {facts : List ClaimFacts}

theorem OneSource.symm {a b : String × Relation} (h : OneSource facts a b) :
    OneSource facts b a := by
  obtain ⟨x, hx, y, hy, hxa, hyb, hsame⟩ := h
  exact ⟨y, hy, x, hx, hyb, hxa, hsame.imp Eq.symm Eq.symm⟩

theorem correlated_iff (hnodup : (facts.map ClaimFacts.id).Nodup) {a b : String × Relation} :
    correlated (new facts) 0 a b = true ↔ OneSource facts a b := by
  unfold correlated
  constructor
  · intro h
    split at h
    · rename_i x y hx hy
      obtain ⟨hx, hxa⟩ := (get?_facts hnodup).mp hx
      obtain ⟨hy, hyb⟩ := (get?_facts hnodup).mp hy
      refine ⟨x, hx, y, hy, hxa, hyb, ?_⟩
      simpa [SameSource] using h
    · cases h
  · rintro ⟨x, hx, y, hy, hxa, hyb, hsame⟩
    rw [(get?_facts hnodup).mpr ⟨hx, hxa⟩, (get?_facts hnodup).mpr ⟨hy, hyb⟩]
    simpa [SameSource] using hsame

theorem mergeVoices_iff (hnodup : (facts.map ClaimFacts.id).Nodup)
    (heard : List (String × Relation)) (i j : Nat) :
    (match heard[i]?, heard[j]? with
      | some a, some b => correlated (new facts) 0 a b
      | _, _ => false) = true ↔
      ∃ a b, heard[i]? = some a ∧ heard[j]? = some b ∧ OneSource facts a b := by
  cases heard[i]? <;> cases heard[j]? <;> simp [correlated_iff hnodup]

/-- The classes of voices are the components of having one source. -/
theorem independenceClasses_eq (hnodup : (facts.map ClaimFacts.id).Nodup)
    (heard : List (String × Relation)) :
    ∃ number : Nat → Nat,
      independenceClasses (new facts) heard 0 = (List.range heard.length).map number ∧
        (∀ i, number i ≤ i) ∧
        ∀ i j, number i = number j ↔ Connected heard (OneSource facts) i j := by
  obtain ⟨number, hclasses, hle, -, hiff⟩ :=
    classesOf_eq (r := OneSource facts) (fun _ _ => .symm) (mergeVoices_iff hnodup heard)
  exact ⟨number, hclasses, hle, hiff⟩

/-- A class is numbered by the least index of its component. -/
theorem independenceClasses_isLeast (hnodup : (facts.map ClaimFacts.id).Nodup)
    {heard : List (String × Relation)} {i c : Nat}
    (hc : (independenceClasses (new facts) heard 0)[i]? = some c) :
    IsLeast {j | Connected heard (OneSource facts) i j} c :=
  classesOf_isLeast (fun _ _ => .symm) (mergeVoices_iff hnodup heard) hc

end Sources

theorem oneSource_self [Sha256] [Signatures]
    (hnodup : (facts.map ClaimFacts.id).Nodup) {target : ClaimFacts} (htarget : target ∈ facts)
    (h : voice ∈ heard (new facts) target target.id) : OneSource facts voice voice := by
  obtain ⟨author, hauthor, hid, -⟩ := (mem_heard hnodup htarget).mp h
  exact ⟨author, hauthor, author, hauthor, hid, hid, .inl rfl⟩

/-! ## What the voices come to -/

/-- What is known of the counts after some voices. -/
structure Counted (start voices : Voices) (heard : List ((String × Relation) × Nat)) : Prop where
  corroborating : ∀ c, c ∈ voices.corroborating ↔ c ∈ start.corroborating ∨
    ∃ voice ∈ heard, effect voice.1.2 = .corroborates ∧ voice.2 = c
  refuting : ∀ c, c ∈ voices.refuting ↔ c ∈ start.refuting ∨
    ∃ voice ∈ heard, voice.1.2 = .refutes ∧ voice.2 = c
  disputing : ∀ c, c ∈ voices.disputing ↔ c ∈ start.disputing ∨
    ∃ voice ∈ heard, (effect voice.1.2 = .contests ∧ voice.1.2 ≠ .refutes) ∧ voice.2 = c
  superseded : voices.supersededBy.isEmpty = true ↔
    start.supersededBy.isEmpty = true ∧ ∀ voice ∈ heard, effect voice.1.2 ≠ .supersedes
  retracted : voices.retractedBy ≠ none ↔
    start.retractedBy ≠ none ∨ ∃ voice ∈ heard, effect voice.1.2 = .withdraws

theorem counted_hear (voices : Voices) (voice : (String × Relation) × Nat) :
    Counted voices (voices.hear voice) [voice] := by
  obtain ⟨⟨id, kind⟩, c⟩ := voice
  cases kind <;> constructor <;> intros <;> simp only [Voices.hear, effect] <;> aesop

theorem exists_voice_append {α : Type*} {xs ys : List α} {p : α → Prop} :
    (∃ x ∈ xs ++ ys, p x) ↔ (∃ x ∈ xs, p x) ∨ ∃ x ∈ ys, p x := by
  simp only [List.mem_append, or_and_right, exists_or]

theorem Counted.trans {u v w : Voices} {xs ys : List ((String × Relation) × Nat)}
    (h : Counted u v xs) (h' : Counted v w ys) : Counted u w (xs ++ ys) where
  corroborating c := by rw [h'.corroborating, h.corroborating, exists_voice_append, or_assoc]
  refuting c := by rw [h'.refuting, h.refuting, exists_voice_append, or_assoc]
  disputing c := by rw [h'.disputing, h.disputing, exists_voice_append, or_assoc]
  superseded := by rw [h'.superseded, h.superseded, List.forall_mem_append, and_assoc]
  retracted := by rw [h'.retracted, h.retracted, exists_voice_append, or_assoc]

theorem counted_run (start : Voices) (heard : List ((String × Relation) × Nat)) :
    Counted start (heard.foldl Voices.hear start) heard := by
  induction heard generalizing start with
  | nil => constructor <;> simp
  | cons voice heard ih => exact (counted_hear start voice).trans (ih _)

end KnowledgeGraph

end Cairn.Ports.Knowledge
