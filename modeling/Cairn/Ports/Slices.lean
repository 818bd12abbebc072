import Cairn.Ports.Node.Jobs
import Cairn.Ports.Node.Units
import Cairn.Ports.Partition

/-!
# Who works on which unit

A job is split by mapping the slice of an assignment onto the units of a
piecework block, and a unit is known by the digest of the fields the block picks
out of it. A unit is worked on in the slice that its point of the space lies in.
-/

namespace Cairn.Ports

open Cairn.Verified
open Cairn.Ports.Canonical

namespace Assignment

/-- A slice as its ends are handed on. -/
def slice (a : Assignment) : UInt64 × UInt64 := (.ofNat a.share.1, .ofNat a.share.2)

theorem share_le (a : Assignment) : a.share.1 ≤ SPACE ∧ a.share.2 ≤ SPACE := by
  unfold share
  split
  · exact ⟨Nat.zero_le _, Nat.zero_le _⟩
  · exact ⟨Nat.min_le_right _ _, Nat.min_le_right _ _⟩

theorem toNat_slice (a : Assignment) :
    a.slice.1.toNat = a.share.1 ∧ a.slice.2.toNat = a.share.2 := by
  obtain ⟨hlo, hhi⟩ := a.share_le
  unfold SPACE at hlo hhi
  exact ⟨UInt64.toNat_ofNat_of_lt' (by simp [UInt64.size]; omega),
    UInt64.toNat_ofNat_of_lt' (by simp [UInt64.size]; omega)⟩

end Assignment

namespace Piecework

/-! ## Ranges of units -/

/-- The point of the space that stands for a unit. -/
def pointOf (units unit : Nat) : Nat := ((unit + 1) * SPACE - 1) / units

theorem pointOf_lt {units unit : Nat} (h : unit < units) : pointOf units unit < SPACE := by
  have hspace : 0 < SPACE := by decide
  have hle : (unit + 1) * SPACE ≤ units * SPACE := Nat.mul_le_mul_right _ h
  have hpos : 0 < (unit + 1) * SPACE := Nat.mul_pos (Nat.succ_pos _) hspace
  rw [pointOf, Nat.div_lt_iff_lt_mul (by omega), Nat.mul_comm SPACE]
  omega

/-- Both ends of a range, compared with a unit. -/
theorem floor_le_iff {units unit : Nat} (h : unit < units) (bound : Nat) :
    bound * units / SPACE ≤ unit ↔ bound ≤ pointOf units unit := by
  have hspace : 0 < SPACE := by decide
  have hpos : 0 < (unit + 1) * SPACE := Nat.mul_pos (Nat.succ_pos _) hspace
  rw [pointOf, Nat.le_div_iff_mul_le (by omega), ← Nat.lt_add_one_iff,
    Nat.div_lt_iff_lt_mul hspace]
  omega

theorem unitRange_slice {p : Piecework} {units : UInt64} (h : p.units = some units)
    {a : Assignment} (hle : a.share.1 ≤ a.share.2) : p.unitRange a.slice =
      some (a.share.1 * units.toNat / SPACE, a.share.2 * units.toNat / SPACE) := by
  have hends : a.share.1 ≤ SPACE ∧ a.share.2 ≤ SPACE := a.share_le
  obtain ⟨hlo, hhi⟩ := a.toNat_slice
  have hfits : ∀ bound, bound ≤ SPACE →
      bound * units.toNat / SPACE % UInt64.size = bound * units.toNat / SPACE := by
    intro bound hbound
    have hquotient : bound * units.toNat / SPACE ≤ units.toNat :=
      Nat.div_le_of_le_mul (Nat.mul_le_mul_right _ hbound)
    exact Nat.mod_eq_of_lt (hquotient.trans_lt units.toNat_lt)
  have hgood : ¬(a.slice.2 < a.slice.1 ∨ a.slice.2.toNat > SPACE) := by
    rw [UInt64.lt_iff_toNat_lt, hlo, hhi]
    omega
  rw [unitRange, h, Option.map_some, if_neg hgood, hlo, hhi, hfits _ hends.1, hfits _ hends.2]

/-- The range of an assignment that holds a unit is the one whose slice holds the
unit's point. -/
theorem mem_unitRange_iff {p : Piecework} {units : UInt64} (h : p.units = some units)
    {a : Assignment} (hle : a.share.1 ≤ a.share.2) {unit : Nat} (hunit : unit < units.toNat) :
    (∃ first last, p.unitRange a.slice = some (first, last) ∧ first ≤ unit ∧ unit < last) ↔
      a.Within (pointOf units.toNat unit) := by
  rw [unitRange_slice h hle]
  unfold Assignment.Within
  rw [← floor_le_iff hunit, ← not_le, ← floor_le_iff hunit, not_le]
  constructor
  · rintro ⟨first, last, heq, hfirst, hlast⟩
    cases heq
    exact ⟨hfirst, hlast⟩
  · rintro ⟨hfirst, hlast⟩
    exact ⟨_, _, rfl, hfirst, hlast⟩

theorem share_ordered {a : Assignment} (h : a.partition < a.partitions) :
    a.share.1 ≤ a.share.2 := by
  have hlt := UInt32.lt_iff_toNat_lt.mp h
  have hfits : (a.partition.toNat + 1) * (Assignment.SPACE / a.partitions.toNat) ≤
      Assignment.SPACE := (Nat.mul_le_mul_right _ hlt).trans (Nat.mul_div_le _ _)
  have hstep : a.partition.toNat * (Assignment.SPACE / a.partitions.toNat) ≤
      (a.partition.toNat + 1) * (Assignment.SPACE / a.partitions.toNat) :=
    Nat.mul_le_mul_right _ (Nat.le_succ _)
  rw [Assignment.share_of_lt h]
  dsimp only
  split
  · exact hstep.trans hfits
  · exact hstep

/-! ## Keys -/

/-- What a block picks out of a unit to know it by. -/
def named (p : Piecework) (unit : Value) : Option Value :=
  match p.key with
  | none => some unit
  | some (.field name) => unit.get name
  | some (.fields names) =>
    (names.mapM fun name => (unit.get name).map fun v => (name, v)).map Value.object

/-- What is written before the digest of a unit. -/
def keyPrefix (p : Piecework) : String :=
  match p.key with
  | none => "piece:"
  | some (.field name) => "piece:" ++ name ++ ":"
  | some (.fields names) => "piece:" ++ ",".intercalate names ++ ":"

/-- Two units are one for a block: the same value, or the same in every field
that the block names. -/
def SameUnit (p : Piecework) (unit unit' : Value) : Prop :=
  match p.key with
  | none => unit = unit'
  | some (.field name) => ∃ v, unit.get name = some v ∧ unit'.get name = some v
  | some (.fields names) => ∀ name ∈ names, ∃ v, unit.get name = some v ∧ unit'.get name = some v

/-- The named fields of a unit that has them all. -/
theorem mapM_get_eq_some {unit : Value} {names : List String} {values : List (String × Value)} :
    (names.mapM fun name => (unit.get name).map fun v => (name, v)) = some values ↔
      values.map Prod.fst = names ∧ ∀ e ∈ values, unit.get e.1 = some e.2 := by
  induction names generalizing values with
  | nil =>
    rw [List.mapM_nil, List.map_eq_nil_iff]
    constructor
    · rintro ⟨⟩
      exact ⟨rfl, fun e he => by cases he⟩
    · rintro ⟨rfl, -⟩
      rfl
  | cons name names ih =>
    rw [List.mapM_cons]
    constructor
    · intro h
      obtain ⟨first, hfirst, h⟩ := Option.bind_eq_some_iff.mp h
      obtain ⟨rest, hrest, h⟩ := Option.bind_eq_some_iff.mp h
      obtain ⟨v, hv, rfl⟩ := Option.map_eq_some_iff.mp hfirst
      obtain ⟨hnames, hall⟩ := ih.mp hrest
      obtain rfl := Option.some_inj.mp h
      exact ⟨by rw [List.map_cons, hnames], List.forall_mem_cons.mpr ⟨hv, hall⟩⟩
    · rintro ⟨hnames, hall⟩
      cases values with
      | nil => cases hnames
      | cons first rest =>
        obtain ⟨rfl, hrest⟩ := List.cons.inj hnames
        obtain ⟨hfirst, hall⟩ := List.forall_mem_cons.mp hall
        rw [hfirst, ih.mpr ⟨hrest, hall⟩]
        rfl

/-- The object of the named fields has what the unit has there. -/
theorem get_object_named {unit : Value} {values : List (String × Value)}
    (hall : ∀ e ∈ values, unit.get e.1 = some e.2) {name : String}
    (hname : name ∈ values.map Prod.fst) : (Value.object values).get name = unit.get name := by
  obtain ⟨⟨name, v⟩, hmem, rfl⟩ := List.mem_map.mp hname
  rw [hall _ hmem, Value.object, Value.get_objectOf]
  exact BTreeMap.get?_ofList_of_unique hmem fun y hy =>
    Option.some_inj.mp ((hall _ hy).symm.trans (hall _ hmem))

theorem named_eq_iff (p : Piecework) (unit unit' : Value) :
    (∃ v, p.named unit = some v ∧ p.named unit' = some v) ↔ p.SameUnit unit unit' := by
  unfold named SameUnit
  cases p.key with
  | none =>
    constructor
    · rintro ⟨v, h, h'⟩
      exact (Option.some_inj.mp h).trans (Option.some_inj.mp h').symm
    · rintro rfl
      exact ⟨unit, rfl, rfl⟩
  | some key =>
    cases key with
    | field name => exact Iff.rfl
    | fields names =>
      constructor
      · rintro ⟨v, h, h'⟩ name hname
        obtain ⟨values, hvalues, rfl⟩ := Option.map_eq_some_iff.mp h
        obtain ⟨values', hvalues', heq⟩ := Option.map_eq_some_iff.mp h'
        obtain ⟨hnames, hall⟩ := mapM_get_eq_some.mp hvalues
        obtain ⟨hnames', hall'⟩ := mapM_get_eq_some.mp hvalues'
        rw [← get_object_named hall' (hnames' ▸ hname), heq,
          get_object_named hall (hnames ▸ hname)]
        obtain ⟨⟨name, v⟩, hmem, rfl⟩ := List.mem_map.mp (hnames ▸ hname)
        exact ⟨v, hall _ hmem, hall _ hmem⟩
      · intro h
        have hvalues : ∀ item : Value,
            (∀ name ∈ names, item.get name = some ((unit.get name).getD Value.null)) →
            (names.mapM fun name => (item.get name).map fun v => (name, v)) =
              some (names.map fun name => (name, (unit.get name).getD Value.null)) := by
          intro item hitem
          refine mapM_get_eq_some.mpr ⟨by simp [Function.comp_def], fun e he => ?_⟩
          obtain ⟨name, hname, rfl⟩ := List.mem_map.mp he
          exact hitem name hname
        have hunit := hvalues unit fun name hname => by
          obtain ⟨v, hv, -⟩ := h name hname
          rw [hv]
          rfl
        have hunit' := hvalues unit' fun name hname => by
          obtain ⟨v, hv, hv'⟩ := h name hname
          rw [hv, hv']
          rfl
        dsimp only
        rw [hunit, hunit']
        exact ⟨_, rfl, rfl⟩

section Keys

variable [Sha256]

theorem noveltyKey_eq (p : Piecework) (unit : Value) :
    p.noveltyKey unit = (p.named unit).map fun v => p.keyPrefix ++ v.digest := by
  unfold noveltyKey named keyPrefix
  cases p.key with
  | none => rfl
  | some key =>
    cases key with
    | field name => rfl
    | fields names =>
      dsimp only
      cases names.mapM fun name => (unit.get name).map fun v => (name, v) with
      | none => rfl
      | some values => rfl

theorem mem_unitKeys {p : Piecework} {artifact : Value} {key : String} :
    key ∈ p.unitKeys artifact ↔ ∃ unit ∈ p.unitsIn artifact, p.noveltyKey unit = some key := by
  unfold unitKeys
  rw [Log.mem_foldl_dedup, List.mem_filterMap]
  exact or_iff_right List.not_mem_nil

/-- The texts that are hashed for the keys of an artifact. -/
def KeyTexts (p : Piecework) (artifact : Value) (text : String) : Prop :=
  ∃ unit ∈ p.unitsIn artifact, ∃ v, p.named unit = some v ∧ text = v.canonicalString

/-- Artifacts share a key for a unit that both answer, and only for one. -/
theorem shared_key_iff {p : Piecework} {artifact artifact' : Value}
    (hcol : NoCollision fun text => p.KeyTexts artifact text ∨ p.KeyTexts artifact' text) :
    (∃ key ∈ p.unitKeys artifact, key ∈ p.unitKeys artifact') ↔
      ∃ unit ∈ p.unitsIn artifact, ∃ unit' ∈ p.unitsIn artifact', p.SameUnit unit unit' := by
  simp only [mem_unitKeys, noveltyKey_eq, ← named_eq_iff]
  constructor
  · rintro ⟨key, ⟨unit, hunit, hkey⟩, unit', hunit', hkey'⟩
    obtain ⟨v, hv, rfl⟩ := Option.map_eq_some_iff.mp hkey
    obtain ⟨v', hv', heq⟩ := Option.map_eq_some_iff.mp hkey'
    have htext := hcol _ _ (.inr ⟨unit', hunit', v', hv', rfl⟩) (.inl ⟨unit, hunit, v, hv, rfl⟩)
      ((String.append_right_inj _).mp heq)
    obtain rfl := Value.canonicalString_injective htext
    exact ⟨unit, hunit, unit', hunit', v', hv, hv'⟩
  · rintro ⟨unit, hunit, unit', hunit', v, hv, hv'⟩
    exact ⟨_, ⟨unit, hunit, by rw [hv]; rfl⟩, unit', hunit', by rw [hv']; rfl⟩

/-- The ranges of the assignments share out the units of a block, each to one of
them; an artifact has no key twice, and shares one with another exactly when both
answer a unit that is the same for the block. -/
theorem units_exact (p : Piecework) (nodeId objectiveId : String) (epoch : UInt64) :
    (∀ units, p.units = some units → ∀ partitions : UInt32, 1 ≤ partitions →
      (∀ unit < units.toNat, ∃! partition, partition < partitions ∧ ∃ first last,
        p.unitRange (Assignment.slice { nodeId, objectiveId, epoch, partition, partitions }) =
          some (first, last) ∧ first ≤ unit ∧ unit < last) ∧
      ∀ partition < partitions, ∃ first last,
        p.unitRange (Assignment.slice { nodeId, objectiveId, epoch, partition, partitions }) =
          some (first, last) ∧ first ≤ last ∧ last ≤ units.toNat) ∧
    ∀ artifact artifact', (p.unitKeys artifact).Nodup ∧
      (NoCollision (fun text => p.KeyTexts artifact text ∨ p.KeyTexts artifact' text) →
        ((∃ key ∈ p.unitKeys artifact, key ∈ p.unitKeys artifact') ↔
          ∃ unit ∈ p.unitsIn artifact, ∃ unit' ∈ p.unitsIn artifact', p.SameUnit unit unit')) := by
  refine ⟨fun units h partitions hone => ⟨fun unit hunit => ?_, fun partition hlt => ?_⟩,
    fun artifact artifact' => ⟨p.nodup_unitKeys artifact, shared_key_iff⟩⟩
  · obtain ⟨partition, ⟨hlt, hwithin⟩, hunique⟩ :=
      Assignment.exists_unique_partition nodeId objectiveId epoch hone (pointOf_lt hunit)
    refine ⟨partition, ⟨hlt, (mem_unitRange_iff h (share_ordered hlt) hunit).mpr hwithin⟩, ?_⟩
    rintro other ⟨hother, hrange⟩
    exact hunique other ⟨hother, (mem_unitRange_iff h (share_ordered hother) hunit).mp hrange⟩
  · have hordered := share_ordered (a := { nodeId, objectiveId, epoch, partition, partitions }) hlt
    refine ⟨_, _, unitRange_slice h hordered, ?_, ?_⟩
    · exact Nat.div_le_div_right (Nat.mul_le_mul_right _ hordered)
    · exact Nat.div_le_of_le_mul (Nat.mul_le_mul_right _ (Assignment.share_le _).2)

end Keys

/-! ## A batch of one -/

def sampleBlock : Piecework where
  unitPrice := 1
  units := some 10
  key := none
  items := some "jobs"

def sampleArtifact : Value := .object [("jobs", .array [.string "first"])]

theorem unitsIn_sampleArtifact : sampleBlock.unitsIn sampleArtifact = [.string "first"] := by
  simp [unitsIn, sampleBlock, sampleArtifact, Value.get_object, BTreeMap.lookupEntry]

theorem units_exact_sample :
    (∃! partition, partition < 3 ∧ ∃ first last,
      sampleBlock.unitRange (Assignment.slice ⟨"node", "objective", 1, partition, 3⟩) =
        some (first, last) ∧ first ≤ 4 ∧ 4 < last) ∧
    ∃ key ∈ @unitKeys (Sha256.ofTable []) sampleBlock sampleArtifact,
      key ∈ @unitKeys (Sha256.ofTable []) sampleBlock sampleArtifact := by
  let _ : Sha256 := Sha256.ofTable []
  have hcol : NoCollision fun text => sampleBlock.KeyTexts sampleArtifact text ∨
      sampleBlock.KeyTexts sampleArtifact text := by
    have hone : ∀ text, sampleBlock.KeyTexts sampleArtifact text →
        text = (Value.string "first").canonicalString := by
      rintro text ⟨unit, hunit, v, hv, rfl⟩
      rw [unitsIn_sampleArtifact, List.mem_singleton] at hunit
      rw [hunit] at hv
      rw [← Option.some_inj.mp hv]
    intro x y hx hy _
    rw [or_self] at hx hy
    rw [hone x hx, hone y hy]
  obtain ⟨hranges, hkeys⟩ := sampleBlock.units_exact "node" "objective" 1
  refine ⟨(hranges 10 rfl 3 (by decide)).1 4 (by decide),
    ((hkeys sampleArtifact sampleArtifact).2 hcol).mpr ?_⟩
  rw [unitsIn_sampleArtifact]
  exact ⟨_, List.mem_singleton_self _, _, List.mem_singleton_self _, rfl⟩

end Piecework

end Cairn.Ports
