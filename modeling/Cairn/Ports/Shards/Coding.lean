import Cairn.Ports.Crypto.Gf
import Cairn.Verified.Checks
import Cairn.Verified.Elimination

/-!
# The code behind shards

The bounds, `Coding`, `Layout`, `generator_row` and `invert` of
`src/shards/mod.rs`. A blob is cut into `data` blocks, and every shard is a
combination of them: `generator_row` gives the coefficients, the identity's
for a data shard and a Cauchy row for a parity shard.

`invert` is `Elimination.invert` over the field of bytes (`invert_eq`), and
any `data` rows of the generator have only the zero vector in common
(`generator_kernel`), so it never fails on them.
-/

namespace Cairn.Ports.Shards

open Cairn.Verified Cairn.Ports.Crypto

def MIN_CHUNK_LEN : Nat := 4 * 1024

def MAX_CHUNK_LEN : Nat := 4 * 1024 * 1024

def MAX_CODED_BYTES : Nat := 1 <<< 30

def MAX_SHARDS : Nat := 255

/-- Why a coding, a manifest or a reconstruction is refused. -/
inductive ShardError where
  | noDataShards
  | noParityShards
  | tooManyShards (data parity : UInt8)
  | badChunkLen (chunkLen : Nat)
  | tooLarge (total : Nat)
  | shardCountMismatch (declared expected : Nat)
  | notADigest (index : UInt8)
  | malformed (field : String)
  | noSuchShard (index shards : UInt8)
  | notEnoughShards (got need : Nat) (rejected : List UInt8)
  | digestMismatch (declared actual : String)
  | invariant (what : String)
  deriving DecidableEq, Repr

/-- How many data shards and how many parity shards. -/
structure Coding where
  data : UInt8
  parity : UInt8
  data_ne_zero : data ≠ 0
  parity_ne_zero : parity ≠ 0
  bounded : data.toNat + parity.toNat ≤ MAX_SHARDS
  deriving DecidableEq

def Coding.new (data parity : UInt8) : Except ShardError Coding :=
  if hdata : data = 0 then .error .noDataShards
  else if hparity : parity = 0 then .error .noParityShards
  else if hbounded : MAX_SHARDS < data.toNat + parity.toNat then .error (.tooManyShards data parity)
  else .ok ⟨data, parity, hdata, hparity, Nat.le_of_not_lt hbounded⟩

/-- `saturating_add`. -/
def Coding.shards (coding : Coding) : UInt8 :=
  if coding.data.toNat + coding.parity.toNat < 256 then coding.data + coding.parity else 255

def Coding.isData (coding : Coding) (index : UInt8) : Bool := index < coding.data

theorem Coding.toNat_shards (coding : Coding) :
    coding.shards.toNat = coding.data.toNat + coding.parity.toNat := by
  have h : coding.data.toNat + coding.parity.toNat ≤ 255 := coding.bounded
  rw [Coding.shards, if_pos (by omega), UInt8.toNat_add]
  omega

theorem Coding.toNat_data_pos (coding : Coding) : 0 < coding.data.toNat := by
  refine Nat.pos_of_ne_zero fun h => coding.data_ne_zero ?_
  exact UInt8.toNat_inj.mp h

theorem Coding.isData_iff (coding : Coding) (index : UInt8) :
    coding.isData index = true ↔ index.toNat < coding.data.toNat := by
  rw [Coding.isData, decide_eq_true_iff, UInt8.lt_iff_toNat_lt]

/-- `u32::is_power_of_two`. -/
def isPowerOfTwo (n : Nat) : Bool := (List.range 32).any fun k => 2 ^ k = n

/-- The chunk lengths a layout may have. -/
def LegalChunkLen (chunkLen : Nat) : Prop :=
  MIN_CHUNK_LEN ≤ chunkLen ∧ chunkLen ≤ MAX_CHUNK_LEN ∧ isPowerOfTwo chunkLen = true

instance (chunkLen : Nat) : Decidable (LegalChunkLen chunkLen) := by
  unfold LegalChunkLen
  infer_instance

/-- How a blob of a given size divides into shards and chunks. -/
structure Layout where
  total : Nat
  coding : Coding
  chunkLen : Nat
  legal : LegalChunkLen chunkLen
  bounded : total ≤ MAX_CODED_BYTES
  deriving DecidableEq

def Layout.new (total : Nat) (coding : Coding) (chunkLen : Nat) : Except ShardError Layout :=
  if hlegal : ¬LegalChunkLen chunkLen then .error (.badChunkLen chunkLen)
  else if hbounded : MAX_CODED_BYTES < total then .error (.tooLarge total)
  else .ok ⟨total, coding, chunkLen, not_not.mp hlegal, Nat.le_of_not_lt hbounded⟩

/-- `u64::div_ceil`. -/
def divCeil (n d : Nat) : Nat := if n % d = 0 then n / d else n / d + 1

namespace Layout

variable (layout : Layout)

/-- Bytes in every shard, data and parity alike. -/
def shardLen : Nat := divCeil layout.total layout.coding.data.toNat

/-- Chunks per shard, at least one. -/
def chunks : Nat := if layout.shardLen = 0 then 1 else divCeil layout.shardLen layout.chunkLen

def chunkOffset (chunk : Nat) : Option Nat :=
  if layout.chunks ≤ chunk then none else some (chunk * layout.chunkLen)

def chunkBytes (chunk : Nat) : Option Nat := do
  let offset ← layout.chunkOffset chunk
  some (min (layout.shardLen - offset) layout.chunkLen)

end Layout

/-- `slice::get` of a range. -/
def getRange {α : Type} (xs : List α) (start stop : Nat) : Option (List α) :=
  if start ≤ stop ∧ stop ≤ xs.length then some ((xs.drop start).take (stop - start)) else none

/-- The slice of a shard that is a chunk. -/
def Layout.slice (layout : Layout) (shard : List UInt8) (chunk : Nat) : Option (List UInt8) := do
  let offset ← layout.chunkOffset chunk
  let len ← layout.chunkBytes chunk
  getRange shard offset (offset + len)

/-- The coefficients of shard `index` over the data shards. -/
def generatorRow (coding : Coding) (index : UInt8) : Option (List UInt8) :=
  if coding.shards ≤ index then none
  else if coding.isData index then
    some ((List.replicate coding.data.toNat 0).set index.toNat 1)
  else
    (List.range coding.data.toNat).mapM fun column => Gf.inv (index ^^^ UInt8.ofNat column)

/-! ## Gauss–Jordan over bytes -/

/-- One row of the elimination below and above a pivot. -/
def clearRow (column : Nat) (pivotMatrix pivotInverse : List UInt8)
    (state : List (List UInt8) × List (List UInt8)) (row : Nat) :
    Option (List (List UInt8) × List (List UInt8)) :=
  if row = column then some state
  else do
    let factor ← Elimination.entryAt state.1 row column
    if factor = 0 then some state
    else
      let rowMatrix ← state.1[row]?
      let rowInverse ← state.2[row]?
      some (state.1.set row ((Gf.Row.of factor).mulAdd rowMatrix pivotMatrix),
        state.2.set row ((Gf.Row.of factor).mulAdd rowInverse pivotInverse))

/-- The work of one column: find a pivot, swap it up, scale it, clear the
column elsewhere. -/
def reduceColumn (size : Nat) (state : List (List UInt8) × List (List UInt8)) (column : Nat) :
    Option (List (List UInt8) × List (List UInt8)) := do
  let pivot ← (List.range' column (size - column)).find? fun row =>
    (Elimination.entryAt state.1 row column).any (· ≠ 0)
  let matrix := Elimination.swapAt state.1 column pivot
  let inverse := Elimination.swapAt state.2 column pivot
  let scale := Gf.Row.of (← Gf.inv (← Elimination.entryAt matrix column column))
  let pivotMatrix := (← matrix[column]?).map scale.apply
  let pivotInverse := (← inverse[column]?).map scale.apply
  (List.range size).foldlM (clearRow column pivotMatrix pivotInverse)
    (matrix.set column pivotMatrix, inverse.set column pivotInverse)

def invert (matrix : List (List UInt8)) : Option (List (List UInt8)) := do
  let size := matrix.length
  let inverse := (List.range size).map fun row => (List.replicate size 0).set row 1
  let state ← (List.range size).foldlM (reduceColumn size) (matrix, inverse)
  some state.2

/-! ## The same over the field -/

/-- `mul_add` is the field's own subtraction of a multiple. -/
def fieldMulSub (coefficient : UInt8) (dst src : List UInt8) : List UInt8 :=
  Elimination.mulSub (F := Gf.Elem) coefficient dst src

theorem mulAdd_eq (coefficient : UInt8) : ∀ dst src : List UInt8,
    (Gf.Row.of coefficient).mulAdd dst src = fieldMulSub coefficient dst src
  | [], [] | [], _ :: _ | _ :: _, [] => rfl
  | out :: dst, byte :: src => by
      rw [Gf.Row.mulAdd, Gf.Row.apply_of, mulAdd_eq coefficient dst src]
      rfl

theorem apply_eq (coefficient : UInt8) :
    (Gf.Row.of coefficient).apply = fun byte => Gf.mul coefficient byte :=
  funext fun byte => Gf.Row.apply_of coefficient byte

theorem clearRow_eq (column : Nat) (pivotMatrix pivotInverse : List UInt8)
    (state : List (List UInt8) × List (List UInt8)) (row : Nat) :
    clearRow column pivotMatrix pivotInverse state row =
      Elimination.clear (F := Gf.Elem) column pivotMatrix pivotInverse state row := by
  simp only [clearRow, mulAdd_eq]
  rfl

theorem reduceColumn_eq (size : Nat) (state : List (List UInt8) × List (List UInt8))
    (column : Nat) : reduceColumn size state column =
      Elimination.reduce (F := Gf.Elem) size state column := by
  have hclear : ∀ column pivotMatrix pivotInverse, clearRow column pivotMatrix pivotInverse =
      fun state row =>
        Elimination.clear (F := Gf.Elem) column pivotMatrix pivotInverse state row :=
    fun column pivotMatrix pivotInverse => funext fun state => funext fun row =>
      clearRow_eq column pivotMatrix pivotInverse state row
  simp only [reduceColumn, apply_eq, hclear]
  rfl

theorem invert_eq (matrix : List (List UInt8)) :
    invert matrix = Elimination.invert (F := Gf.Elem) matrix := by
  have hreduce : ∀ size, reduceColumn size =
      fun state column => Elimination.reduce (F := Gf.Elem) size state column :=
    fun size => funext fun state => funext fun column => reduceColumn_eq size state column
  simp only [invert, hreduce]
  rfl

/-- The value of a row of bytes at a vector. -/
def dot (size : Nat) (row : List UInt8) (x : Nat → Gf.Elem) : Gf.Elem :=
  Elimination.dot (F := Gf.Elem) size row x

variable {size : Nat} {coding : Coding}

theorem dot_congr (row : List UInt8) {x y : Nat → Gf.Elem}
    (h : ∀ j < size, x j = y j) : dot size row x = dot size row y :=
  Finset.sum_congr rfl fun j hj => congrArg (_ * ·) (h j (Finset.mem_range.mp hj))

theorem invert_spec {rows : List (List UInt8)} (h : Elimination.Square size rows)
    (hkernel : ∀ x, (∀ i < size, dot size (rows.getD i []) x = 0) → ∀ j < size, x j = 0) :
    ∃ inverse : List (List UInt8), invert rows = some inverse ∧ Elimination.Square size inverse ∧
      ∀ x, ∀ i < size,
        dot size (inverse.getD i []) (fun j => dot size (rows.getD j []) x) = x i := by
  obtain ⟨rfl, hlen⟩ := h
  obtain ⟨inverse, hinvert, hspec⟩ := Elimination.invert_spec (F := Gf.Elem) ⟨rfl, hlen⟩ hkernel
  exact ⟨inverse, (invert_eq rows).trans hinvert, hspec⟩

/-! ## The generator -/

/-- The coefficient of data shard `column` in shard `index`. -/
def coefficient (coding : Coding) (index : UInt8) (column : Nat) : Gf.Elem :=
  if index.toNat < coding.data.toNat then if index.toNat = column then 1 else 0
  else (Gf.Elem.of index - Gf.Elem.of (UInt8.ofNat column))⁻¹

theorem mapM_eq_some_map {α β : Type} {f : α → Option β} {g : α → β} : ∀ {l : List α},
    (∀ a ∈ l, f a = some (g a)) → l.mapM f = some (l.map g)
  | [], _ => rfl
  | a :: l, h => by
      rw [List.mapM_cons, h a List.mem_cons_self,
        mapM_eq_some_map fun b hb => h b (List.mem_cons_of_mem a hb)]
      rfl

theorem toNat_ofNat_of_lt {n : Nat} (h : n < 256) : (UInt8.ofNat n).toNat = n :=
  Nat.mod_eq_of_lt h

theorem generatorRow_spec {index : UInt8}
    (h : index.toNat < coding.shards.toNat) :
    ∃ row, generatorRow coding index = some row ∧ row.length = coding.data.toNat ∧
      ∀ column < coding.data.toNat,
        Gf.Elem.of (row.getD column 0) = coefficient coding index column := by
  have hindex : ¬coding.shards ≤ index := by
    rw [UInt8.le_iff_toNat_le]
    omega
  have hsize : coding.data.toNat < 256 := coding.data.toNat_lt
  by_cases hdata : index.toNat < coding.data.toNat
  · refine ⟨_, by rw [generatorRow, if_neg hindex, if_pos ((coding.isData_iff index).mpr hdata)],
      by rw [List.length_set, List.length_replicate], fun column _ => ?_⟩
    rw [coefficient, if_pos hdata]
    exact Elimination.getD_unitRow (F := Gf.Elem) hdata column
  · have hnot : ¬coding.isData index = true := fun hd => hdata ((coding.isData_iff index).mp hd)
    have hinv : ∀ column ∈ List.range coding.data.toNat,
        Gf.inv (index ^^^ UInt8.ofNat column) = some (Gf.pow (index ^^^ UInt8.ofNat column) 254) := by
      intro column hcolumn
      have hlt := List.mem_range.mp hcolumn
      refine if_neg fun hzero => hdata ?_
      rw [UInt8.xor_eq_zero_iff.mp hzero, toNat_ofNat_of_lt (by omega)]
      exact hlt
    refine ⟨_, by rw [generatorRow, if_neg hindex, if_neg hnot, mapM_eq_some_map hinv],
      by rw [List.length_map, List.length_range], fun column hcolumn => ?_⟩
    rw [coefficient, if_neg hdata, List.getD_eq_getElem?_getD, List.getElem?_map,
      List.getElem?_range hcolumn, Gf.Elem.sub_of]
    rfl

/-- Any `data` rows of the generator have only the zero vector in common: the
data shards among them fix their own places, and what is left is a Cauchy
matrix with as many rows as there are places left. -/
theorem generator_kernel (indices : Finset UInt8)
    (hcard : indices.card = coding.data.toNat) {x : Nat → Gf.Elem}
    (h : ∀ index ∈ indices, ∑ column ∈ Finset.range coding.data.toNat,
      coefficient coding index column * x column = 0) :
    ∀ column < coding.data.toNat, x column = 0 := by
  have hsize : coding.data.toNat < 256 := coding.data.toNat_lt
  -- A data shard among the rows says its own block is zero.
  have hdirect : ∀ column < coding.data.toNat, UInt8.ofNat column ∈ indices → x column = 0 := by
    intro column hcolumn hmem
    have hnat : (UInt8.ofNat column).toNat = column := toNat_ofNat_of_lt (by omega)
    have hsum := h _ hmem
    rw [Finset.sum_eq_single column] at hsum
    · rwa [coefficient, hnat, if_pos hcolumn, if_pos rfl, one_mul] at hsum
    · intro other _ hne
      rw [coefficient, hnat, if_pos hcolumn, if_neg hne.symm, zero_mul]
    · exact fun hnot => absurd (Finset.mem_range.mpr hcolumn) hnot
  let columns : Finset Gf.Elem := ((Finset.range coding.data.toNat).filter
    fun column => UInt8.ofNat column ∉ indices).image fun column => Gf.Elem.of (UInt8.ofNat column)
  let points : Finset Gf.Elem :=
    (indices.filter fun index => ¬index.toNat < coding.data.toNat).image Gf.Elem.of
  have hinj : Set.InjOn (fun column => Gf.Elem.of (UInt8.ofNat column))
      ((Finset.range coding.data.toNat).filter fun column => UInt8.ofNat column ∉ indices) := by
    intro a ha b hb heq
    have ha' := Finset.mem_range.mp (Finset.mem_filter.mp ha).1
    have hb' := Finset.mem_range.mp (Finset.mem_filter.mp hb).1
    have := congrArg UInt8.toNat (Gf.Elem.of_inj heq)
    rwa [toNat_ofNat_of_lt (by omega), toNat_ofNat_of_lt (by omega)] at this
  have hcount : columns.card ≤ points.card := by
    have hpoints : points.card =
        (indices.filter fun index => ¬index.toNat < coding.data.toNat).card :=
      Finset.card_image_of_injective _ fun _ _ => Gf.Elem.of_inj
    have hcolumns : columns.card = ((Finset.range coding.data.toNat).filter
        fun column => UInt8.ofNat column ∉ indices).card := Finset.card_image_of_injOn hinj
    have hrows := Finset.card_filter_add_card_filter_not (s := indices)
      fun index => index.toNat < coding.data.toNat
    have hplaces := Finset.card_filter_add_card_filter_not
      (s := Finset.range coding.data.toNat) fun column => UInt8.ofNat column ∈ indices
    have hle : (indices.filter fun index => index.toNat < coding.data.toNat).card ≤
        ((Finset.range coding.data.toNat).filter fun column => UInt8.ofNat column ∈ indices).card := by
      refine Finset.card_le_card_of_injOn UInt8.toNat ?_ fun _ _ _ _ => UInt8.toNat_inj.mp
      intro index hindex
      obtain ⟨hmem, hlt⟩ := Finset.mem_filter.mp hindex
      refine Finset.mem_filter.mpr ⟨Finset.mem_range.mpr hlt, ?_⟩
      rwa [UInt8.ofNat_toNat]
    rw [Finset.card_range] at hplaces
    omega
  have hdisjoint : Disjoint columns points := by
    rw [Finset.disjoint_left]
    intro e he he'
    obtain ⟨column, hcolumn, rfl⟩ := Finset.mem_image.mp he
    obtain ⟨index, hindex, heq⟩ := Finset.mem_image.mp he'
    have hlt := Finset.mem_range.mp (Finset.mem_filter.mp hcolumn).1
    refine (Finset.mem_filter.mp hindex).2 ?_
    rw [Gf.Elem.of_inj heq, toNat_ofNat_of_lt (by omega)]
    exact hlt
  have hpoints : ∀ t ∈ points, ∑ s ∈ columns, (t - s)⁻¹ * x s.byte.toNat = 0 := by
    intro t ht
    obtain ⟨index, hindex, rfl⟩ := Finset.mem_image.mp ht
    obtain ⟨hmem, hnot⟩ := Finset.mem_filter.mp hindex
    rw [Finset.sum_image hinj, Finset.sum_filter]
    refine (Finset.sum_congr rfl fun column hcolumn => ?_).trans (h index hmem)
    have hlt := Finset.mem_range.mp hcolumn
    by_cases hheld : UInt8.ofNat column ∈ indices
    · rw [if_neg (not_not.mpr hheld), hdirect column hlt hheld, mul_zero]
    · rw [if_pos hheld, Gf.Elem.byte_of, toNat_ofNat_of_lt (by omega), coefficient, if_neg hnot]
  intro column hcolumn
  by_cases hheld : UInt8.ofNat column ∈ indices
  · exact hdirect column hcolumn hheld
  · have hmem : Gf.Elem.of (UInt8.ofNat column) ∈ columns := Finset.mem_image.mpr
      ⟨column, Finset.mem_filter.mpr ⟨Finset.mem_range.mpr hcolumn, hheld⟩, rfl⟩
    have := Elimination.cauchy_kernel (x := fun e => x e.byte.toNat) hcount hdisjoint hpoints _ hmem
    rwa [Gf.Elem.byte_of, toNat_ofNat_of_lt (by omega)] at this

theorem dot_eq_sum {row : List UInt8} {a : Nat → Gf.Elem}
    (h : ∀ column < size, Gf.Elem.of (row.getD column 0) = a column) (x : Nat → Gf.Elem) :
    dot size row x = ∑ column ∈ Finset.range size, a column * x column :=
  Finset.sum_congr rfl fun column hcolumn =>
    congrArg (· * x column) (h column (Finset.mem_range.mp hcolumn))

/-- The matrix of any `data` shards is inverted, and the inverse undoes it. -/
theorem invert_generator {indices : List UInt8} (hnodup : indices.Nodup)
    (hlength : indices.length = coding.data.toNat)
    (hlt : ∀ index ∈ indices, index.toNat < coding.shards.toNat) :
    ∃ rows inverse : List (List UInt8), indices.mapM (generatorRow coding) = some rows ∧
      invert rows = some inverse ∧ Elimination.Square coding.data.toNat inverse ∧
      ∀ x : Nat → Gf.Elem, ∀ i < coding.data.toNat, dot coding.data.toNat (inverse.getD i [])
        (fun j => ∑ column ∈ Finset.range coding.data.toNat,
          coefficient coding (indices.getD j 0) column * x column) = x i := by
  let row : UInt8 → List UInt8 := fun index => (generatorRow coding index).getD []
  have hrow : ∀ index ∈ indices, generatorRow coding index = some (row index) ∧
      (row index).length = coding.data.toNat ∧ ∀ column < coding.data.toNat,
        Gf.Elem.of ((row index).getD column 0) = coefficient coding index column := by
    intro index hmem
    obtain ⟨r, hr, hlen, hcell⟩ := generatorRow_spec (hlt index hmem)
    have : row index = r := by simp [row, hr]
    exact ⟨by rw [hr, this], this ▸ hlen, this ▸ hcell⟩
  have hget : ∀ i < coding.data.toNat, (indices.map row).getD i [] = row (indices.getD i 0) ∧
      indices.getD i 0 ∈ indices := by
    intro i hi
    simp [List.getD_eq_getElem?_getD, hlength, hi]
  have hsquare : Elimination.Square coding.data.toNat (indices.map row) := by
    refine ⟨by rw [List.length_map, hlength], fun i hi => ?_⟩
    rw [(hget i hi).1]
    exact (hrow _ (hget i hi).2).2.1
  have hdot : ∀ x, ∀ i < coding.data.toNat, dot coding.data.toNat ((indices.map row).getD i []) x =
      ∑ column ∈ Finset.range coding.data.toNat,
        coefficient coding (indices.getD i 0) column * x column := by
    intro x i hi
    rw [(hget i hi).1]
    exact dot_eq_sum (hrow _ (hget i hi).2).2.2 x
  obtain ⟨inverse, hinvert, hsquare', hundo⟩ := invert_spec hsquare (by
    intro x hx
    refine generator_kernel indices.toFinset ?_ fun index hmem => ?_
    · rw [List.toFinset_card_of_nodup hnodup, hlength]
    · obtain ⟨i, hi, rfl⟩ := List.getElem_of_mem (List.mem_toFinset.mp hmem)
      have := hdot x i (hlength ▸ hi)
      rw [hx i (hlength ▸ hi), List.getD_eq_getElem?_getD, List.getElem?_eq_getElem hi] at this
      exact this.symm)
  refine ⟨indices.map row, inverse, mapM_eq_some_map fun index hmem => (hrow index hmem).1,
    hinvert, hsquare', fun x i hi => ?_⟩
  rw [← hundo x i hi]
  exact dot_congr _ fun j hj => (hdot x j hj).symm

end Cairn.Ports.Shards
