import Cairn.Verified.BTreeMap

/-!
# Canonical values

`src/canonical.rs` declares `Value` as an algebraic type without a float
variant, whose objects are `BTreeMap<String, Value>`. An inductive type
cannot contain a sorted map of itself, so the tree is declared first with
plain association lists (`Tree`), `Tree.WF` says that every object in it is
listed in strictly increasing key order, and `Value` is the subtype. `View`
gives the declared constructors back: `ofView` and `view` are inverse to
each other, and `Value.induct` is the induction principle the Rust type
would have.

The only facts used below about `String` are its order and its decidable
equality: byte order and code-point order coincide, so `<` on Lean strings
is the order `BTreeMap<String, _>` iterates in.
-/

namespace Cairn.Ports.Canonical

open Cairn.Verified

/-- `i128`: the integers the format can carry. -/
def I128 : Type := { i : Int // -(2 ^ 127) ≤ i ∧ i < 2 ^ 127 }

instance : DecidableEq I128 := inferInstanceAs (DecidableEq { _i : Int // _ })

/-- `i128::from` on an unsigned 64-bit number. -/
def I128.ofUInt64 (n : UInt64) : I128 :=
  ⟨n.toNat, by have := n.toNat_lt; omega⟩

@[simp] theorem I128.val_ofUInt64 (n : UInt64) : (I128.ofUInt64 n).val = n.toNat := rfl

/-- `i128::try_from(i).ok()` on an unbounded integer. -/
def I128.ofInt? (i : Int) : Option I128 :=
  if h : -(2 ^ 127) ≤ i ∧ i < 2 ^ 127 then some ⟨i, h⟩ else none

@[simp] theorem I128.ofInt?_val (i : I128) : I128.ofInt? i.val = some i := by
  rw [I128.ofInt?, dif_pos i.property]
  rfl

/-! ## The tree and its well-formedness -/

/-- The shape of a value, with objects as plain listings. -/
inductive Tree where
  | null
  | bool (b : Bool)
  | int (i : I128)
  | string (s : String)
  | array (items : List Tree)
  | object (fields : List (String × Tree))

mutual

/-- Every object in the tree is listed in strictly increasing key order. -/
def Tree.WF : Tree → Prop
  | .null => True
  | .bool _ => True
  | .int _ => True
  | .string _ => True
  | .array items => Tree.WFItems items
  | .object fields => (fields.Pairwise fun a b => a.1 < b.1) ∧ Tree.WFFields fields

def Tree.WFItems : List Tree → Prop
  | [] => True
  | t :: ts => t.WF ∧ Tree.WFItems ts

def Tree.WFFields : List (String × Tree) → Prop
  | [] => True
  | (_, t) :: fs => t.WF ∧ Tree.WFFields fs

end

theorem Tree.wfItems_iff {ts : List Tree} : Tree.WFItems ts ↔ ∀ t ∈ ts, t.WF := by
  induction ts with
  | nil => simp [Tree.WFItems]
  | cons t ts ih => simp [Tree.WFItems, ih]

theorem Tree.wfFields_iff {fs : List (String × Tree)} :
    Tree.WFFields fs ↔ ∀ e ∈ fs, e.2.WF := by
  induction fs with
  | nil => simp [Tree.WFFields]
  | cons e fs ih =>
    obtain ⟨k, t⟩ := e
    simp [Tree.WFFields, ih]

theorem Tree.wf_array {ts : List Tree} : (Tree.array ts).WF ↔ Tree.WFItems ts := Iff.rfl

theorem Tree.wf_object {fs : List (String × Tree)} :
    (Tree.object fs).WF ↔ (fs.Pairwise fun a b => a.1 < b.1) ∧ Tree.WFFields fs := Iff.rfl

/-- A canonically serializable value. -/
structure Value where
  tree : Tree
  wf : tree.WF

namespace Value

theorem tree_injective {v w : Value} (h : v.tree = w.tree) : v = w := by
  obtain ⟨t, ht⟩ := v
  obtain ⟨u, hu⟩ := w
  cases h
  rfl

@[simp] theorem tree_inj {v w : Value} : v.tree = w.tree ↔ v = w :=
  ⟨tree_injective, fun h => h ▸ rfl⟩

/-! ## The declared constructors -/

def null : Value := ⟨.null, trivial⟩

def bool (b : Bool) : Value := ⟨.bool b, trivial⟩

def int (i : I128) : Value := ⟨.int i, trivial⟩

def string (s : String) : Value := ⟨.string s, trivial⟩

/-- `Value::Array`. -/
def array (items : List Value) : Value :=
  ⟨.array (items.map tree), by
    rw [Tree.WF, Tree.wfItems_iff]
    intro t ht
    obtain ⟨v, -, rfl⟩ := List.mem_map.mp ht
    exact v.wf⟩

/-- `Value::Object`. -/
def objectOf (map : BTreeMap String Value) : Value :=
  ⟨.object (map.entries.map fun e => (e.1, e.2.tree)), by
    rw [Tree.WF, Tree.wfFields_iff]
    refine ⟨List.pairwise_map.mpr map.sorted, ?_⟩
    intro e he
    obtain ⟨f, -, rfl⟩ := List.mem_map.mp he
    exact f.2.wf⟩

/-- `Value::object`: collect pairs into a map, a later pair winning. -/
def object (pairs : List (String × Value)) : Value := objectOf (BTreeMap.ofList pairs)

/-- The six variants as the source declares them. -/
inductive View where
  | null
  | bool (b : Bool)
  | int (i : I128)
  | string (s : String)
  | array (items : List Value)
  | object (map : BTreeMap String Value)

/-- The items of a well-formed array, each with its own well-formedness. -/
def attachItems : (ts : List Tree) → Tree.WFItems ts → List Value
  | [], _ => []
  | t :: ts, h => ⟨t, h.1⟩ :: attachItems ts h.2

/-- The fields of a well-formed object, each with its own well-formedness. -/
def attachFields : (fs : List (String × Tree)) → Tree.WFFields fs → List (String × Value)
  | [], _ => []
  | (k, t) :: fs, h => (k, ⟨t, h.1⟩) :: attachFields fs h.2

theorem map_tree_attachItems (ts : List Tree) (h : Tree.WFItems ts) :
    (attachItems ts h).map tree = ts := by
  induction ts with
  | nil => rfl
  | cons t ts ih => simp [attachItems, ih]

theorem map_tree_attachFields (fs : List (String × Tree)) (h : Tree.WFFields fs) :
    ((attachFields fs h).map fun e => (e.1, e.2.tree)) = fs := by
  induction fs with
  | nil => rfl
  | cons e fs ih =>
    obtain ⟨k, t⟩ := e
    simp [attachFields, ih]

theorem sorted_attachFields (fs : List (String × Tree)) (h : Tree.WFFields fs)
    (hs : fs.Pairwise fun a b => a.1 < b.1) :
    (attachFields fs h).Pairwise fun a b => a.1 < b.1 := by
  induction fs with
  | nil => exact List.Pairwise.nil
  | cons e fs ih =>
    obtain ⟨k, t⟩ := e
    obtain ⟨hhd, htl⟩ := List.pairwise_cons.mp hs
    refine List.pairwise_cons.mpr ⟨?_, ih h.2 htl⟩
    intro f hf
    have hmem : (f.1, f.2.tree) ∈ fs := by
      rw [← map_tree_attachFields fs h.2]
      exact List.mem_map.mpr ⟨f, hf, rfl⟩
    exact hhd _ hmem

/-- Match on the variant of a value. -/
def view : Value → View
  | ⟨.null, _⟩ => .null
  | ⟨.bool b, _⟩ => .bool b
  | ⟨.int i, _⟩ => .int i
  | ⟨.string s, _⟩ => .string s
  | ⟨.array ts, h⟩ => .array (attachItems ts (Tree.wf_array.mp h))
  | ⟨.object fs, h⟩ =>
    .object ⟨attachFields fs (Tree.wf_object.mp h).2,
      sorted_attachFields fs (Tree.wf_object.mp h).2 (Tree.wf_object.mp h).1⟩

/-- Build a value from its variant. -/
def ofView : View → Value
  | .null => null
  | .bool b => bool b
  | .int i => int i
  | .string s => string s
  | .array items => array items
  | .object map => objectOf map

theorem ofView_view (v : Value) : ofView v.view = v := by
  obtain ⟨t, h⟩ := v
  apply tree_injective
  cases t with
  | null => rfl
  | bool b => rfl
  | int i => rfl
  | string s => rfl
  | array ts =>
    show Tree.array ((attachItems ts (Tree.wf_array.mp h)).map tree) = Tree.array ts
    rw [map_tree_attachItems]
  | object fs =>
    show Tree.object ((attachFields fs (Tree.wf_object.mp h).2).map
      fun e => (e.1, e.2.tree)) = Tree.object fs
    rw [map_tree_attachFields]

theorem attachItems_map_tree (vs : List Value) (h : Tree.WFItems (vs.map tree)) :
    attachItems (vs.map tree) h = vs := by
  induction vs with
  | nil => rfl
  | cons v vs ih =>
    show (⟨v.tree, h.1⟩ : Value) :: attachItems (vs.map tree) h.2 = v :: vs
    rw [ih]

theorem attachFields_map_tree (es : List (String × Value))
    (h : Tree.WFFields (es.map fun e => (e.1, e.2.tree))) :
    attachFields (es.map fun e => (e.1, e.2.tree)) h = es := by
  induction es with
  | nil => rfl
  | cons e es ih =>
    show (e.1, (⟨e.2.tree, h.1⟩ : Value)) :: attachFields (es.map _) h.2 = e :: es
    rw [ih]

@[simp] theorem view_ofView (w : View) : (ofView w).view = w := by
  cases w with
  | null => rfl
  | bool b => rfl
  | int i => rfl
  | string s => rfl
  | array items =>
    show View.array (attachItems (items.map tree) _) = View.array items
    rw [attachItems_map_tree]
  | object map =>
    show View.object ⟨attachFields (map.entries.map _) _, _⟩ = View.object map
    congr 1
    exact BTreeMap.entries_injective (attachFields_map_tree map.entries _)

@[simp] theorem view_null : null.view = .null := rfl

@[simp] theorem view_bool (b : Bool) : (bool b).view = .bool b := rfl

@[simp] theorem view_int (i : I128) : (int i).view = .int i := rfl

@[simp] theorem view_string (s : String) : (string s).view = .string s := rfl

@[simp] theorem view_array (items : List Value) : (array items).view = .array items :=
  view_ofView (.array items)

@[simp] theorem view_objectOf (map : BTreeMap String Value) :
    (objectOf map).view = .object map :=
  view_ofView (.object map)

/-! ## Induction over the declared constructors -/

theorem sizeOf_lt_of_mem_attachItems {v : Value} (ts : List Tree) (h : Tree.WFItems ts)
    (hv : v ∈ attachItems ts h) : sizeOf v.tree < sizeOf ts := by
  induction ts with
  | nil => simp [attachItems] at hv
  | cons t ts ih =>
    rcases List.mem_cons.mp hv with rfl | hv
    · simp
      omega
    · have := ih h.2 hv
      simp
      omega

theorem sizeOf_lt_of_mem_attachFields {e : String × Value} (fs : List (String × Tree))
    (h : Tree.WFFields fs) (he : e ∈ attachFields fs h) : sizeOf e.2.tree < sizeOf fs := by
  induction fs with
  | nil => simp [attachFields] at he
  | cons f fs ih =>
    obtain ⟨k, t⟩ := f
    rcases List.mem_cons.mp he with rfl | he
    · simp
      omega
    · have := ih h.2 he
      simp
      omega

/-- **Induction on values**: the principle the source's own declaration of
`Value` has. -/
theorem induct {motive : Value → Prop}
    (hnull : motive null) (hbool : ∀ b, motive (bool b)) (hint : ∀ i, motive (int i))
    (hstring : ∀ s, motive (string s))
    (harray : ∀ items : List Value, (∀ v ∈ items, motive v) → motive (array items))
    (hobject : ∀ map : BTreeMap String Value,
      (∀ e ∈ map.entries, motive e.2) → motive (objectOf map)) (v : Value) : motive v := by
  -- Strong induction on the size of the tree; the view supplies the children.
  obtain ⟨n, hn⟩ : ∃ n, sizeOf v.tree = n := ⟨_, rfl⟩
  induction n using Nat.strongRecOn generalizing v with
  | ind n ih =>
    obtain ⟨t, h⟩ := v
    rw [← ofView_view ⟨t, h⟩]
    cases t with
    | null => exact hnull
    | bool b => exact hbool b
    | int i => exact hint i
    | string s => exact hstring s
    | array ts =>
      refine harray _ fun v hv => ih _ ?_ v rfl
      have := sizeOf_lt_of_mem_attachItems ts _ hv
      simp only [Tree.array.sizeOf_spec] at hn
      omega
    | object fs =>
      refine hobject _ fun e he => ih _ ?_ e.2 rfl
      have := sizeOf_lt_of_mem_attachFields fs _ he
      simp only [Tree.object.sizeOf_spec] at hn
      omega

/-! ## Accessors -/

def get (v : Value) (key : String) : Option Value :=
  match v.view with
  | .object map => map.get? key
  | _ => none

def asStr (v : Value) : Option String :=
  match v.view with
  | .string s => some s
  | _ => none

def asI128 (v : Value) : Option I128 :=
  match v.view with
  | .int i => some i
  | _ => none

/-- `as_u64`: an integer in the unsigned 64-bit range. -/
def asU64 (v : Value) : Option UInt64 :=
  v.asI128.bind fun i =>
    if 0 ≤ i.val ∧ i.val.toNat < UInt64.size then some (UInt64.ofNat i.val.toNat) else none

/-- `as_i64`: an integer in the signed 64-bit range. -/
def asI64 (v : Value) : Option Int :=
  v.asI128.bind fun i =>
    if -(2 ^ 63) ≤ i.val ∧ i.val < 2 ^ 63 then some i.val else none

def asBool (v : Value) : Option Bool :=
  match v.view with
  | .bool b => some b
  | _ => none

def asArray (v : Value) : Option (List Value) :=
  match v.view with
  | .array items => some items
  | _ => none

def asObject (v : Value) : Option (BTreeMap String Value) :=
  match v.view with
  | .object map => some map
  | _ => none

def isNull (v : Value) : Bool :=
  match v.view with
  | .null => true
  | _ => false

@[simp] theorem get_objectOf (map : BTreeMap String Value) (key : String) :
    (objectOf map).get key = map.get? key := by
  simp [get]

@[simp] theorem asStr_string (s : String) : (string s).asStr = some s := rfl

@[simp] theorem string_inj {s t : String} : string s = string t ↔ s = t := by
  constructor
  · intro h
    simpa using congrArg asStr h
  · exact congrArg string

@[simp] theorem asStr_null : null.asStr = none := rfl

@[simp] theorem asStr_int (i : I128) : (int i).asStr = none := rfl

@[simp] theorem asI128_int (i : I128) : (int i).asI128 = some i := rfl

@[simp] theorem asU64_ofUInt64 (n : UInt64) : (int (.ofUInt64 n)).asU64 = some n := by
  have hrange : (0 : Int) ≤ (I128.ofUInt64 n).val ∧
      (I128.ofUInt64 n).val.toNat < UInt64.size := by
    simpa using n.toNat_lt_size
  simp only [asU64, asI128_int, Option.bind_some, if_pos hrange]
  simp

@[simp] theorem asArray_array (items : List Value) : (array items).asArray = some items := by
  simp [asArray]

theorem get_object (pairs : List (String × Value)) (key : String) :
    (object pairs).get key = BTreeMap.lookupEntry key pairs.reverse := by
  rw [object, get_objectOf, BTreeMap.get?_ofList]

end Value

end Cairn.Ports.Canonical
