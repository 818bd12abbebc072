import Cairn.Ports.Canonical.Measure
import Mathlib.Data.List.Rotate
import Mathlib.Data.List.Destutter

/-!
# Canary edits

`sites`, `draw`, `apply` and `fingerprint` of `src/canary.rs`. A canary is an
artifact with one leaf edited or two items of one array exchanged, and it should
not be told from its parent without running the verifier. An edit from the
catalogue happens in one place of the tree (`Within`), so what it keeps there it
keeps of the whole. The search of `draw` for an edit ends early: at a character of
no class, and at a number it cannot shift.
-/

namespace Cairn.Ports.Canary

open Cairn.Ports.Canonical

inductive Expectation where
  | accepts
  | rejects
deriving DecidableEq

def Expectation.asStr : Expectation → String
  | .accepts => "accept"
  | .rejects => "reject"

inductive Step where
  | key (key : String)
  | index (index : Nat)
deriving DecidableEq

inductive Edit where
  | shift (delta : Int)
  | swap (left right : Nat)
  | substitute (index : Nat) (replacement : Char)
deriving DecidableEq

structure Recipe where
  path : List Step
  edit : Edit
deriving DecidableEq

/-- How the source would panic. -/
inductive Fault where
  | overflow
  | outOfBounds
deriving DecidableEq

/-! ## Sites -/

mutual

/-- `walk`: the places an edit could land. -/
def walk (path : List Step) : Tree → List (List Step)
  | .null => []
  | .bool _ => []
  | .int _ => [path]
  | .string _ => [path]
  | .array items => (if 2 ≤ items.length then [path] else []) ++ walkItems path 0 items
  | .object fields => walkFields path fields

def walkItems (path : List Step) (index : Nat) : List Tree → List (List Step)
  | [] => []
  | item :: items => walk (path ++ [.index index]) item ++ walkItems path (index + 1) items

def walkFields (path : List Step) : List (String × Tree) → List (List Step)
  | [] => []
  | (key, item) :: fields => walk (path ++ [.key key]) item ++ walkFields path fields

end

def sites (value : Value) : List (List Step) := walk [] value.tree

/-- `at`. -/
def at_ : Tree → List Step → Option Tree
  | tree, [] => some tree
  | .object fields, .key key :: path =>
    match fields.find? fun field => field.1 = key with
    | none => none
    | some field => at_ field.2 path
  | .array items, .index index :: path =>
    match items[index]? with
    | none => none
    | some item => at_ item path
  | _, _ => none

def isArray : Option Tree → Bool
  | some (.array _) => true
  | _ => false

/-- The key `ranked_sites` sorts by. -/
def siteRank (value : Value) (want : Expectation) (path : List Step) : Nat × Nat :=
  (if isArray (at_ value.tree path) = decide (want = .accepts) then 0 else 1, path.length)

def rankedSites (value : Value) (want : Expectation) : List (List Step) :=
  (sites value).mergeSort fun a b =>
    let x := siteRank value want a
    let y := siteRank value want b
    x.1 < y.1 || (x.1 = y.1 && x.2 ≤ y.2)

/-! ## The stream -/

/-- The eight bytes of a number, the highest first. -/
def beBytes (n : UInt64) : List UInt8 :=
  (List.range 8).map fun i => UInt8.ofNat (n.toNat / 256 ^ (7 - i))

structure Stream where
  key : List UInt8
  counter : UInt64
  buffer : List UInt8
  used : Nat

section Drawing

variable [Sha256]

def sha256 (bytes : List UInt8) : List UInt8 := (Sha256.hash (ByteArray.mk bytes.toArray)).toList

namespace Stream

def new (parent : String) (want : Expectation) (nonce attempt : UInt64) : Stream where
  key := sha256 ("proofwork/canary/v1".toUTF8.data.toList ++ parent.toUTF8.data.toList ++
    want.asStr.toUTF8.data.toList ++ beBytes nonce ++ beBytes attempt)
  counter := 0
  buffer := []
  used := 0

def byte (s : Stream) : UInt8 × Stream :=
  let s := if s.buffer.length ≤ s.used then
    { s with buffer := sha256 (s.key ++ beBytes s.counter), counter := s.counter + 1, used := 0 }
    else s
  (s.buffer.getD s.used 0, { s with used := s.used + 1 })

def wordFrom : Nat → UInt64 → Stream → UInt64 × Stream
  | 0, out, s => (out, s)
  | n + 1, out, s =>
    let (byte, s) := s.byte
    wordFrom n (out <<< 8 ||| byte.toUInt64) s

def word (s : Stream) : UInt64 × Stream := wordFrom 8 0 s

def below (s : Stream) (bound : Nat) : Nat × Stream :=
  if bound = 0 then (0, s)
  else
    let (word, s) := s.word
    (word.toNat % bound, s)

end Stream

/-! ## Drawing an edit -/

/-- The loop of `decimal_width`. -/
def widthFrom (text width : Nat) : Nat :=
  if 10 ≤ text then widthFrom (text / 10) (width + 1) else width
termination_by text

def decimalWidth (value : Int) : Nat := widthFrom value.natAbs 1

/-- What a shift must keep. -/
def Keeps (current moved : Int) : Prop :=
  moved ≠ current ∧ decimalWidth moved = decimalWidth current ∧ (moved < 0 ↔ current < 0) ∧
    (moved = 0 ↔ current = 0)

instance (current moved : Int) : Decidable (Keeps current moved) :=
  inferInstanceAs (Decidable (_ ∧ _))

def DELTAS : List Int := [1, -1, 2, -2, 3, -3, 7, -7, 11, -11, 101, -101]

/-- The loop of `shift`: it returns at the first sum that overflows. -/
def shiftFrom (current : I128) : List Int → Option Edit
  | [] => none
  | delta :: rest =>
    match I128.ofInt? (current.val + delta) with
    | none => none
    | some moved =>
      if Keeps current.val moved.val then some (.shift delta) else shiftFrom current rest

def shift (current : I128) (stream : Stream) : Option Edit :=
  shiftFrom current (DELTAS.rotate (stream.below DELTAS.length).1)

def DIGITS : List Char := "0123456789".toList

def HEX_LOWER : List Char := "abcdef".toList

def HEX_UPPER : List Char := "ABCDEF".toList

def REST_LOWER : List Char := "ghijklmnopqrstuvwxyz".toList

def REST_UPPER : List Char := "GHIJKLMNOPQRSTUVWXYZ".toList

/-- `class_of`. -/
def classOf (c : Char) : Option (List Char) :=
  if '0' ≤ c ∧ c ≤ '9' then some DIGITS
  else if 'a' ≤ c ∧ c ≤ 'f' then some HEX_LOWER
  else if 'g' ≤ c ∧ c ≤ 'z' then some REST_LOWER
  else if 'A' ≤ c ∧ c ≤ 'F' then some HEX_UPPER
  else if 'G' ≤ c ∧ c ≤ 'Z' then some REST_UPPER
  else none

/-- The loop of `substitute` over the places of a text: it returns at the first
character of no class. -/
def substituteFrom (chars : List Char) (stream : Stream) : List Nat → Option Edit
  | [] => none
  | index :: rest =>
    let c := chars.getD index ' '
    match classOf c with
    | none => none
    | some alphabet =>
      let (pick, stream) := stream.below alphabet.length
      match (alphabet.rotate pick).find? fun replacement => replacement ≠ c with
      | some replacement => some (.substitute index replacement)
      | none => substituteFrom chars stream rest

def substitute (text : String) (stream : Stream) : Option Edit :=
  let chars := text.toList
  if chars = [] then none
  else
    let (start, stream) := stream.below chars.length
    substituteFrom chars stream ((List.range chars.length).rotate start)

def swap (len : Nat) (stream : Stream) : Option Edit :=
  if len < 2 then none
  else
    let (left, stream) := stream.below len
    let right := (stream.below (len - 1)).1
    some (.swap left (if left ≤ right then right + 1 else right))

/-- The edit of a site, by what stands there. -/
def editFor (target : Tree) (stream : Stream) : Option Edit :=
  match target with
  | .int current => shift current stream
  | .string text => substitute text stream
  | .array items => swap items.length stream
  | _ => none

/-- The site `draw` picks, and the rest of its stream. -/
def drawSite (sites : List (List Step)) (parent : String) (want : Expectation)
    (nonce attempt : UInt64) : Except Fault (List Step × Stream) :=
  if 2 ^ 64 ≤ attempt.toNat + 1 then .error .overflow
  else
    let (pick, stream) :=
      (Stream.new parent want nonce attempt).below (min sites.length (attempt.toNat + 1))
    match sites[pick]? with
    | none => .error .outOfBounds
    | some path => .ok (path, stream)

def draw (seed : Value) (sites : List (List Step)) (parent : String) (want : Expectation)
    (nonce attempt : UInt64) : Except Fault (Option Recipe) := do
  let (path, stream) ← drawSite sites parent want nonce attempt
  match at_ seed.tree path with
  | none => return none
  | some target => return (editFor target stream).map fun edit => ⟨path, edit⟩

end Drawing

/-! ## Applying it -/

def swapItems (items : List Tree) (left right : Nat) : Option (List Tree) :=
  match items[left]?, items[right]? with
  | some a, some b => if left = right then none else some ((items.set left b).set right a)
  | _, _ => none

def editTree : Edit → Tree → Option Tree
  | .shift delta, .int current => (I128.ofInt? (current.val + delta)).map .int
  | .swap left right, .array items => (swapItems items left right).map .array
  | .substitute index replacement, .string text =>
    if text.toList.length ≤ index then none
    else some (.string (String.ofList (text.toList.set index replacement)))
  | _, _ => none

/-- An edit of the value under a key. -/
def modifyField (key : String) (f : Tree → Option Tree) :
    List (String × Tree) → Option (List (String × Tree))
  | [] => none
  | field :: fields =>
    if field.1 = key then (f field.2).map fun tree => (field.1, tree) :: fields
    else (modifyField key f fields).map (field :: ·)

def applyAt (edit : Edit) : List Step → Tree → Option Tree
  | [], tree => editTree edit tree
  | .key key :: path, .object fields => (modifyField key (applyAt edit path) fields).map .object
  | .index index :: path, .array items =>
    match items[index]? with
    | none => none
    | some item => (applyAt edit path item).map fun tree => .array (items.set index tree)
  | _, _ => none

/-! ## The fingerprint -/

def className (c : Char) : String :=
  if '0' ≤ c ∧ c ≤ '9' then "d"
  else if 'a' ≤ c ∧ c ≤ 'f' then "x"
  else if 'g' ≤ c ∧ c ≤ 'z' then "l"
  else if 'A' ≤ c ∧ c ≤ 'F' then "X"
  else if 'G' ≤ c ∧ c ≤ 'Z' then "L"
  else "."

def sign (value : Int) : String := if value < 0 then "-" else "+"

mutual

/-- `describe`. -/
def describe (path : String) : Tree → List String
  | .null => [path ++ "=null"]
  | .bool _ => [path ++ "=bool"]
  | .int n => [path ++ "=int" ++ toString (decimalWidth n.val) ++ sign n.val]
  | .string text =>
    [path ++ "=str" ++ toString text.toList.length ++ ":" ++
      String.join ((text.toList.map className).destutter (· ≠ ·))]
  | .array items => (path ++ "=arr" ++ toString items.length) :: describeItems (path ++ "[]") items
  | .object fields => (path ++ "=obj" ++ toString fields.length) :: describeFields path fields

def describeItems (path : String) : List Tree → List String
  | [] => []
  | item :: items => describe path item ++ describeItems path items

def describeFields (path : String) : List (String × Tree) → List String
  | [] => []
  | (key, item) :: fields => describe (path ++ "." ++ key) item ++ describeFields path fields

end

def fingerprint (value : Value) : String :=
  String.intercalate "|" (((describe "" value.tree).mergeSort fun a b => decide (a ≤ b)) ++
    ["bytes=" ++ toString value.canonicalBytes.size])

/-! ## The shape -/

/-- The type of a value, with the length of an array and the keys of an object. -/
inductive Kind where
  | null
  | bool
  | int
  | string
  | array (length : Nat)
  | object (keys : List String)
deriving DecidableEq

mutual

/-- Every key path, the indices of arrays erased, with what stands there. -/
def skeleton (path : List (Option String)) : Tree → List (List (Option String) × Kind)
  | .null => [(path, .null)]
  | .bool _ => [(path, .bool)]
  | .int _ => [(path, .int)]
  | .string _ => [(path, .string)]
  | .array items => (path, .array items.length) :: skeletonItems (path ++ [none]) items
  | .object fields => (path, .object (fields.map Prod.fst)) :: skeletonFields path fields

def skeletonItems (path : List (Option String)) :
    List Tree → List (List (Option String) × Kind)
  | [] => []
  | item :: items => skeleton path item ++ skeletonItems path items

def skeletonFields (path : List (Option String)) :
    List (String × Tree) → List (List (Option String) × Kind)
  | [] => []
  | (key, item) :: fields => skeleton (path ++ [some key]) item ++ skeletonFields path fields

end

/-! ## One place of the tree -/

/-- Two trees that differ at one place, and there as a relation says. -/
inductive Within (R : Tree → Tree → Prop) : Tree → Tree → Prop where
  | here {a b} : R a b → Within R a b
  | item {front back a b} : Within R a b →
    Within R (.array (front ++ a :: back)) (.array (front ++ b :: back))
  | field {front back key a b} : Within R a b →
    Within R (.object (front ++ (key, a) :: back)) (.object (front ++ (key, b) :: back))

theorem modifyField_eq {key : String} {f : Tree → Option Tree} {fields after : List (String × Tree)}
    (h : modifyField key f fields = some after) :
    ∃ front tree tree' back, fields = front ++ (key, tree) :: back ∧
      after = front ++ (key, tree') :: back ∧ f tree = some tree' ∧
      fields.find? (fun field => field.1 = key) = some (key, tree) := by
  induction fields generalizing after with
  | nil => cases h
  | cons field fields ih =>
    obtain ⟨name, tree⟩ := field
    rw [modifyField] at h
    by_cases hkey : name = key
    · subst hkey
      rw [if_pos rfl] at h
      obtain ⟨tree', htree, rfl⟩ := Option.map_eq_some_iff.mp h
      exact ⟨[], tree, tree', fields, rfl, rfl, htree, by simp⟩
    · rw [if_neg hkey] at h
      obtain ⟨rest, hrest, rfl⟩ := Option.map_eq_some_iff.mp h
      obtain ⟨front, tree₁, tree', back, rfl, rfl, htree, hfind⟩ := ih hrest
      exact ⟨(name, tree) :: front, tree₁, tree', back, rfl, rfl, htree, by simp [hkey, hfind]⟩

variable {edit : Edit} {a b : Tree}

/-- An edit changes what stands at its path. -/
theorem applyAt_within {path : List Step} {tree after : Tree}
    (h : applyAt edit path tree = some after) :
    ∃ target, at_ tree path = some target ∧
      Within (fun a b => a = target ∧ editTree edit a = some b) tree after := by
  induction path generalizing tree after with
  | nil => exact ⟨tree, by unfold at_; rfl, .here ⟨rfl, by simpa [applyAt] using h⟩⟩
  | cons step path ih =>
    cases step with
    | key key =>
      cases tree with
      | object fields =>
        rw [applyAt] at h
        obtain ⟨fields', hfields, rfl⟩ := Option.map_eq_some_iff.mp h
        obtain ⟨front, tree, tree', back, rfl, rfl, htree, hfind⟩ := modifyField_eq hfields
        obtain ⟨target, htarget, hwithin⟩ := ih htree
        refine ⟨target, ?_, hwithin.field⟩
        rw [at_, hfind]
        exact htarget
      | _ => cases h
    | index index =>
      cases tree with
      | array items =>
        rw [applyAt] at h
        cases hitem : items[index]? with
        | none =>
          rw [hitem] at h
          cases h
        | some item =>
          rw [hitem] at h
          obtain ⟨item', hafter, rfl⟩ := Option.map_eq_some_iff.mp h
          obtain ⟨target, htarget, hwithin⟩ := ih hafter
          obtain ⟨hlt, hget⟩ := List.getElem?_eq_some_iff.mp hitem
          have hsplit : items = items.take index ++ item :: items.drop (index + 1) := by
            rw [← hget, ← List.drop_eq_getElem_cons hlt, List.take_append_drop]
          have hset : items.set index item' =
              items.take index ++ item' :: items.drop (index + 1) := by
            rw [List.set_eq_take_append_cons_drop, if_pos hlt]
          have hitems : Within _
              (.array (items.take index ++ item :: items.drop (index + 1)))
              (.array (items.take index ++ item' :: items.drop (index + 1))) := hwithin.item
          rw [← hsplit, ← hset] at hitems
          refine ⟨target, ?_, hitems⟩
          rw [at_, hitem]
          exact htarget
      | _ => cases h

theorem swapItems_perm {items after : List Tree} {left right : Nat}
    (h : swapItems items left right = some after) : after.Perm items := by
  unfold swapItems at h
  split at h
  · rename_i a b hleft hright
    split at h
    · cases h
    · cases h
      obtain ⟨hl, rfl⟩ := List.getElem?_eq_some_iff.mp hleft
      obtain ⟨hr, rfl⟩ := List.getElem?_eq_some_iff.mp hright
      exact List.set_set_perm hl hr
  · cases h

theorem editTree_wf (h : editTree edit a = some b) (ha : a.WF) :
    b.WF := by
  unfold editTree at h
  split at h
  · obtain ⟨moved, -, rfl⟩ := Option.map_eq_some_iff.mp h
    trivial
  · obtain ⟨after, hafter, rfl⟩ := Option.map_eq_some_iff.mp h
    rw [Tree.wf_array, Tree.wfItems_iff] at ha ⊢
    exact fun t ht => ha t ((swapItems_perm hafter).mem_iff.mp ht)
  · split at h
    · cases h
    · cases h
      trivial
  · cases h

theorem Within.wf {R : Tree → Tree → Prop} (h : Within R a b)
    (hR : ∀ a b, R a b → a.WF → b.WF) : a.WF → b.WF := by
  induction h with
  | here hab => exact hR _ _ hab
  | item _ ih =>
    intro hwf
    rw [Tree.wf_array, Tree.wfItems_iff] at hwf ⊢
    intro t ht
    rcases List.mem_append.mp ht with hfront | hback
    · exact hwf t (List.mem_append_left _ hfront)
    · rcases List.mem_cons.mp hback with rfl | hback
      · exact ih (hwf _ (List.mem_append_right _ List.mem_cons_self))
      · exact hwf t (List.mem_append_right _ (List.mem_cons_of_mem _ hback))
  | @field front back key a b _ ih =>
    intro hwf
    rw [Tree.wf_object, Tree.wfFields_iff] at hwf ⊢
    constructor
    · have hkeys : ((front ++ (key, a) :: back).map Prod.fst).Pairwise (· < ·) :=
        List.pairwise_map.mpr hwf.1
      have hsame : (front ++ (key, b) :: back).map Prod.fst =
          (front ++ (key, a) :: back).map Prod.fst := by
        simp only [List.map_append, List.map_cons]
      rw [← hsame] at hkeys
      exact List.pairwise_map.mp hkeys
    · intro e he
      rcases List.mem_append.mp he with hfront | hback
      · exact hwf.2 e (List.mem_append_left _ hfront)
      · rcases List.mem_cons.mp hback with rfl | hback
        · exact ih (hwf.2 (key, a) (List.mem_append_right _ List.mem_cons_self))
        · exact hwf.2 e (List.mem_append_right _ (List.mem_cons_of_mem _ hback))

theorem applyAt_wf {path : List Step} {tree after : Tree}
    (h : applyAt edit path tree = some after) (hwf : tree.WF) : after.WF := by
  obtain ⟨target, -, hwithin⟩ := applyAt_within h
  exact hwithin.wf (fun a b hab => editTree_wf hab.2) hwf

def apply (value : Value) (recipe : Recipe) : Option Value :=
  match h : applyAt recipe.edit recipe.path value.tree with
  | none => none
  | some tree => some ⟨tree, applyAt_wf h value.wf⟩

theorem apply_tree {value mutant : Value} {recipe : Recipe}
    (h : apply value recipe = some mutant) :
    applyAt recipe.edit recipe.path value.tree = some mutant.tree := by
  unfold apply at h
  split at h
  · cases h
  · rename_i happly
    cases h
    exact happly

/-! ## What the trees have in common -/

theorem sizeItems_eq (items : List Tree) :
    Tree.sizeItems items = (items.map Tree.size).sum + (items.length - 1) := by
  have hmore : ∀ items : List Tree,
      Tree.sizeMoreItems items = (items.map Tree.size).sum + items.length := by
    intro items
    induction items with
    | nil => rfl
    | cons item items ih =>
      rw [Tree.sizeMoreItems, ih, List.map_cons, List.sum_cons, List.length_cons]
      omega
  cases items with
  | nil => rfl
  | cons item items =>
    rw [Tree.sizeItems, hmore, List.map_cons, List.sum_cons, List.length_cons]
    omega

theorem sizeFields_field (front back : List (String × Tree)) (key : String)
    (h : b.size = a.size) :
    Tree.sizeFields (front ++ (key, b) :: back) = Tree.sizeFields (front ++ (key, a) :: back) := by
  have hmore : ∀ front : List (String × Tree),
      Tree.sizeMoreFields (front ++ (key, b) :: back) =
        Tree.sizeMoreFields (front ++ (key, a) :: back) := by
    intro front
    induction front with
    | nil => simp only [List.nil_append, Tree.sizeMoreFields, h]
    | cons field front ih => simp only [List.cons_append, Tree.sizeMoreFields, ih]
  cases front with
  | nil => simp only [List.nil_append, Tree.sizeFields, h]
  | cons field front => simp only [List.cons_append, Tree.sizeFields, hmore]

theorem describeItems_eq (path : String) (items : List Tree) :
    describeItems path items = items.flatMap (describe path) := by
  induction items with
  | nil => rfl
  | cons item items ih => rw [describeItems, ih, List.flatMap_cons]

theorem describeFields_eq (path : String) (fields : List (String × Tree)) :
    describeFields path fields =
      fields.flatMap fun field => describe (path ++ "." ++ field.1) field.2 := by
  induction fields with
  | nil => rfl
  | cons field fields ih => rw [describeFields, ih, List.flatMap_cons]

theorem skeletonItems_eq (path : List (Option String)) (items : List Tree) :
    skeletonItems path items = items.flatMap (skeleton path) := by
  induction items with
  | nil => rfl
  | cons item items ih => rw [skeletonItems, ih, List.flatMap_cons]

theorem skeletonFields_eq (path : List (Option String)) (fields : List (String × Tree)) :
    skeletonFields path fields =
      fields.flatMap fun field => skeleton (path ++ [some field.1]) field.2 := by
  induction fields with
  | nil => rfl
  | cons field fields ih => rw [skeletonFields, ih, List.flatMap_cons]

/-- Two trees that cost as much and are described alike, up to an order. -/
structure Alike (a b : Tree) : Prop where
  size : b.size = a.size
  describe : ∀ path, (describe path b).Perm (describe path a)
  skeleton : ∀ path, (skeleton path b).Perm (skeleton path a)

/-- What an edit keeps at its place it keeps of the artifact. -/
theorem Within.congr {R : Tree → Tree → Prop} (h : Within R a b)
    (hR : ∀ a b, R a b → Alike a b) : Alike a b := by
  induction h with
  | here hab => exact hR _ _ hab
  | item _ ih =>
    refine ⟨?_, fun path => ?_, fun path => ?_⟩
    · simp only [Tree.size, sizeItems_eq, List.map_append, List.map_cons, List.sum_append,
        List.sum_cons, List.length_append, List.length_cons, ih.size]
    · simp only [Canary.describe, describeItems_eq, List.flatMap_append, List.flatMap_cons,
        List.length_append, List.length_cons]
      exact .cons _ (.append_left _ (.append_right _ (ih.describe _)))
    · simp only [Canary.skeleton, skeletonItems_eq, List.flatMap_append, List.flatMap_cons,
        List.length_append, List.length_cons]
      exact .cons _ (.append_left _ (.append_right _ (ih.skeleton _)))
  | field _ ih =>
    refine ⟨?_, fun path => ?_, fun path => ?_⟩
    · simp only [Tree.size, sizeFields_field _ _ _ ih.size]
    · simp only [Canary.describe, describeFields_eq, List.flatMap_append, List.flatMap_cons,
        List.length_append, List.length_cons]
      exact .cons _ (.append_left _ (.append_right _ (ih.describe _)))
    · simp only [Canary.skeleton, skeletonFields_eq, List.flatMap_append, List.flatMap_cons,
        List.map_append, List.map_cons]
      exact .cons _ (.append_left _ (.append_right _ (ih.skeleton _)))

/-! ## Edits from the catalogue -/

/-- A shift that keeps the sign and the width. -/
def Shifts (current : I128) (delta : Int) : Prop :=
  ∃ moved, I128.ofInt? (current.val + delta) = some moved ∧ Keeps current.val moved.val

def Legal : Tree → Edit → Prop
  | .int current, .shift delta => delta ∈ DELTAS ∧ Shifts current delta
  | .string text, .substitute index replacement =>
    ∃ c alphabet, text.toList[index]? = some c ∧ classOf c = some alphabet ∧
      replacement ∈ alphabet ∧ replacement ≠ c
  | .array items, .swap left right => left < items.length ∧ right < items.length ∧ left ≠ right
  | _, _ => False

theorem widthFrom_eq (text width : Nat) :
    widthFrom text width + 1 = width + (Nat.toDigits 10 text).length := by
  fun_induction widthFrom text width with
  | case1 text width h ih =>
    rw [ih, Nat.toDigits_of_base_le (by decide) h, List.length_append, List.length_singleton]
    omega
  | case2 text width h => rw [Nat.toDigits_of_lt_base (by omega), List.length_singleton]

theorem length_writeInt {current moved : Int} (hwidth : decimalWidth moved = decimalWidth current)
    (hsign : moved < 0 ↔ current < 0) : (writeInt moved).length = (writeInt current).length := by
  have hmoved := widthFrom_eq moved.natAbs 1
  have hcurrent := widthFrom_eq current.natAbs 1
  unfold decimalWidth at hwidth
  have hdigits : (Nat.toDigits 10 moved.natAbs).length =
      (Nat.toDigits 10 current.natAbs).length := by
    omega
  unfold writeInt
  by_cases hneg : current < 0
  · rw [if_pos hneg, if_pos (hsign.mpr hneg), List.length_cons, List.length_cons, hdigits]
  · rw [if_neg hneg, if_neg (hsign.not.mpr hneg), hdigits]

/-- The classes, one ASCII character at a time. -/
theorem class_table : ∀ n : Fin 128, ∀ alphabet, classOf (Char.ofNat n) = some alphabet →
    utf8Length (escapeChar (Char.ofNat n)) = 1 ∧ 2 ≤ alphabet.length ∧
      (∃ replacement ∈ alphabet, replacement ≠ Char.ofNat n) ∧
      ∀ c ∈ alphabet, className c = className (Char.ofNat n) ∧ utf8Length (escapeChar c) = 1 := by
  -- Boolean quantifiers: a decision over the bounded ones may range over all characters.
  have htable : ((List.range 128).all fun n => ((classOf (Char.ofNat n)).all fun alphabet =>
      utf8Length (escapeChar (Char.ofNat n)) == 1 && Nat.ble 2 alphabet.length &&
        (alphabet.any fun replacement => replacement != Char.ofNat n) &&
        alphabet.all fun c => className c == className (Char.ofNat n) &&
          utf8Length (escapeChar c) == 1)) = true := by
    decide +kernel
  intro n alphabet h
  have hrow := List.all_eq_true.mp htable n.val (List.mem_range.mpr n.isLt)
  rw [h] at hrow
  simpa [and_assoc] using hrow

/-- A character with a class may be exchanged for another that is written alike. -/
theorem class_spec {c : Char} {alphabet : List Char} (h : classOf c = some alphabet) :
    utf8Length (escapeChar c) = 1 ∧ 2 ≤ alphabet.length ∧
      (∃ replacement ∈ alphabet, replacement ≠ c) ∧
      ∀ d ∈ alphabet, className d = className c ∧ utf8Length (escapeChar d) = 1 := by
  have hascii : c.toNat < 128 := by
    have hle : ∀ high : Char, high.toNat < 128 → c ≤ high → c.toNat < 128 :=
      fun high hhigh hc => Nat.lt_of_le_of_lt hc hhigh
    unfold classOf at h
    split_ifs at h with h₁ h₂ h₃ h₄ h₅
    · exact hle '9' (by decide) h₁.2
    · exact hle 'f' (by decide) h₂.2
    · exact hle 'z' (by decide) h₃.2
    · exact hle 'F' (by decide) h₄.2
    · exact hle 'Z' (by decide) h₅.2
  have hc : Char.ofNat c.toNat = c := Char.ofNat_toNat c
  have htable := class_table ⟨c.toNat, hascii⟩ alphabet
  rw [hc] at htable
  exact htable h

theorem escapedSize_eq (chars : List Char) :
    escapedSize (String.ofList chars) =
      2 + (chars.map fun c => utf8Length (escapeChar c)).sum := by
  have hflat : ∀ chars : List Char, utf8Length (chars.flatMap escapeChar) =
      (chars.map fun c => utf8Length (escapeChar c)).sum := by
    intro chars
    induction chars with
    | nil => rfl
    | cons c chars ih =>
      rw [List.flatMap_cons, utf8Length_append, ih, List.map_cons, List.sum_cons]
  rw [← utf8Length_writeEscaped, writeEscaped, String.toList_ofList, utf8Length_cons,
    utf8Length_append, hflat, utf8Length_cons, utf8Length_nil, show '"'.utf8Size = 1 from rfl]
  omega

/-- An edit from the catalogue keeps what the fingerprint reads. -/
theorem alike_of_legal (h : Legal a edit)
    (hedit : editTree edit a = some b) : Alike a b := by
  cases edit with
  | shift delta =>
    cases a with
    | int current =>
      obtain ⟨-, moved, hmoved, hne, hwidth, hsign, hzero⟩ := h
      rw [editTree, hmoved] at hedit
      cases hedit
      have hlook : sign moved.val = sign current.val := by
        unfold sign
        by_cases hneg : current.val < 0
        · rw [if_pos hneg, if_pos (hsign.mpr hneg)]
        · rw [if_neg hneg, if_neg (hsign.not.mpr hneg)]
      refine ⟨length_writeInt hwidth hsign, fun path => ?_, fun path => .refl _⟩
      rw [describe, describe, hwidth, hlook]
    | _ => exact h.elim
  | swap left right =>
    cases a with
    | array items =>
      rw [editTree] at hedit
      obtain ⟨after, hafter, rfl⟩ := Option.map_eq_some_iff.mp hedit
      have hperm := swapItems_perm hafter
      refine ⟨?_, fun path => ?_, fun path => ?_⟩
      · rw [Tree.size, Tree.size, sizeItems_eq, sizeItems_eq, (hperm.map _).sum_eq,
          hperm.length_eq]
      · rw [describe, describe, describeItems_eq, describeItems_eq, hperm.length_eq]
        exact .cons _ (hperm.flatMap_right _)
      · rw [skeleton, skeleton, skeletonItems_eq, skeletonItems_eq, hperm.length_eq]
        exact .cons _ (hperm.flatMap_right _)
    | _ => exact h.elim
  | substitute index replacement =>
    cases a with
    | string text =>
      obtain ⟨c, alphabet, hget, hclass, hmem, -⟩ := h
      obtain ⟨hlt, hc⟩ := List.getElem?_eq_some_iff.mp hget
      rw [editTree, if_neg (by omega)] at hedit
      cases hedit
      obtain ⟨hone, -, -, hall⟩ := class_spec hclass
      obtain ⟨hname, hone'⟩ := hall replacement hmem
      have hset : ∀ {γ : Type} (f : Char → γ), f replacement = f c →
          (text.toList.set index replacement).map f = text.toList.map f := by
        intro γ f hf
        have hlt' : index < (text.toList.map f).length := by rwa [List.length_map]
        rw [List.map_set, hf, ← hc, ← List.getElem_map f (h := hlt'), List.set_getElem_self]
      refine ⟨?_, fun path => ?_, fun path => .refl _⟩
      · rw [Tree.size, Tree.size, escapedSize_eq, hset _ (hone'.trans hone.symm),
          ← escapedSize_eq, String.ofList_toList]
      · rw [describe, describe, String.toList_ofList, List.length_set, hset _ hname]
    | _ => exact h.elim

/-- A legal edit at a path of an artifact leaves its mutant alike. -/
theorem alike_of_apply {artifact mutant : Value} {recipe : Recipe}
    (h : apply artifact recipe = some mutant)
    (hlegal : ∀ target, at_ artifact.tree recipe.path = some target → Legal target recipe.edit) :
    Alike artifact.tree mutant.tree := by
  obtain ⟨target, htarget, hwithin⟩ := applyAt_within (apply_tree h)
  refine hwithin.congr ?_
  rintro a b ⟨rfl, hedit⟩
  exact alike_of_legal (hlegal a htarget) hedit

theorem fingerprint_eq {artifact mutant : Value} (h : Alike artifact.tree mutant.tree) :
    mutant.canonicalBytes.size = artifact.canonicalBytes.size ∧
      fingerprint mutant = fingerprint artifact := by
  have hsize : mutant.canonicalBytes.size = artifact.canonicalBytes.size := by
    rw [Value.size_canonicalBytes, Value.size_canonicalBytes, h.size]
  refine ⟨hsize, ?_⟩
  have hsorted : ∀ parts : List String,
      (parts.mergeSort fun a b => decide (a ≤ b)).Pairwise (· ≤ ·) := by
    intro parts
    have hpairs : (parts.mergeSort fun a b => decide (a ≤ b)).Pairwise
        fun a b => decide (a ≤ b) = true := by
      refine List.pairwise_mergeSort (fun a b c hab hbc => ?_) (fun a b => ?_) parts
      · exact decide_eq_true (le_trans (of_decide_eq_true hab) (of_decide_eq_true hbc))
      · simpa using le_total a b
    simpa using hpairs
  have hparts := List.Perm.eq_of_pairwise (fun _ _ _ _ hab hba => le_antisymm hab hba)
    (hsorted (describe "" mutant.tree)) (hsorted (describe "" artifact.tree))
    ((List.mergeSort_perm _ _).trans ((h.describe "").trans (List.mergeSort_perm _ _).symm))
  rw [fingerprint, fingerprint, hparts, hsize]

/-! ## The search for an edit -/

section Search

variable [Sha256]

theorem Stream.below_lt (s : Stream) {bound : Nat} (h : 0 < bound) : (s.below bound).1 < bound := by
  rw [Stream.below, if_neg (by omega)]
  exact Nat.mod_lt _ h

omit [Sha256] in
/-- What a search for a shift finds: the first that keeps sign and width, if every
sum before it is in range. -/
theorem shiftFrom_eq_some_iff {current : I128} {deltas : List Int} {edit : Edit} :
    shiftFrom current deltas = some edit ↔
      ∃ front delta back, deltas = front ++ delta :: back ∧ edit = .shift delta ∧
        Shifts current delta ∧
        ∀ d ∈ front, (I128.ofInt? (current.val + d)).isSome ∧ ¬Shifts current d := by
  induction deltas with
  | nil => simp [shiftFrom]
  | cons delta deltas ih =>
    rw [shiftFrom]
    cases hmoved : I128.ofInt? (current.val + delta) with
    | none =>
      refine iff_of_false nofun ?_
      rintro ⟨front, found, back, hsplit, -, ⟨moved, hfound, -⟩, hfront⟩
      cases front with
      | nil =>
        cases hsplit
        rw [hmoved] at hfound
        cases hfound
      | cons d front =>
        cases hsplit
        have hrange := (hfront delta List.mem_cons_self).1
        rw [hmoved] at hrange
        cases hrange
    | some moved =>
      have hshifts : Shifts current delta ↔ Keeps current.val moved.val := by
        constructor
        · rintro ⟨other, hother, hkeeps⟩
          rw [hmoved] at hother
          cases hother
          exact hkeeps
        · exact fun hkeeps => ⟨moved, hmoved, hkeeps⟩
      dsimp only
      by_cases hkeeps : Keeps current.val moved.val
      · rw [if_pos hkeeps]
        constructor
        · intro h
          cases h
          exact ⟨[], delta, deltas, rfl, rfl, hshifts.mpr hkeeps, nofun⟩
        · rintro ⟨front, found, back, hsplit, rfl, -, hfront⟩
          cases front with
          | nil =>
            cases hsplit
            rfl
          | cons d front =>
            cases hsplit
            exact absurd (hshifts.mpr hkeeps) (hfront delta List.mem_cons_self).2
      · rw [if_neg hkeeps, ih]
        constructor
        · rintro ⟨front, found, back, rfl, rfl, hfound, hfront⟩
          refine ⟨delta :: front, found, back, rfl, rfl, hfound, ?_⟩
          refine List.forall_mem_cons.mpr ⟨⟨?_, hshifts.not.mpr hkeeps⟩, hfront⟩
          rw [hmoved]
          rfl
        · rintro ⟨front, found, back, hsplit, rfl, hfound, hfront⟩
          cases front with
          | nil =>
            cases hsplit
            exact absurd (hshifts.mp hfound) hkeeps
          | cons d front =>
            cases hsplit
            exact ⟨front, found, back, rfl, rfl, hfound, (List.forall_mem_cons.mp hfront).2⟩

/-- A search for a substitution ends at the first character it looks at. -/
theorem substituteFrom_cons {chars : List Char} (stream : Stream) {index : Nat} (rest : List Nat)
    {c : Char} (hc : chars[index]? = some c) :
    (classOf c = none ∧ substituteFrom chars stream (index :: rest) = none) ∨
      ∃ alphabet replacement, classOf c = some alphabet ∧ replacement ∈ alphabet ∧
        replacement ≠ c ∧
        substituteFrom chars stream (index :: rest) = some (.substitute index replacement) := by
  have hget : chars.getD index ' ' = c := by
    rw [List.getD_eq_getElem?_getD, hc]
    rfl
  rw [substituteFrom, hget]
  cases hclass : classOf c with
  | none => exact .inl ⟨rfl, rfl⟩
  | some alphabet =>
    obtain ⟨-, -, ⟨other, hother, hne⟩, -⟩ := class_spec hclass
    dsimp only
    generalize (stream.below alphabet.length).1 = pick
    generalize (stream.below alphabet.length).2 = stream'
    cases hfind : (alphabet.rotate pick).find? fun replacement => replacement ≠ c with
    | none =>
      have hall := List.find?_eq_none.mp hfind other (List.mem_rotate.mpr hother)
      exact absurd hne (by simpa using hall)
    | some replacement =>
      have hmem := List.mem_rotate.mp (List.mem_of_find?_eq_some hfind)
      have hdiffers : replacement ≠ c := by simpa using List.find?_some hfind
      exact .inr ⟨alphabet, replacement, rfl, hmem, hdiffers, rfl⟩

/-- The search at a site comes to its edits: of a number, no candidate before the
first that keeps sign and width leaves the range; of a text, the character the
search starts at has a class, if one has. -/
def Searches (target : Tree) (stream : Stream) : Prop :=
  match target with
  | .int current => (∃ delta ∈ DELTAS, Shifts current delta) →
    ∃ front delta back, DELTAS.rotate (stream.below DELTAS.length).1 = front ++ delta :: back ∧
      Shifts current delta ∧
      ∀ d ∈ front, (I128.ofInt? (current.val + d)).isSome ∧ ¬Shifts current d
  | .string text => (∃ c ∈ text.toList, (classOf c).isSome) →
    ∃ c, text.toList[(stream.below text.toList.length).1]? = some c ∧ (classOf c).isSome
  | _ => True

/-- A substitution starts at the drawn character. -/
theorem substitute_cases (text : String) (stream : Stream) (hne : text.toList ≠ []) :
    ∃ c, text.toList[(stream.below text.toList.length).1]? = some c ∧
      ((classOf c = none ∧ substitute text stream = none) ∨
        ∃ alphabet replacement, classOf c = some alphabet ∧ replacement ∈ alphabet ∧
          replacement ≠ c ∧ substitute text stream =
            some (.substitute (stream.below text.toList.length).1 replacement)) := by
  have hpos : 0 < text.toList.length := List.length_pos_iff.mpr hne
  have hlt := stream.below_lt hpos
  obtain ⟨rest, hrest⟩ : ∃ rest,
      (List.range text.toList.length).rotate (stream.below text.toList.length).1 =
        (stream.below text.toList.length).1 :: rest := by
    have hhead := List.head?_rotate (l := List.range text.toList.length)
      (by rwa [List.length_range] : (stream.below text.toList.length).1 < _)
    rw [List.getElem?_range hlt] at hhead
    exact List.head?_eq_some_iff.mp hhead
  refine ⟨_, List.getElem?_eq_getElem hlt, ?_⟩
  rw [substitute, if_neg hne]
  dsimp only
  rw [hrest]
  exact substituteFrom_cons _ rest (List.getElem?_eq_getElem hlt)

theorem swap_eq {len : Nat} (h : 2 ≤ len) (stream : Stream) :
    ∃ left right, swap len stream = some (.swap left right) ∧ left < len ∧ right < len ∧
      left ≠ right := by
  have hleft := stream.below_lt (show 0 < len by omega)
  rw [swap, if_neg (by omega)]
  dsimp only
  generalize (stream.below len).1 = left at *
  generalize (stream.below len).2 = stream'
  have hright := stream'.below_lt (show 0 < len - 1 by omega)
  generalize (stream'.below (len - 1)).1 = right at *
  refine ⟨left, _, rfl, hleft, ?_, ?_⟩
  · split_ifs <;> omega
  · split_ifs <;> omega

/-- What is drawn is from the catalogue. -/
theorem editFor_legal {target : Tree} {stream : Stream} {edit : Edit}
    (h : editFor target stream = some edit) : Legal target edit := by
  unfold editFor at h
  split at h
  · rename_i current
    obtain ⟨front, delta, back, hsplit, rfl, hshifts, -⟩ := shiftFrom_eq_some_iff.mp h
    have hmem : delta ∈ DELTAS.rotate (stream.below DELTAS.length).1 := by
      rw [hsplit]
      exact List.mem_append_right _ List.mem_cons_self
    exact ⟨List.mem_rotate.mp hmem, hshifts⟩
  · rename_i text
    have hne : text.toList ≠ [] := by
      intro hempty
      rw [substitute, if_pos hempty] at h
      cases h
    obtain ⟨c, hc, ⟨-, hnone⟩ | ⟨alphabet, replacement, hclass, hmem, hdiffers, hsome⟩⟩ :=
      substitute_cases text stream hne
    · rw [hnone] at h
      cases h
    · rw [hsome] at h
      cases h
      exact ⟨c, alphabet, hc, hclass, hmem, hdiffers⟩
  · rename_i items
    by_cases hlen : 2 ≤ items.length
    · obtain ⟨left, right, hswap, hlegal⟩ := swap_eq hlen stream
      rw [hswap] at h
      cases h
      exact hlegal
    · rw [swap, if_pos (by omega)] at h
      cases h
  · cases h

/-- A site with a legal edit yields one exactly when the search comes to it. -/
theorem editFor_yields_iff (target : Tree) (stream : Stream) :
    ((∃ edit, Legal target edit) → ∃ edit, editFor target stream = some edit) ↔
      Searches target stream := by
  cases target with
  | int current =>
    have hlegal : (∃ edit, Legal (.int current) edit) ↔ ∃ delta ∈ DELTAS, Shifts current delta := by
      constructor
      · rintro ⟨edit, hedit⟩
        cases edit with
        | shift delta => exact ⟨delta, hedit⟩
        | _ => exact hedit.elim
      · exact fun ⟨delta, hdelta⟩ => ⟨.shift delta, hdelta⟩
    rw [hlegal]
    refine imp_congr_right fun _ => ?_
    show (∃ edit, shiftFrom _ _ = some edit) ↔ _
    simp only [shiftFrom_eq_some_iff]
    constructor
    · rintro ⟨-, front, delta, back, hsplit, -, hrest⟩
      exact ⟨front, delta, back, hsplit, hrest⟩
    · rintro ⟨front, delta, back, hsplit, hrest⟩
      exact ⟨_, front, delta, back, hsplit, rfl, hrest⟩
  | string text =>
    have hlegal : (∃ edit, Legal (.string text) edit) ↔
        ∃ c ∈ text.toList, (classOf c).isSome := by
      constructor
      · rintro ⟨edit, hedit⟩
        cases edit with
        | substitute index replacement =>
          obtain ⟨c, alphabet, hc, hclass, -⟩ := hedit
          exact ⟨c, List.mem_of_getElem? hc, by rw [hclass]; rfl⟩
        | _ => exact hedit.elim
      · rintro ⟨c, hc, hclass⟩
        obtain ⟨index, hindex⟩ := List.mem_iff_getElem?.mp hc
        obtain ⟨alphabet, halphabet⟩ := Option.isSome_iff_exists.mp hclass
        obtain ⟨-, -, ⟨other, hother, hne⟩, -⟩ := class_spec halphabet
        exact ⟨.substitute index other, c, alphabet, hindex, halphabet, hother, hne⟩
    rw [hlegal]
    refine imp_congr_right fun ⟨c, hc, _⟩ => ?_
    have hne : text.toList ≠ [] := List.ne_nil_of_mem hc
    obtain ⟨start, hstart, ⟨hclass, hnone⟩ | ⟨alphabet, replacement, hclass, -, -, hsome⟩⟩ :=
      substitute_cases text stream hne
    · refine iff_of_false ?_ ?_
      · rintro ⟨edit, hedit⟩
        rw [editFor, hnone] at hedit
        cases hedit
      · rintro ⟨c', hc', hclass'⟩
        rw [hstart] at hc'
        cases hc'
        rw [hclass] at hclass'
        cases hclass'
    · exact iff_of_true ⟨_, hsome⟩ ⟨start, hstart, by rw [hclass]; rfl⟩
  | array items =>
    refine iff_of_true ?_ trivial
    rintro ⟨edit, hedit⟩
    cases edit with
    | swap left right =>
      obtain ⟨left', right', hswap, -⟩ :=
        swap_eq (show 2 ≤ items.length by have := hedit.1; have := hedit.2; omega) stream
      exact ⟨_, hswap⟩
    | _ => exact hedit.elim
  | null => exact iff_of_true (fun ⟨edit, hedit⟩ => hedit.elim) trivial
  | bool b => exact iff_of_true (fun ⟨edit, hedit⟩ => hedit.elim) trivial
  | object fields => exact iff_of_true (fun ⟨edit, hedit⟩ => hedit.elim) trivial

/-! ## The purpose -/

/-- Canaries cannot be told by their shape, and are drawn wherever one can be. -/
def Invisible (artifact : Value) (want : Expectation) (nonce attempt : UInt64) : Prop :=
  let sites := rankedSites artifact want
  let drawn := draw artifact sites artifact.digest want nonce attempt
  drawn ≠ .error .overflow ∧
  (∀ recipe mutant, drawn = .ok (some recipe) → apply artifact recipe = some mutant →
    mutant.canonicalBytes.size = artifact.canonicalBytes.size ∧
      fingerprint mutant = fingerprint artifact ∧
      (skeleton [] mutant.tree).Perm (skeleton [] artifact.tree)) ∧
  ∀ path stream target edit,
    drawSite sites artifact.digest want nonce attempt = .ok (path, stream) →
      at_ artifact.tree path = some target → Legal target edit →
        ∃ recipe, drawn = .ok (some recipe)

theorem draw_eq {artifact : Value} {sites : List (List Step)} {parent : String}
    {want : Expectation} {nonce attempt : UInt64} {path : List Step} {stream : Stream}
    {target : Tree} (hsite : drawSite sites parent want nonce attempt = .ok (path, stream))
    (htarget : at_ artifact.tree path = some target) :
    draw artifact sites parent want nonce attempt =
      .ok ((editFor target stream).map fun edit => ⟨path, edit⟩) := by
  rw [draw, hsite]
  show (match at_ artifact.tree path with | none => _ | some target => _) = _
  rw [htarget]
  rfl

/-- A recipe that is drawn is legal where it points. -/
theorem draw_legal {artifact : Value} {sites : List (List Step)} {parent : String}
    {want : Expectation} {nonce attempt : UInt64} {recipe : Recipe}
    (h : draw artifact sites parent want nonce attempt = .ok (some recipe)) :
    ∀ target, at_ artifact.tree recipe.path = some target → Legal target recipe.edit := by
  cases hsite : drawSite sites parent want nonce attempt with
  | error fault =>
    rw [draw, hsite] at h
    cases h
  | ok drawn =>
    obtain ⟨path, stream⟩ := drawn
    cases htarget : at_ artifact.tree path with
    | none =>
      rw [draw, hsite] at h
      have hnone : (match at_ artifact.tree path with
        | none => Except.ok none
        | some target => _) = Except.ok (some recipe) := h
      rw [htarget] at hnone
      cases hnone
    | some target =>
      rw [draw_eq hsite htarget] at h
      obtain ⟨edit, hedit, rfl⟩ := Option.map_eq_some_iff.mp (Except.ok.inj h)
      intro target' htarget'
      rw [htarget] at htarget'
      cases htarget'
      exact editFor_legal hedit

/-- Canaries are invisible and drawn wherever they can be exactly when the attempt
is no last number and the search at the drawn site comes to its edits. -/
theorem canary_invisible_iff (artifact : Value) (want : Expectation) (nonce attempt : UInt64) :
    Invisible artifact want nonce attempt ↔
      attempt.toNat + 1 < 2 ^ 64 ∧
        ∀ path stream target,
          drawSite (rankedSites artifact want) artifact.digest want nonce attempt =
              .ok (path, stream) →
            at_ artifact.tree path = some target → Searches target stream := by
  have hbound : draw artifact (rankedSites artifact want) artifact.digest want nonce attempt ≠
      .error .overflow ↔ attempt.toNat + 1 < 2 ^ 64 := by
    by_cases hlast : 2 ^ 64 ≤ attempt.toNat + 1
    · refine iff_of_false (fun h => h ?_) (by omega)
      rw [draw, drawSite, if_pos hlast]
      rfl
    · refine iff_of_true ?_ (by omega)
      rw [draw, drawSite, if_neg hlast]
      dsimp only
      split
      · nofun
      · show (match at_ artifact.tree _ with | none => _ | some target => _) ≠ _
        split <;> nofun
  constructor
  · rintro ⟨hno, -, hyields⟩
    refine ⟨hbound.mp hno, fun path stream target hsite htarget => ?_⟩
    refine (editFor_yields_iff target stream).mp fun ⟨edit, hlegal⟩ => ?_
    obtain ⟨recipe, hrecipe⟩ := hyields path stream target edit hsite htarget hlegal
    rw [draw_eq hsite htarget] at hrecipe
    obtain ⟨edit', hedit', -⟩ := Option.map_eq_some_iff.mp (Except.ok.inj hrecipe)
    exact ⟨edit', hedit'⟩
  · rintro ⟨hlast, hsearches⟩
    refine ⟨hbound.mpr hlast, fun recipe mutant hdrawn happly => ?_, ?_⟩
    · have halike := alike_of_apply happly (draw_legal hdrawn)
      obtain ⟨hsize, hprint⟩ := fingerprint_eq halike
      exact ⟨hsize, hprint, halike.skeleton []⟩
    · intro path stream target edit hsite htarget hlegal
      obtain ⟨edit', hedit'⟩ := (editFor_yields_iff target stream).mpr
        (hsearches path stream target hsite htarget) ⟨edit, hlegal⟩
      exact ⟨⟨path, edit'⟩, by rw [draw_eq hsite htarget, hedit']; rfl⟩

/-- The one site there is, is drawn. -/
theorem drawSite_singleton (path : List Step) (parent : String) (want : Expectation)
    (nonce : UInt64) {attempt : UInt64} (h : attempt.toNat + 1 < 2 ^ 64) :
    drawSite [path] parent want nonce attempt =
      .ok (path, ((Stream.new parent want nonce attempt).below 1).2) := by
  have hmin : min [path].length (attempt.toNat + 1) = 1 := by simp
  have hpick : ((Stream.new parent want nonce attempt).below 1).1 = 0 :=
    Nat.lt_one_iff.mp (Stream.below_lt _ Nat.one_pos)
  rw [drawSite, if_neg (by omega), hmin]
  dsimp only
  rw [hpick, List.getElem?_cons_zero]

end Search

/-- A digest of ones, so that every draw is an odd number. -/
@[reducible] def onesSha256 : Sha256 := ⟨fun _ => Vector.replicate 32 1⟩

theorem rankedSites_string (text : String) (want : Expectation) :
    rankedSites (.string text) want = [[]] := by
  simp [rankedSites, sites, walk, Value.string]

/-- A text whose first letter could be exchanged, where the search starts at the
dash. -/
theorem not_canary_invisible :
    ¬∀ (_ : Sha256) (artifact : Value) (want : Expectation) (nonce attempt : UInt64),
      attempt.toNat + 1 < 2 ^ 64 → Invisible artifact want nonce attempt := by
  intro hall
  let _ := onesSha256
  have hsite := drawSite_singleton [] (Value.string "a-").digest .rejects 0
    (show (0 : UInt64).toNat + 1 < 2 ^ 64 by decide)
  have hstart : ((((Stream.new (Value.string "a-").digest .rejects 0 0).below 1).2).below 2).1 =
      1 := by
    decide +kernel
  generalize ((Stream.new (Value.string "a-").digest .rejects 0 0).below 1).2 = stream at *
  obtain ⟨-, -, hyields⟩ := hall _ (.string "a-") .rejects 0 0 (by decide)
  rw [rankedSites_string] at hyields
  obtain ⟨recipe, hrecipe⟩ := hyields [] stream (.string "a-") (.substitute 0 'b') hsite rfl
    ⟨'a', HEX_LOWER, rfl, by decide, by decide, by decide⟩
  have htarget : at_ (Value.string "a-").tree [] = some (.string "a-") := rfl
  rw [draw_eq hsite htarget] at hrecipe
  obtain ⟨edit, hedit, -⟩ := Option.map_eq_some_iff.mp (Except.ok.inj hrecipe)
  obtain ⟨c, hc, ⟨-, hnone⟩ | ⟨alphabet, -, hclass, -⟩⟩ :=
    substitute_cases "a-" stream (by decide)
  · rw [editFor, hnone] at hedit
    cases hedit
  · have hlength : ("a-" : String).toList.length = 2 := rfl
    rw [hlength, hstart] at hc
    cases hc
    revert hclass
    exact nofun

end Cairn.Ports.Canary
