import Mathlib.Data.List.Infix

/-!
# A tree of files with links

Directories, files and symbolic links to anywhere, over any type of names. A
path is a list of components and is resolved one component at a time from a
directory: a link puts the components of its target before what is left, and the
number of links followed is bounded, as an operating system bounds it. What
resolution ends at is plain: there is no link on the way to it, so resolving it
again changes nothing.
-/

namespace Cairn.Verified.Links

/-- One component of a path. -/
inductive Component (ν : Type) where
  | root
  | here
  | up
  | name (name : ν)
deriving DecidableEq

/-- What stands at a place of the tree. -/
inductive Node (ν β : Type) where
  | dir
  | file (contents : β)
  | link (target : List (Component ν))

/-- What stands at the places below the root, each named by the way to it. -/
def Tree (ν β : Type) : Type := List ν → Option (Node ν β)

variable {ν β : Type}

namespace Tree

/-- The end of a path walked from a directory with some links left to follow. -/
def resolve (t : Tree ν β) (links : Nat) (at_ : List ν) : List (Component ν) → Option (List ν)
  | [] => some at_
  | .root :: rest => t.resolve links [] rest
  | .here :: rest => t.resolve links at_ rest
  | .up :: rest => t.resolve links at_.dropLast rest
  | .name n :: rest =>
    match t (at_ ++ [n]) with
    | none => none
    | some .dir => t.resolve links (at_ ++ [n]) rest
    | some (.file _) => if rest = [] then some (at_ ++ [n]) else none
    | some (.link target) =>
      match links with
      | 0 => none
      | links + 1 => t.resolve links at_ (target ++ rest)
termination_by path => (links, path.length)

/-- There is a directory at every step of the way to a place. -/
def Walked (t : Tree ν β) (place : List ν) : Prop :=
  ∀ front n, front ++ [n] <+: place → t (front ++ [n]) = some .dir

/-- A directory or a file with no link on the way to it. -/
def Plain (t : Tree ν β) (place : List ν) : Prop :=
  t.Walked place ∨
    ∃ front n contents, place = front ++ [n] ∧ t.Walked front ∧ t place = some (.file contents)

theorem walked_nil (t : Tree ν β) : t.Walked [] := by
  intro front n h
  simp at h

variable {t : Tree ν β}

theorem Walked.of_prefix {place front : List ν} (h : t.Walked place)
    (hfront : front <+: place) : t.Walked front :=
  fun before n hbefore => h before n (hbefore.trans hfront)

theorem Walked.concat {place : List ν} (h : t.Walked place) {n : ν}
    (hdir : t (place ++ [n]) = some .dir) : t.Walked (place ++ [n]) := by
  intro front m hfront
  rcases List.prefix_concat_iff.mp hfront with heq | hfront
  · rw [heq]
    exact hdir
  · exact h front m hfront

/-- Resolution ends at a plain path. -/
theorem resolve_plain {links : Nat} {place end_ : List ν}
    {path : List (Component ν)} (hplace : t.Walked place)
    (h : t.resolve links place path = some end_) : t.Plain end_ := by
  fun_induction t.resolve links place path with
  | case1 =>
    cases h
    exact .inl hplace
  | case2 links place rest ih => exact ih t.walked_nil h
  | case3 links place rest ih => exact ih hplace h
  | case4 links place rest ih => exact ih (hplace.of_prefix (List.dropLast_prefix _)) h
  | case5 => cases h
  | case6 links place n rest hdir ih => exact ih (hplace.concat hdir) h
  | case7 links place n contents hfile =>
    cases h
    exact .inr ⟨place, n, contents, rfl, hplace, hfile⟩
  | case8 => cases h
  | case9 => cases h
  | case10 place n rest target hlink links ih => exact ih hplace h

/-- Names of directories are walked one after another. -/
theorem resolve_walked (links : Nat) (place : List ν) (names : List ν)
    (h : t.Walked (place ++ names)) (rest : List (Component ν)) :
    t.resolve links place (names.map .name ++ rest) = t.resolve links (place ++ names) rest := by
  induction names generalizing place with
  | nil => rw [List.append_nil, List.map_nil, List.nil_append]
  | cons n names ih =>
    have hsplit : place ++ n :: names = place ++ [n] ++ names := by simp
    have hdir : t (place ++ [n]) = some .dir :=
      h place n (by rw [hsplit]; exact List.prefix_append _ _)
    rw [List.map_cons, List.cons_append, resolve, hdir]
    dsimp only
    rw [ih (place ++ [n]) (by rwa [← hsplit]), hsplit]

/-- A plain path resolves to itself. -/
theorem resolve_names {place : List ν} (h : t.Plain place) (links : Nat) :
    t.resolve links [] (place.map .name) = some place := by
  rcases h with hwalked | ⟨front, n, contents, rfl, hwalked, hfile⟩
  · have hall := resolve_walked links [] place (by simpa using hwalked) []
    rw [List.append_nil, List.nil_append] at hall
    rw [hall, resolve]
  · rw [List.map_append, resolve_walked links [] front (by simpa using hwalked),
      List.nil_append, List.map_singleton, resolve, hfile]
    dsimp only
    rw [if_pos rfl]

end Tree

end Cairn.Verified.Links
