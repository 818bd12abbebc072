import Cairn.Ports.Records.Fields
import Cairn.Verified.Links

/-!
# The paths a spec may name

`normalize`, `absolutize`, `contained_dir` and `resolve_pinned` of
`src/verifiers/mod.rs`, over a tree of files with links. A path of the spec is
compared with the root twice, as it is written and as it resolves, and only then
read. The blob store stands wherever the node keeps it: what is read of it is the
entry of the declared address.
-/

namespace Cairn.Ports.Verifiers

open Cairn.Verified.Links
open Cairn.Ports.Canonical

/-- A normal component: what stands between two separators. -/
abbrev Name := List Char

abbrev PathBuf := List (Component Name)

/-! ## Paths -/

/-- One piece of a text between separators, away from its front. -/
def component : Name → Option (Component Name)
  | [] => none
  | ['.'] => none
  | ['.', '.'] => some .up
  | name => some (.name name)

/-- `Path::components`. A dot counts only at the front of a relative path. -/
def components (text : String) : PathBuf :=
  let pieces := text.toList.splitOn '/'
  if text.toList.head? = some '/' then .root :: pieces.filterMap component
  else if pieces.head? = some ['.'] then .here :: pieces.filterMap component
  else pieces.filterMap component

/-- `Path::is_absolute`. -/
def isAbsolute (path : PathBuf) : Bool := path.head? = some .root

/-- `Path::join`. -/
def join (base path : PathBuf) : PathBuf :=
  if isAbsolute path then path
  else if base = [] then path
  else base ++ path.filter fun c => c ≠ .here

/-- `Path::starts_with`, component by component. -/
def startsWith (path base : PathBuf) : Bool := base.isPrefixOf path

/-- The path of a place: its names below the root. -/
def ofNames (names : List Name) : PathBuf := .root :: names.map .name

/-- One turn of the loop of `normalize`. -/
def normalizeStep (out : PathBuf) : Component Name → PathBuf
  | .root => [.root]
  | .here => out
  | .up =>
    match out.getLast? with
    | some (.name _) => out.dropLast
    | some .root => out
    | _ => out ++ [.up]
  | .name name => out ++ [.name name]

def normalize (path : PathBuf) : PathBuf :=
  let out := path.foldl normalizeStep []
  if out = [] then [.here] else out

/-! ## Files -/

/-- Links followed before the operating system gives up. -/
def MAX_LINKS : Nat := 40

/-- What the process stands in: the files, each with its bytes if it can be read,
and the current directory if there is one. -/
structure Host where
  tree : Tree Name (Option (List UInt8))
  cwd : Option (List Name)

namespace Host

def absolutize (host : Host) (path : PathBuf) : Option PathBuf :=
  if isAbsolute path then some (normalize path)
  else host.cwd.map fun cwd => normalize (join (ofNames cwd) path)

/-- `fs::canonicalize` of an absolute path. -/
def canonicalize (host : Host) (path : PathBuf) : Option PathBuf :=
  (host.tree.resolve MAX_LINKS [] path).map ofNames

/-- What stands where a path leads to. -/
def nodeAt (host : Host) (path : PathBuf) : Option (Node Name (Option (List UInt8))) :=
  match host.tree.resolve MAX_LINKS [] path with
  | none => none
  | some [] => some .dir
  | some place => host.tree place

/-- `Path::is_dir`. -/
def isDir (host : Host) (path : PathBuf) : Bool :=
  match host.nodeAt path with
  | some .dir => true
  | _ => false

/-- `fs::read`. -/
def read (host : Host) (path : PathBuf) : Option (List UInt8) :=
  match host.nodeAt path with
  | some (.file contents) => contents
  | _ => none

/-- `contained_dir`. -/
def containedDir (host : Host) (root : PathBuf) (relative : String) : Option PathBuf := do
  let lexicalRoot ← host.absolutize root
  let lexicalFull ← host.absolutize (join lexicalRoot (components relative))
  if !startsWith lexicalFull lexicalRoot then none
  else
    let canonicalRoot ← host.canonicalize lexicalRoot
    let canonicalFull ← host.canonicalize lexicalFull
    if host.isDir canonicalFull && startsWith canonicalFull canonicalRoot then some canonicalFull
    else none

end Host

/-! ## The blob store -/

/-- An entry of the store's directory: a regular file that can be read, or
anything else. -/
inductive Entry where
  | file (bytes : List UInt8)
  | other
deriving DecidableEq

inductive BlobError where
  | notAnAddress (address : String)
  | tooLarge (limit got : Nat)
  | mismatch (declared actual : String)
  | absent (address : String)
  | io
deriving DecidableEq

def MAX_BLOB_BYTES : Nat := 2 ^ 20

/-- `blobs::address`. -/
def address [Sha256] (bytes : List UInt8) : String :=
  String.ofList (hexEncode (Sha256.hash (ByteArray.mk bytes.toArray)).toList)

/-- `BlobStore`: its directory, and what stands in it under each name. -/
structure BlobStore where
  dir : PathBuf
  entries : String → Option Entry

namespace BlobStore

def pathOf (s : BlobStore) (address : String) : Except BlobError PathBuf :=
  if isHex64 address then .ok (s.dir ++ [.name address.toList]) else .error (.notAnAddress address)

/-- `fs::remove_file` of an entry. -/
def remove (s : BlobStore) (address : String) : BlobStore :=
  { s with entries := Function.update s.entries address none }

/-- `BlobStore::read`. A file whose bytes do not hash to its name is deleted. -/
def read [Sha256] (s : BlobStore) (wanted : String) : BlobStore × Except BlobError (List UInt8) :=
  match s.pathOf wanted with
  | .error error => (s, .error error)
  | .ok _ =>
    match s.entries wanted with
    | none => (s, .error (.absent wanted))
    | some .other => (s, .error .io)
    | some (.file bytes) =>
      if MAX_BLOB_BYTES < bytes.length then
        (s, .error (.tooLarge MAX_BLOB_BYTES bytes.length))
      else if address bytes ≠ wanted then
        (s.remove wanted, .error (.mismatch wanted (address bytes)))
      else (s, .ok bytes)

/-- The names of the files `read` opens. -/
def opened (s : BlobStore) (wanted : String) : List String :=
  match s.pathOf wanted, s.entries wanted with
  | .ok _, some (.file bytes) => if MAX_BLOB_BYTES < bytes.length then [] else [wanted]
  | _, _ => []

end BlobStore

/-! ## Resolving a pin -/

/-- Why the bundle did not give the bytes. -/
inductive OriginError where
  | unresolved
  | unreadable
deriving DecidableEq

inductive AbsentDetail where
  | noRoot
  | noPath
  | noCanonicalRoot
  | noBlobPath
  | notAnAddress (error : BlobError)
  | nowhere (origin : OriginError) (full : PathBuf) (store : BlobError)
deriving DecidableEq

inductive PinFailure where
  | escape
  | mismatch (actual : String)
  | absent (detail : AbsentDetail)
deriving DecidableEq

structure VerifierRegistry where
  root : PathBuf
  blobs : BlobStore

/-- A file opened on the way: one of the bundle by its path, or one of the store
by its name. -/
inductive Opened where
  | bundle (path : PathBuf)
  | blob (name : String)
deriving DecidableEq

/-- What `resolve_pinned` answers, with the store it leaves and the files it opened. -/
structure Resolution where
  answer : Except PinFailure PathBuf
  blobs : BlobStore
  opened : List Opened

/-- The closure `blob_fallback`. -/
def blobFallback [Sha256] (host : Host) (r : VerifierRegistry) (full : PathBuf) (declared : String)
    (origin : OriginError) (before : List Opened) : Resolution :=
  let opened := before ++ (r.blobs.opened declared).map .blob
  match r.blobs.read declared with
  | (blobs, .error store) => ⟨.error (.absent (.nowhere origin full store)), blobs, opened⟩
  | (blobs, .ok _) =>
    match r.blobs.pathOf declared with
    | .error error => ⟨.error (.absent (.notAnAddress error)), blobs, opened⟩
    | .ok path =>
      match host.absolutize path with
      | none => ⟨.error (.absent .noBlobPath), blobs, opened⟩
      | some path => ⟨.ok path, blobs, opened⟩

/-- `VerifierRegistry::resolve_pinned`. -/
def resolvePinned [Sha256] (host : Host) (r : VerifierRegistry) (relative declared : String) :
    Resolution :=
  match host.absolutize r.root with
  | none => ⟨.error (.absent .noRoot), r.blobs, []⟩
  | some root =>
    match host.absolutize (join root (components relative)) with
    | none => ⟨.error (.absent .noPath), r.blobs, []⟩
    | some full =>
      if !startsWith full root then ⟨.error .escape, r.blobs, []⟩
      else
        match host.canonicalize full with
        | none => blobFallback host r full declared .unresolved []
        | some canonicalFull =>
          match host.canonicalize root with
          | none => ⟨.error (.absent .noCanonicalRoot), r.blobs, []⟩
          | some canonicalRoot =>
            if !startsWith canonicalFull canonicalRoot then ⟨.error .escape, r.blobs, []⟩
            else
              match host.read canonicalFull with
              | none =>
                blobFallback host r full declared .unreadable [.bundle canonicalFull]
              | some source =>
                if address source = declared then
                  ⟨.ok canonicalFull, r.blobs, [.bundle canonicalFull]⟩
                else
                  ⟨.error (.mismatch (address source)), r.blobs, [.bundle canonicalFull]⟩

/-! ## Normalised paths -/

/-- Names below the root, or names below some steps up. -/
def Normalised (path : PathBuf) : Prop :=
  (∃ names, path = ofNames names) ∨
    ∃ (ups : Nat) (names : List Name), path = List.replicate ups .up ++ names.map .name

theorem foldl_names (names : List Name) (out : PathBuf) :
    (names.map .name).foldl normalizeStep out = out ++ names.map .name := by
  induction names generalizing out with
  | nil => rw [List.map_nil, List.foldl_nil, List.append_nil]
  | cons name names ih =>
    rw [List.map_cons, List.foldl_cons, ih, normalizeStep, List.append_assoc,
      List.singleton_append]

theorem foldl_ups (ups before : Nat) :
    (List.replicate ups .up).foldl normalizeStep (List.replicate before .up) =
      List.replicate (before + ups) .up := by
  induction ups generalizing before with
  | zero => rfl
  | succ ups ih =>
    have hstep : normalizeStep (List.replicate before .up) .up =
        List.replicate (before + 1) .up := by
      rw [normalizeStep, List.getLast?_replicate]
      split
      · split at * <;> simp_all
      · split at * <;> simp_all
      · rw [List.replicate_succ']
    rw [List.replicate_succ, List.foldl_cons, hstep, ih,
      show before + 1 + ups = before + (ups + 1) by omega]

theorem ofNames_concat (names : List Name) (name : Name) :
    ofNames (names ++ [name]) = ofNames names ++ [.name name] := by
  rw [ofNames, ofNames, List.map_append, List.map_singleton, List.cons_append]

/-- A turn of the loop keeps a path below the root. -/
theorem normalizeStep_ofNames (names : List Name) (c : Component Name) :
    ∃ names', normalizeStep (ofNames names) c = ofNames names' := by
  cases c with
  | root => exact ⟨[], rfl⟩
  | here => exact ⟨names, rfl⟩
  | up =>
    rcases List.eq_nil_or_concat names with rfl | ⟨front, last, rfl⟩
    · exact ⟨[], rfl⟩
    · refine ⟨front, ?_⟩
      rw [List.concat_eq_append, ofNames_concat, normalizeStep, List.getLast?_concat]
      dsimp only
      rw [List.dropLast_concat]
  | name name => exact ⟨names ++ [name], (ofNames_concat names name).symm⟩

theorem foldl_ofNames (path : PathBuf) (names : List Name) :
    ∃ names', path.foldl normalizeStep (ofNames names) = ofNames names' := by
  induction path generalizing names with
  | nil => exact ⟨names, rfl⟩
  | cons c path ih =>
    obtain ⟨names', hstep⟩ := normalizeStep_ofNames names c
    rw [List.foldl_cons, hstep]
    exact ih names'

theorem Normalised.step {out : PathBuf} (h : Normalised out) (c : Component Name) :
    Normalised (normalizeStep out c) := by
  rcases h with ⟨names, rfl⟩ | ⟨ups, names, rfl⟩
  · exact .inl (normalizeStep_ofNames names c)
  · cases c with
    | root => exact .inl ⟨[], rfl⟩
    | here => exact .inr ⟨ups, names, rfl⟩
    | up =>
      rcases List.eq_nil_or_concat names with rfl | ⟨front, last, rfl⟩
      · have hups := foldl_ups 1 ups
        rw [List.replicate_one, List.foldl_cons, List.foldl_nil] at hups
        rw [List.map_nil, List.append_nil, hups]
        exact .inr ⟨ups + 1, [], by simp⟩
      · refine .inr ⟨ups, front, ?_⟩
        rw [List.concat_eq_append, List.map_append, List.map_singleton, ← List.append_assoc,
          normalizeStep, List.getLast?_concat]
        dsimp only
        rw [List.dropLast_concat]
    | name name => exact .inr ⟨ups, names ++ [name], by simp [normalizeStep]⟩

theorem normalised_foldl (path : PathBuf) {out : PathBuf} (h : Normalised out) :
    Normalised (path.foldl normalizeStep out) := by
  induction path generalizing out with
  | nil => exact h
  | cons c path ih => exact ih (h.step c)

/-- Normalising a normalised path changes nothing. -/
theorem Normalised.foldl {path : PathBuf} (h : Normalised path) :
    path.foldl normalizeStep [] = path := by
  rcases h with ⟨names, rfl⟩ | ⟨ups, names, rfl⟩
  · rw [ofNames, List.foldl_cons, normalizeStep, foldl_names, List.singleton_append]
  · have hups := foldl_ups ups 0
    rw [List.replicate_zero, Nat.zero_add] at hups
    rw [List.foldl_append, hups, foldl_names]

theorem normalize_normalize (path : PathBuf) : normalize (normalize path) = normalize path := by
  have hout : Normalised (path.foldl normalizeStep []) :=
    normalised_foldl path (.inr ⟨0, [], rfl⟩)
  by_cases hempty : path.foldl normalizeStep [] = []
  · have hnormal : normalize path = [.here] := if_pos hempty
    rw [hnormal]
    rfl
  · have hnormal : normalize path = path.foldl normalizeStep [] := if_neg hempty
    rw [hnormal, normalize, hout.foldl]
    exact if_neg hempty

/-- An absolute path normalised is names below the root. -/
theorem normalize_absolute {path : PathBuf} (h : isAbsolute path = true) :
    ∃ names, normalize path = ofNames names := by
  match path, h with
  | .root :: path, _ =>
    obtain ⟨names, hfold⟩ := foldl_ofNames path []
    refine ⟨names, ?_⟩
    have hpath : (Component.root :: path).foldl normalizeStep [] = ofNames names := hfold
    rw [normalize, hpath]
    exact if_neg (List.cons_ne_nil _ _)

theorem mem_ofNames {names : List Name} {c : Component Name} (h : c ∈ ofNames names) :
    c ≠ .here ∧ c ≠ .up := by
  rw [ofNames, List.mem_cons, List.mem_map] at h
  rcases h with rfl | ⟨name, -, rfl⟩
  · exact ⟨nofun, nofun⟩
  · exact ⟨nofun, nofun⟩

/-! ## Resolved paths -/

variable {host : Host} {relative : String} {root full : PathBuf}

theorem canonicalize_plain {names : List Name} (h : host.tree.Plain names) :
    host.canonicalize (ofNames names) = some (ofNames names) := by
  rw [Host.canonicalize, ofNames, Tree.resolve, Tree.resolve_names h]
  rfl

/-- A resolved path resolves to itself. -/
theorem canonicalize_canonicalize {path canonical : PathBuf}
    (h : host.canonicalize path = some canonical) :
    host.canonicalize canonical = some canonical := by
  obtain ⟨place, hplace, rfl⟩ := Option.map_eq_some_iff.mp h
  exact canonicalize_plain (Tree.resolve_plain (Tree.walked_nil _) hplace)

/-- A path leads to inside what the root leads to. -/
def Inside (host : Host) (root path : PathBuf) : Prop :=
  ∃ lexicalRoot top place, host.absolutize root = some lexicalRoot ∧
    host.canonicalize lexicalRoot = some top ∧ host.canonicalize path = some place ∧ top <+: place

theorem containedDir_inside {path : PathBuf} (h : host.containedDir root relative = some path) :
    Inside host root path := by
  simp only [Host.containedDir, Option.bind_eq_bind, Option.bind_eq_some_iff] at h
  obtain ⟨lexicalRoot, hroot, lexicalFull, hfull, h⟩ := h
  split at h
  · cases h
  · simp only [Option.bind_eq_some_iff] at h
    obtain ⟨canonicalRoot, htop, canonicalFull, hplace, h⟩ := h
    split at h
    · rename_i hinside
      rw [Bool.and_eq_true] at hinside
      cases h
      exact ⟨lexicalRoot, canonicalRoot, path, hroot, htop,
        canonicalize_canonicalize hplace, List.isPrefixOf_iff_prefix.mp hinside.2⟩
    · cases h

/-! ## The bundle first -/

/-- What the bundle says of a pin, before the store is asked. -/
inductive Origin where
  | stop (failure : PinFailure)
  | missing (full : PathBuf) (error : OriginError) (opened : List Opened)
  | found (path : PathBuf) (source : List UInt8)

def origin (host : Host) (root : PathBuf) (relative : String) : Origin :=
  match host.absolutize root with
  | none => .stop (.absent .noRoot)
  | some root =>
    match host.absolutize (join root (components relative)) with
    | none => .stop (.absent .noPath)
    | some full =>
      if !startsWith full root then .stop .escape
      else
        match host.canonicalize full with
        | none => .missing full .unresolved []
        | some canonicalFull =>
          match host.canonicalize root with
          | none => .stop (.absent .noCanonicalRoot)
          | some canonicalRoot =>
            if !startsWith canonicalFull canonicalRoot then .stop .escape
            else
              match host.read canonicalFull with
              | none => .missing full .unreadable [.bundle canonicalFull]
              | some source => .found canonicalFull source

/-- The answer to a pin, from what the bundle says of it. -/
theorem resolvePinned_eq [Sha256] (host : Host) (r : VerifierRegistry)
    (relative declared : String) :
    resolvePinned host r relative declared =
      match origin host r.root relative with
      | .stop failure => ⟨.error failure, r.blobs, []⟩
      | .missing full error opened => blobFallback host r full declared error opened
      | .found path source =>
        ⟨if address source = declared then .ok path else .error (.mismatch (address source)),
          r.blobs, [.bundle path]⟩ := by
  unfold resolvePinned origin
  cases host.absolutize r.root with
  | none => rfl
  | some root =>
    dsimp only
    cases host.absolutize (join root (components relative)) with
    | none => rfl
    | some full =>
      dsimp only
      split
      · rfl
      · cases host.canonicalize full with
        | none => rfl
        | some canonicalFull =>
          dsimp only
          cases host.canonicalize root with
          | none => rfl
          | some canonicalRoot =>
            dsimp only
            split
            · rfl
            · cases host.read canonicalFull with
              | none => rfl
              | some source =>
                dsimp only
                split <;> rfl

/-- A bundle file that was read lies inside the root. -/
theorem inside_of_resolved {lexicalRoot top place : PathBuf}
    (hroot : host.absolutize root = some lexicalRoot)
    (htop : host.canonicalize lexicalRoot = some top) (hplace : host.canonicalize full = some place)
    (hinside : startsWith place top = true) : Inside host root place :=
  ⟨lexicalRoot, top, place, hroot, htop, canonicalize_canonicalize hplace,
    List.isPrefixOf_iff_prefix.mp hinside⟩

theorem origin_found {path : PathBuf} {source : List UInt8}
    (h : origin host root relative = .found path source) :
    Inside host root path ∧ host.read path = some source := by
  unfold origin at h
  split at h
  · cases h
  rename_i lexicalRoot hroot
  split at h
  · cases h
  split at h
  · cases h
  split at h
  · cases h
  rename_i canonicalFull hplace
  split at h
  · cases h
  rename_i canonicalRoot htop
  split at h
  · cases h
  rename_i hinside
  rw [Bool.not_eq_true, Bool.not_eq_false'] at hinside
  split at h
  · cases h
  rename_i hread
  cases h
  exact ⟨inside_of_resolved hroot htop hplace hinside, hread⟩

theorem origin_missing {error : OriginError} {opened : List Opened}
    (h : origin host root relative = .missing full error opened) :
    ∀ file ∈ opened, ∃ path, file = .bundle path ∧ Inside host root path := by
  unfold origin at h
  split at h
  · cases h
  rename_i lexicalRoot hroot
  split at h
  · cases h
  split at h
  · cases h
  split at h
  · cases h
    simp
  rename_i canonicalFull hplace
  split at h
  · cases h
  rename_i canonicalRoot htop
  split at h
  · cases h
  rename_i hinside
  rw [Bool.not_eq_true, Bool.not_eq_false'] at hinside
  split at h
  · cases h
    intro file hfile
    rw [List.mem_singleton] at hfile
    exact ⟨canonicalFull, hfile, inside_of_resolved hroot htop hplace hinside⟩
  · cases h

/-! ## The store after it -/

theorem BlobStore.read_ok [Sha256] {s s' : BlobStore} {wanted : String} {bytes : List UInt8}
    (h : s.read wanted = (s', .ok bytes)) :
    s' = s ∧ isHex64 wanted = true ∧ s.entries wanted = some (.file bytes) ∧
      bytes.length ≤ MAX_BLOB_BYTES ∧ address bytes = wanted := by
  unfold BlobStore.read BlobStore.pathOf at h
  by_cases hwanted : isHex64 wanted = true
  · rw [if_pos hwanted] at h
    dsimp only at h
    split at h
    · cases h
    · cases h
    · rename_i stored hentry
      split at h
      · cases h
      · rename_i hlength
        split at h
        · cases h
        · rename_i haddress
          cases h
          exact ⟨rfl, hwanted, hentry, Nat.le_of_not_lt hlength, not_not.mp haddress⟩
  · rw [if_neg hwanted] at h
    cases h

theorem BlobStore.mem_opened {s : BlobStore} {wanted name : String} (h : name ∈ s.opened wanted) :
    name = wanted ∧ isHex64 wanted = true := by
  unfold BlobStore.opened at h
  split at h
  · rename_i path bytes hpath hentry
    split at h
    · cases h
    · refine ⟨List.mem_singleton.mp h, ?_⟩
      unfold BlobStore.pathOf at hpath
      split at hpath
      · assumption
      · cases hpath
  · cases h

theorem blobFallback_opened [Sha256] (host : Host) (r : VerifierRegistry) (full : PathBuf)
    (declared : String) (origin : OriginError) (before : List Opened) :
    (blobFallback host r full declared origin before).opened =
      before ++ (r.blobs.opened declared).map .blob := by
  unfold blobFallback
  split
  · rfl
  · split
    · rfl
    · split <;> rfl

/-- A pin the store answers is the entry of its address, as it was. -/
theorem blobFallback_ok [Sha256] {r : VerifierRegistry} {path : PathBuf} {declared : String}
    {origin : OriginError} {before : List Opened}
    (h : (blobFallback host r full declared origin before).answer = .ok path) :
    ∃ stored bytes, r.blobs.pathOf declared = .ok stored ∧ host.absolutize stored = some path ∧
      r.blobs.read declared = (r.blobs, .ok bytes) := by
  unfold blobFallback at h
  split at h
  · cases h
  · rename_i blobs bytes hread
    split at h
    · cases h
    · rename_i stored hstored
      split at h
      · cases h
      · rename_i hpath
        cases h
        exact ⟨stored, bytes, hstored, hpath, by rw [hread, (BlobStore.read_ok hread).1]⟩

/-- What a pin is resolved to, and what is read on the way. -/
theorem resolvePinned_spec [Sha256] (host : Host) (r : VerifierRegistry)
    (relative declared : String) :
    (∀ path, (resolvePinned host r relative declared).answer = .ok path →
      (Inside host r.root path ∧ ∃ source, host.read path = some source ∧
        address source = declared) ∨
      ∃ stored bytes, r.blobs.pathOf declared = .ok stored ∧ host.absolutize stored = some path ∧
        r.blobs.read declared = (r.blobs, .ok bytes)) ∧
    ∀ file ∈ (resolvePinned host r relative declared).opened,
      (∃ path, file = .bundle path ∧ Inside host r.root path) ∨
        file = .blob declared ∧ isHex64 declared = true := by
  rw [resolvePinned_eq]
  cases horigin : origin host r.root relative with
  | stop failure => exact ⟨nofun, by simp⟩
  | missing full error opened =>
    refine ⟨fun path hpath => .inr (blobFallback_ok hpath), fun file hfile => ?_⟩
    dsimp only at hfile
    rw [blobFallback_opened, List.mem_append, List.mem_map] at hfile
    rcases hfile with hfile | ⟨name, hname, rfl⟩
    · exact .inl (origin_missing horigin file hfile)
    · obtain ⟨rfl, haddress⟩ := BlobStore.mem_opened hname
      exact .inr ⟨rfl, haddress⟩
  | found path source =>
    obtain ⟨hinside, hread⟩ := origin_found horigin
    dsimp only
    refine ⟨fun path' hpath => ?_,
      fun file hfile => .inl ⟨path, List.mem_singleton.mp hfile, hinside⟩⟩
    split at hpath
    · rename_i haddress
      cases hpath
      exact .inl ⟨hinside, source, hread, haddress⟩
    · cases hpath

/-- A pin whose path leaves the root as it is written. -/
def Escapes (host : Host) (root : PathBuf) (relative : String) : Prop :=
  ∃ lexicalRoot full, host.absolutize root = some lexicalRoot ∧
    host.absolutize (join lexicalRoot (components relative)) = some full ∧
    startsWith full lexicalRoot = false

/-- Nothing of the bundle outside the root is named or read; the store gives the
entry of the declared address, and nothing to a pin that escapes. -/
theorem paths_contained [Sha256] (host : Host) (r : VerifierRegistry) (relative declared : String) :
    (∀ path, host.containedDir r.root relative = some path → Inside host r.root path) ∧
    (∀ path, (resolvePinned host r relative declared).answer = .ok path →
      Inside host r.root path ∨
        ∃ stored, r.blobs.pathOf declared = .ok stored ∧ host.absolutize stored = some path) ∧
    (∀ file ∈ (resolvePinned host r relative declared).opened,
      (∃ path, file = .bundle path ∧ Inside host r.root path) ∨
        file = .blob declared ∧ isHex64 declared = true) ∧
    (Escapes host r.root relative → ∀ blobs,
      resolvePinned host { r with blobs } relative declared = ⟨.error .escape, blobs, []⟩) ∧
    (∀ path, normalize (normalize path) = normalize path) ∧
    ∀ path, isAbsolute path = true → ∀ c ∈ normalize path, c ≠ .here ∧ c ≠ .up := by
  obtain ⟨hanswer, hopened⟩ := resolvePinned_spec host r relative declared
  refine ⟨fun path => containedDir_inside, fun path hpath => ?_, hopened, ?_, normalize_normalize,
    fun path habsolute c hc => ?_⟩
  · rcases hanswer path hpath with ⟨hinside, -⟩ | ⟨stored, bytes, hstored, habsolute, -⟩
    · exact .inl hinside
    · exact .inr ⟨stored, hstored, habsolute⟩
  · rintro ⟨lexicalRoot, full, hroot, hfull, hescapes⟩ blobs
    rw [resolvePinned, hroot]
    dsimp only
    rw [hfull]
    dsimp only
    rw [hescapes]
    rfl
  · obtain ⟨names, hnames⟩ := normalize_absolute habsolute
    rw [hnames] at hc
    exact mem_ofNames hc

theorem isHex64_address [Sha256] (bytes : List UInt8) : isHex64 (address bytes) = true := by
  rw [isHex64, address, String.toList_ofList, Bool.and_eq_true, decide_eq_true_eq,
    List.all_eq_true, length_hexEncode, Vector.length_toList]
  exact ⟨rfl, fun c hc => isHexDigit_of_mem_hexEncode hc⟩

/-- A sibling that shares its first letters with the root. -/
example (host : Host) :
    Escapes host (ofNames ["bundle".toList]) "../bundle-evil/check.py" :=
  ⟨ofNames ["bundle".toList], ofNames ["bundle-evil".toList, "check.py".toList], rfl,
    (if_pos (by decide)).trans (congrArg some (by decide)), by decide⟩

/-- Where an opened file stands. -/
def Opened.path (r : VerifierRegistry) : Opened → PathBuf
  | .bundle path => path
  | .blob name => r.blobs.dir ++ [.name name.toList]

def sampleBundle : Name := ['b']

def sampleCache : Name := ['c']

/-- The address of no bytes. -/
def sampleAddress [Sha256] : String := address []

def samplePath : Name := ['p']

/-- A bundle with a file or without beside a store with one. -/
def sampleHost [Sha256] (source : Option (List UInt8)) : Host where
  tree place :=
    if place = [sampleBundle] ∨ place = [sampleCache] then some .dir
    else if place = [sampleBundle, samplePath] then source.map fun bytes => .file (some bytes)
    else if place = [sampleCache, sampleAddress.toList] then some (.file (some []))
    else none
  cwd := none

def sampleRegistry [Sha256] (entry : Option Entry) : VerifierRegistry where
  root := ofNames [sampleBundle]
  blobs :=
    { dir := ofNames [sampleCache]
      entries := fun name => if name = sampleAddress then entry else none }

section Sample

variable [Sha256] (source : Option (List UInt8)) (entry : Option Entry)

theorem sampleHost_walked {name : Name} (h : name = sampleBundle ∨ name = sampleCache) :
    (sampleHost source).tree.Walked [name] := by
  intro front n hfront
  have hlength := hfront.length_le
  rw [List.length_append, List.length_singleton, List.length_singleton] at hlength
  have hnil : front = [] := List.length_eq_zero_iff.mp (by omega)
  subst hnil
  have hn : n = name := by simpa using hfront
  subst hn
  exact if_pos (by simpa using h)

theorem sampleHost_path : (sampleHost source).tree [sampleBundle, samplePath] =
    source.map fun bytes => .file (some bytes) := by
  simp [sampleHost, sampleBundle, sampleCache]

theorem sampleHost_stored :
    (sampleHost source).tree [sampleCache, sampleAddress.toList] = some (.file (some [])) := by
  simp [sampleHost, sampleBundle, sampleCache]

theorem sampleRegistry_entry :
    (sampleRegistry entry).blobs.entries sampleAddress = entry := by
  simp [sampleRegistry]

theorem sampleRegistry_pathOf : (sampleRegistry entry).blobs.pathOf sampleAddress =
    .ok (ofNames [sampleCache, sampleAddress.toList]) :=
  if_pos (isHex64_address [])

theorem sampleHost_root :
    (sampleHost source).canonicalize (ofNames [sampleBundle]) = some (ofNames [sampleBundle]) :=
  canonicalize_plain (.inl (sampleHost_walked source (.inl rfl)))

theorem sampleHost_full : (sampleHost source).absolutize
    (join (ofNames [sampleBundle]) (components "p")) = some (ofNames [sampleBundle, samplePath]) :=
  (if_pos (by decide)).trans (congrArg some (by decide))

/-- The bundle has no such file. -/
theorem sampleHost_missing : origin (sampleHost none) (sampleRegistry entry).root "p" =
    .missing (ofNames [sampleBundle, samplePath]) .unresolved [] := by
  have hmissing : (sampleHost none).canonicalize (ofNames [sampleBundle, samplePath]) = none := by
    have hdir : (sampleHost none).tree ([] ++ [sampleBundle]) = some .dir :=
      sampleHost_walked none (.inl rfl) [] sampleBundle List.prefix_rfl
    have hnone : (sampleHost none).tree ([] ++ [sampleBundle] ++ [samplePath]) = none :=
      sampleHost_path none
    rw [Host.canonicalize, ofNames, Tree.resolve, List.map_cons, Tree.resolve, hdir]
    dsimp only
    rw [List.map_cons, Tree.resolve, hnone]
    rfl
  have hroot : (sampleHost none).absolutize (sampleRegistry entry).root =
      some (ofNames [sampleBundle]) := rfl
  rw [origin, hroot]
  dsimp only
  rw [sampleHost_full]
  dsimp only
  rw [hmissing]
  exact if_neg (by decide)

/-- The bundle has the file. -/
theorem sampleHost_found (bytes : List UInt8) :
    origin (sampleHost (some bytes)) (sampleRegistry entry).root "p" =
      .found (ofNames [sampleBundle, samplePath]) bytes := by
  have hfile : (sampleHost (some bytes)).tree [sampleBundle, samplePath] =
      some (.file (some bytes)) :=
    sampleHost_path (some bytes)
  have hplain : (sampleHost (some bytes)).tree.Plain [sampleBundle, samplePath] :=
    .inr ⟨[sampleBundle], samplePath, some bytes, rfl,
      sampleHost_walked (some bytes) (.inl rfl), hfile⟩
  have hread : (sampleHost (some bytes)).read (ofNames [sampleBundle, samplePath]) =
      some bytes := by
    rw [Host.read, Host.nodeAt, ofNames, Tree.resolve, Tree.resolve_names hplain]
    dsimp only
    rw [hfile]
  have hroot : (sampleHost (some bytes)).absolutize (sampleRegistry entry).root =
      some (ofNames [sampleBundle]) := rfl
  rw [origin, hroot]
  dsimp only
  rw [sampleHost_full]
  dsimp only
  rw [if_neg (by decide), canonicalize_plain hplain]
  dsimp only
  rw [sampleHost_root]
  dsimp only
  rw [if_neg (by decide), hread]

end Sample

/-- The file of the store that answers a pin may stand outside the root. -/
theorem not_paths_contained :
    ¬∀ (_ : Sha256) (host : Host) (r : VerifierRegistry) (relative declared : String),
      ∀ file ∈ (resolvePinned host r relative declared).opened,
        Inside host r.root (file.path r) := by
  intro hall
  let _ : Sha256 := ⟨fun _ => Vector.replicate 32 0⟩
  have hopened : (sampleRegistry (some (.file []))).blobs.opened sampleAddress =
      [sampleAddress] := by
    rw [BlobStore.opened, sampleRegistry_pathOf, sampleRegistry_entry]
    rfl
  have hfile : Opened.blob sampleAddress ∈ (resolvePinned (sampleHost none)
      (sampleRegistry (some (.file []))) "p" sampleAddress).opened := by
    rw [resolvePinned_eq, sampleHost_missing]
    dsimp only
    rw [blobFallback_opened, hopened]
    exact List.mem_singleton_self _
  obtain ⟨lexicalRoot, top, place, hlexical, htop, hplace, hprefix⟩ :=
    hall _ (sampleHost none) (sampleRegistry (some (.file []))) "p" sampleAddress _ hfile
  have hlexicalRoot : ofNames [sampleBundle] = lexicalRoot := Option.some.inj hlexical
  subst hlexicalRoot
  rw [sampleHost_root] at htop
  have hstored : (sampleHost none).canonicalize (ofNames [sampleCache, sampleAddress.toList]) =
      some (ofNames [sampleCache, sampleAddress.toList]) :=
    canonicalize_plain (.inr ⟨[sampleCache], sampleAddress.toList, some [], rfl,
      sampleHost_walked none (.inr rfl), sampleHost_stored none⟩)
  have hwhere : (Opened.blob sampleAddress).path (sampleRegistry (some (.file []))) =
      ofNames [sampleCache, sampleAddress.toList] := rfl
  rw [hwhere, hstored] at hplace
  cases htop
  cases hplace
  simp [ofNames, sampleBundle, sampleCache] at hprefix

end Cairn.Ports.Verifiers
