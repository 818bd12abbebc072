import Mathlib

/-!
# Keeping the store under its cap

`src/store/quota.rs`: when the files of a store and what is about to be written
exceed the cap, reclaimable files go, oldest first, until they fit; files that
must not go are never candidates, and if they alone exceed the cap nothing goes.
Paths are any ordered type. What other processes delete meanwhile, and the
removals the system refuses, are parameters.

The sums saturate, so they are the sums of the sizes as long as these stay below
`2^64`.
-/

namespace Cairn.Ports.Quota

inductive Class where
  | pinned
  | reclaimable
deriving DecidableEq, Repr

structure Found (P : Type) where
  path : P
  bytes : UInt64
  cls : Class
  modified : UInt64
deriving DecidableEq, Repr

structure Usage where
  pinned : UInt64
  reclaimable : UInt64
  files : UInt64
deriving DecidableEq, Repr

structure Eviction (P : Type) where
  removed : List (P × UInt64)
  freed : UInt64
  after : Usage
deriving DecidableEq, Repr

inductive StoreError (P : Type) where
  | quotaExceeded (pinned limit : UInt64)
  | io (evicting : P)
deriving DecidableEq, Repr

/-! ## Saturating sums -/

/-- `u64::saturating_add`. -/
def saturatingAdd (a b : UInt64) : UInt64 :=
  if a.toNat + b.toNat < UInt64.size then a + b else .ofNat (UInt64.size - 1)

/-- `u64::saturating_sub`. -/
def saturatingSub (a b : UInt64) : UInt64 := if b ≤ a then a - b else 0

theorem toNat_saturatingAdd (a b : UInt64) :
    (saturatingAdd a b).toNat = min (a.toNat + b.toNat) (UInt64.size - 1) := by
  unfold saturatingAdd
  split_ifs with h
  · rw [UInt64.toNat_add, Nat.mod_eq_of_lt h]
    omega
  · rw [UInt64.toNat_ofNat_of_lt' (by decide)]
    omega

theorem toNat_saturatingSub (a b : UInt64) : (saturatingSub a b).toNat = a.toNat - b.toNat := by
  unfold saturatingSub
  split_ifs with h
  · exact UInt64.toNat_sub_of_le _ _ h
  · rw [UInt64.le_iff_toNat_le] at h
    rw [UInt64.toNat_zero]
    omega

namespace Usage

def empty : Usage := ⟨0, 0, 0⟩

def total (usage : Usage) : UInt64 := saturatingAdd usage.pinned usage.reclaimable

/-- One more file. -/
def count {P : Type} (usage : Usage) (file : Found P) : Usage :=
  match file.cls with
  | .pinned =>
    { usage with
      pinned := saturatingAdd usage.pinned file.bytes
      files := saturatingAdd usage.files 1 }
  | .reclaimable =>
    { usage with
      reclaimable := saturatingAdd usage.reclaimable file.bytes
      files := saturatingAdd usage.files 1 }

end Usage

variable {P : Type}

def tally (found : List (Found P)) : Usage := found.foldl Usage.count .empty

/-- The bytes of some files. -/
def size (files : List (Found P)) : Nat := (files.map fun file => file.bytes.toNat).sum

/-- The files of a class. -/
def ofClass (cls : Class) (files : List (Found P)) : List (Found P) :=
  files.filter fun file => file.cls = cls

@[simp] theorem size_nil : size ([] : List (Found P)) = 0 := rfl

@[simp] theorem size_cons (file : Found P) (files : List (Found P)) :
    size (file :: files) = file.bytes.toNat + size files := rfl

@[simp] theorem size_append (files files' : List (Found P)) :
    size (files ++ files') = size files + size files' := by
  simp [size]

variable {files files' : List (Found P)}

theorem size_perm (h : files.Perm files') :
    size files = size files' := (h.map _).sum_eq

theorem size_ofClass (files : List (Found P)) :
    size (ofClass .pinned files) + size (ofClass .reclaimable files) = size files := by
  induction files with
  | nil => rfl
  | cons file files ih =>
    unfold ofClass at ih ⊢
    cases hcls : file.cls with
    | pinned =>
      rw [List.filter_cons_of_pos (by simp [hcls]), List.filter_cons_of_neg (by simp [hcls]),
        size_cons, size_cons]
      omega
    | reclaimable =>
      rw [List.filter_cons_of_neg (by simp [hcls]), List.filter_cons_of_pos (by simp [hcls]),
        size_cons, size_cons]
      omega

theorem size_sublist (h : files.Sublist files') : size files ≤ size files' := by
  induction h with
  | slnil => exact le_refl _
  | cons file _ ih =>
    rw [size_cons]
    omega
  | cons_cons file _ ih =>
    rw [size_cons, size_cons]
    omega

/-- What a count holds, as saturated numbers. -/
theorem foldl_count (files : List (Found P)) (usage : Usage) :
    (files.foldl Usage.count usage).pinned.toNat =
        min (usage.pinned.toNat + size (ofClass .pinned files)) (UInt64.size - 1) ∧
      (files.foldl Usage.count usage).reclaimable.toNat =
        min (usage.reclaimable.toNat + size (ofClass .reclaimable files)) (UInt64.size - 1) ∧
      (files.foldl Usage.count usage).files.toNat =
        min (usage.files.toNat + files.length) (UInt64.size - 1) := by
  induction files generalizing usage with
  | nil =>
    have hp := usage.pinned.toNat_lt
    have hr := usage.reclaimable.toNat_lt
    have hf := usage.files.toNat_lt
    simp only [List.foldl_nil, ofClass, List.filter_nil, size_nil, List.length_nil, UInt64.size]
    omega
  | cons file files ih =>
    obtain ⟨hp, hr, hf⟩ := ih (usage.count file)
    rw [List.foldl_cons, hp, hr, hf, List.length_cons]
    clear hp hr hf ih
    unfold ofClass
    cases hcls : file.cls with
    | pinned =>
      have hcount : usage.count file = { usage with
          pinned := saturatingAdd usage.pinned file.bytes
          files := saturatingAdd usage.files 1 } := by
        simp only [Usage.count, hcls]
      rw [List.filter_cons_of_pos (by simp [hcls]), List.filter_cons_of_neg (by simp [hcls]),
        size_cons, hcount]
      dsimp only
      rw [toNat_saturatingAdd, toNat_saturatingAdd, UInt64.toNat_one]
      omega
    | reclaimable =>
      have hcount : usage.count file = { usage with
          reclaimable := saturatingAdd usage.reclaimable file.bytes
          files := saturatingAdd usage.files 1 } := by
        simp only [Usage.count, hcls]
      rw [List.filter_cons_of_neg (by simp [hcls]), List.filter_cons_of_pos (by simp [hcls]),
        size_cons, hcount]
      dsimp only
      rw [toNat_saturatingAdd, toNat_saturatingAdd, UInt64.toNat_one]
      omega

theorem tally_pinned (files : List (Found P)) :
    (tally files).pinned.toNat = min (size (ofClass .pinned files)) (UInt64.size - 1) := by
  have h := (foldl_count files .empty).1
  rw [show (Usage.empty.pinned).toNat = 0 from rfl, Nat.zero_add] at h
  exact h

theorem tally_reclaimable (files : List (Found P)) :
    (tally files).reclaimable.toNat =
      min (size (ofClass .reclaimable files)) (UInt64.size - 1) := by
  have h := (foldl_count files .empty).2.1
  rw [show (Usage.empty.reclaimable).toNat = 0 from rfl, Nat.zero_add] at h
  exact h

theorem tally_files (files : List (Found P)) :
    (tally files).files.toNat = min files.length (UInt64.size - 1) := by
  have h := (foldl_count files .empty).2.2
  rw [show (Usage.empty.files).toNat = 0 from rfl, Nat.zero_add] at h
  exact h

theorem tally_total (files : List (Found P)) :
    (tally files).total.toNat = min (size files) (UInt64.size - 1) := by
  have hsize := size_ofClass files
  rw [Usage.total, toNat_saturatingAdd, tally_pinned, tally_reclaimable]
  omega

/-! ## Reclaiming -/

variable [LinearOrder P]

/-- Every file of the store, in the order of the paths. -/
def walk (disk : List (Found P)) : List (Found P) :=
  disk.insertionSort fun a b => a.path ≤ b.path

def usage (disk : List (Found P)) : Usage := tally (walk disk)

/-- Oldest first, paths break ties. -/
def Older (a b : Found P) : Prop :=
  a.modified < b.modified ∨ a.modified = b.modified ∧ a.path ≤ b.path

instance : DecidableRel (@Older P _) := fun _ _ => inferInstanceAs (Decidable (_ ∨ _))

/-- The reclaimable files, oldest first. -/
def candidates (found : List (Found P)) : List (Found P) :=
  (ofClass .reclaimable found).insertionSort Older

/-- What happens to the store besides: the files other processes delete before
each removal, and the removals the system refuses. -/
structure Weather (P : Type) where
  deletes : Nat → P → Bool
  refuses : Nat → P → Bool

/-- Nobody else touches the store. -/
def Weather.calm (P : Type) : Weather P := ⟨fun _ _ => false, fun _ _ => false⟩

/-- The store when a removal is tried: others delete only what may be deleted. -/
def Weather.standing (weather : Weather P) (attempt : Nat) (disk : List (Found P)) :
    List (Found P) :=
  disk.filter fun file => !(file.cls = .reclaimable && weather.deletes attempt file.path)

/-- The loop of `reclaim` between two removals. -/
structure Progress (P : Type) where
  disk : List (Found P)
  attempt : Nat
  total : UInt64
  reclaimable : UInt64
  freed : UInt64
  removed : List (P × UInt64)

/-- What a removal that worked leaves. -/
def Progress.remove (p : Progress P) (file : Found P) : Progress P where
  disk := p.disk.filter fun other => other.path ≠ file.path
  attempt := p.attempt
  total := saturatingSub p.total file.bytes
  reclaimable := saturatingSub p.reclaimable file.bytes
  freed := saturatingAdd p.freed file.bytes
  removed := p.removed ++ [(file.path, file.bytes)]

/-- The store as the next removal finds it. -/
def Progress.wait (weather : Weather P) (p : Progress P) : Progress P :=
  { p with disk := weather.standing p.attempt p.disk, attempt := p.attempt + 1 }

/-- The loop over the candidates: until the target is met, one file after
another, and a file that is gone is passed over. -/
def evict (weather : Weather P) (target : UInt64) :
    List (Found P) → Progress P → Progress P × Except (StoreError P) Unit
  | [], p => (p, .ok ())
  | file :: files, p =>
    if p.total ≤ target then (p, .ok ())
    else
      let q := p.wait weather
      if weather.refuses p.attempt file.path then (q, .error (.io file.path))
      else if q.disk.any fun other => other.path = file.path then
        evict weather target files (q.remove file)
      else evict weather target files q

/-- The loop where it starts. -/
def Progress.start (disk : List (Found P)) (current : Usage) : Progress P :=
  ⟨disk, 0, current.total, current.reclaimable, 0, []⟩

/-- What an eviction reports. -/
def Progress.eviction (p : Progress P) (current : Usage) : Eviction P where
  removed := p.removed
  freed := p.freed
  after :=
    { pinned := current.pinned
      reclaimable := p.reclaimable
      files := saturatingSub current.files (.ofNat p.removed.length) }

/-- `reclaim`, with the store it leaves. -/
def reclaim (weather : Weather P) (limit : Option UInt64) (disk : List (Found P))
    (incoming : UInt64) : List (Found P) × Except (StoreError P) (Eviction P) :=
  match limit with
  | none => (disk, .ok ⟨[], 0, .empty⟩)
  | some limit =>
    let found := walk disk
    let current := tally found
    let neededPinned := saturatingAdd current.pinned incoming
    if neededPinned > limit then (disk, .error (.quotaExceeded neededPinned limit))
    else
      let target := saturatingSub limit incoming
      if current.total ≤ target then (disk, .ok ⟨[], 0, current⟩)
      else
        match evict weather target (candidates found) (.start disk current) with
        | (p, .error error) => (p.disk, .error error)
        | (p, .ok ()) => (p.disk, .ok (p.eviction current))

theorem walk_perm (disk : List (Found P)) : (walk disk).Perm disk := List.perm_insertionSort _ _

theorem candidates_perm (found : List (Found P)) :
    (candidates found).Perm (ofClass .reclaimable found) := List.perm_insertionSort _ _

omit [LinearOrder P] in
theorem tally_perm (h : files.Perm files') : tally files = tally files' := by
  have hpinned : (tally files).pinned = (tally files').pinned := by
    have hsize : size (ofClass .pinned files) = size (ofClass .pinned files') :=
      size_perm (h.filter _)
    rw [← UInt64.toNat_inj, tally_pinned, tally_pinned, hsize]
  have hreclaimable : (tally files).reclaimable = (tally files').reclaimable := by
    have hsize : size (ofClass .reclaimable files) = size (ofClass .reclaimable files') :=
      size_perm (h.filter _)
    rw [← UInt64.toNat_inj, tally_reclaimable, tally_reclaimable, hsize]
  have hfiles : (tally files).files = (tally files').files := by
    rw [← UInt64.toNat_inj, tally_files, tally_files, h.length_eq]
  cases hu : tally files
  cases hu' : tally files'
  simp_all

/-- What is about to be written and the files of a store fit under the limit. -/
def Fits (limit incoming : UInt64) (disk : List (Found P)) : Prop :=
  size disk + incoming.toNat ≤ limit.toNat

/-! ## The loop -/

section Loop

variable {disk : List (Found P)} {target : UInt64}

/-- What holds between two removals, with the files this call has removed. -/
structure Evicting (disk : List (Found P)) (target : UInt64) (rest gone : List (Found P))
    (p : Progress P) : Prop where
  sublist : p.disk.Sublist disk
  pinned : ofClass .pinned p.disk = ofClass .pinned disk
  left : ∀ file ∈ p.disk, file.cls = .reclaimable → file ∈ rest
  removed : p.removed = gone.map fun file => (file.path, file.bytes)
  from_disk : ∀ file ∈ gone, file ∈ disk ∧ file.cls = .reclaimable
  total : p.total.toNat + size gone = size disk
  reclaimable : p.reclaimable.toNat + size gone = size (ofClass .reclaimable disk)
  freed : p.freed.toNat = min (size gone) (UInt64.size - 1)
  bytes : size p.disk + size gone ≤ size disk
  needed : ∀ m < gone.length, target.toNat + size (gone.take m) < size disk

omit [LinearOrder P] in
theorem Weather.standing_sublist (weather : Weather P) (attempt : Nat) (disk : List (Found P)) :
    (weather.standing attempt disk).Sublist disk := List.filter_sublist

omit [LinearOrder P] in
theorem Weather.ofClass_standing (weather : Weather P) (attempt : Nat) (disk : List (Found P)) :
    ofClass .pinned (weather.standing attempt disk) = ofClass .pinned disk := by
  unfold ofClass Weather.standing
  rw [List.filter_filter]
  apply List.filter_congr
  intro file _
  cases file.cls <;> simp

variable {file : Found P} {gone rest : List (Found P)} {p : Progress P}

/-- A file is told from the others by its path. -/
theorem perm_remove {files : List (Found P)} (hpaths : (files.map Found.path).Nodup)
    (hmem : file ∈ files) :
    files.Perm (file :: files.filter fun other => other.path ≠ file.path) := by
  induction files with
  | nil => cases hmem
  | cons first files ih =>
    rw [List.map_cons, List.nodup_cons] at hpaths
    obtain rfl | hmem := List.mem_cons.mp hmem
    · have hkeep : files.filter (fun other => other.path ≠ file.path) = files := by
        rw [List.filter_eq_self]
        intro other hother
        have hne : other.path ≠ file.path := fun heq =>
          hpaths.1 (heq ▸ List.mem_map_of_mem hother)
        simpa using hne
      rw [List.filter_cons_of_neg (by simp), hkeep]
    · have hne : first.path ≠ file.path := fun heq =>
        hpaths.1 (heq ▸ List.mem_map_of_mem hmem)
      rw [List.filter_cons_of_pos (by simpa using hne)]
      exact ((ih hpaths.2 hmem).cons first).trans (.swap file first _)

theorem ofClass_remove {files : List (Found P)} (hpaths : (files.map Found.path).Nodup)
    (hmem : file ∈ files) (hcls : file.cls = .reclaimable) :
    ofClass .pinned (files.filter fun other => other.path ≠ file.path) =
      ofClass .pinned files := by
  unfold ofClass
  rw [List.filter_filter]
  apply List.filter_congr
  intro other hother
  by_cases hpath : other.path = file.path
  · rw [List.inj_on_of_nodup_map hpaths hother hmem hpath, hcls]
    simp
  · simp [hpath]

omit [LinearOrder P] in
/-- Waiting lets others delete, and nothing else. -/
theorem Evicting.wait (h : Evicting disk target rest gone p) (weather : Weather P) :
    Evicting disk target rest gone (p.wait weather) := by
  have hsub := weather.standing_sublist p.attempt p.disk
  have hsize := size_sublist hsub
  have hbytes := h.bytes
  constructor
  · exact hsub.trans h.sublist
  · show ofClass .pinned (weather.standing p.attempt p.disk) = _
    rw [weather.ofClass_standing, h.pinned]
  · exact fun file hfile => h.left file (hsub.subset hfile)
  · exact h.removed
  · exact h.from_disk
  · exact h.total
  · exact h.reclaimable
  · exact h.freed
  · show size (weather.standing p.attempt p.disk) + size gone ≤ size disk
    omega
  · exact h.needed

omit [LinearOrder P] in
/-- A file that is gone is no longer to be considered. -/
theorem Evicting.skip (h : Evicting disk target (file :: rest) gone p) (hgone : file ∉ p.disk) :
    Evicting disk target rest gone p :=
  { h with
    left := by
      intro other hother hcls
      obtain rfl | hin := List.mem_cons.mp (h.left other hother hcls)
      · exact absurd hother hgone
      · exact hin }

/-- A removal that works. -/
theorem Evicting.remove (hpaths : (disk.map Found.path).Nodup)
    (h : Evicting disk target (file :: rest) gone p) (hmem : file ∈ p.disk)
    (hcls : file.cls = .reclaimable) (hmore : ¬p.total ≤ target) :
    Evicting disk target rest (gone ++ [file]) (p.remove file) := by
  have hpaths' : (p.disk.map Found.path).Nodup := hpaths.sublist (h.sublist.map _)
  have hperm := perm_remove hpaths' hmem
  have hsize : size p.disk =
      file.bytes.toNat + size (p.disk.filter fun other => other.path ≠ file.path) :=
    size_perm hperm
  have hclass := size_ofClass p.disk
  have hall := size_ofClass disk
  have hpinned := congrArg size h.pinned
  have hrecl : file.bytes.toNat ≤ size (ofClass .reclaimable p.disk) := by
    have hin : file ∈ ofClass .reclaimable p.disk := by simp [ofClass, hmem, hcls]
    exact size_sublist (List.singleton_sublist.mpr hin)
  have htotal := h.total
  have hreclaimable := h.reclaimable
  have hbytes := h.bytes
  constructor
  · exact List.filter_sublist.trans h.sublist
  · show ofClass .pinned (p.disk.filter fun other => other.path ≠ file.path) = _
    rw [ofClass_remove hpaths' hmem hcls, h.pinned]
  · intro other hother hother'
    have hfilter : other ∈ p.disk.filter fun other => other.path ≠ file.path := hother
    obtain ⟨hin, hne⟩ := List.mem_filter.mp hfilter
    obtain rfl | hrest := List.mem_cons.mp (h.left other hin hother')
    · simp at hne
    · exact hrest
  · show p.removed ++ [(file.path, file.bytes)] = _
    rw [h.removed, List.map_append]
    rfl
  · intro other hother
    obtain hother | hother := List.mem_append.mp hother
    · exact h.from_disk other hother
    · rw [List.mem_singleton.mp hother]
      exact ⟨h.sublist.subset hmem, hcls⟩
  · show (saturatingSub p.total file.bytes).toNat + _ = _
    rw [toNat_saturatingSub, size_append, size_cons, size_nil]
    omega
  · show (saturatingSub p.reclaimable file.bytes).toNat + _ = _
    rw [toNat_saturatingSub, size_append, size_cons, size_nil]
    omega
  · show (saturatingAdd p.freed file.bytes).toNat = _
    rw [toNat_saturatingAdd, h.freed, size_append, size_cons, size_nil]
    omega
  · show size (p.disk.filter fun other => other.path ≠ file.path) + _ ≤ _
    rw [size_append, size_cons, size_nil]
    omega
  · intro m hm
    rw [List.length_append, List.length_singleton] at hm
    rw [List.take_append_of_le_length (by omega)]
    rcases Nat.lt_succ_iff_lt_or_eq.mp hm with hm | rfl
    · exact h.needed m hm
    · rw [List.take_length]
      rw [UInt64.le_iff_toNat_le] at hmore
      omega

/-- A whole loop: what it has removed, and that it ends with the target met or
nothing left to remove. -/
theorem Evicting.evict (hpaths : (disk.map Found.path).Nodup) (weather : Weather P)
    (h : Evicting disk target rest gone p)
    (hrest : ∀ file ∈ rest, file ∈ disk ∧ file.cls = .reclaimable) :
    ∃ rest' gone', Evicting disk target rest' gone' (Quota.evict weather target rest p).1 ∧
      ((Quota.evict weather target rest p).2 = .ok () →
        (Quota.evict weather target rest p).1.total ≤ target ∨ rest' = []) := by
  induction rest generalizing gone p with
  | nil => exact ⟨[], gone, h, fun _ => .inr rfl⟩
  | cons file rest ih =>
    have hrest' : ∀ file ∈ rest, file ∈ disk ∧ file.cls = .reclaimable :=
      fun other hother => hrest other (List.mem_cons_of_mem _ hother)
    unfold Quota.evict
    by_cases hdone : p.total ≤ target
    · rw [if_pos hdone]
      exact ⟨file :: rest, gone, h, fun _ => .inl hdone⟩
    · rw [if_neg hdone]
      dsimp only
      have hwait := h.wait weather
      by_cases hrefused : weather.refuses p.attempt file.path
      · rw [if_pos hrefused]
        exact ⟨file :: rest, gone, hwait, fun hok => by cases hok⟩
      · rw [if_neg hrefused]
        obtain ⟨hfile, hcls⟩ := hrest file List.mem_cons_self
        by_cases hfound : (p.wait weather).disk.any fun other => other.path = file.path
        · rw [if_pos hfound]
          obtain ⟨other, hother, hpath⟩ := List.any_eq_true.mp hfound
          have hsame : other = file := List.inj_on_of_nodup_map hpaths
            (hwait.sublist.subset hother) hfile (of_decide_eq_true hpath)
          rw [hsame] at hother
          exact ih (hwait.remove hpaths hother hcls hdone) hrest'
        · rw [if_neg hfound]
          have hgone : file ∉ (p.wait weather).disk := by
            intro hin
            exact hfound (List.any_eq_true.mpr ⟨file, hin, by simp⟩)
          exact ih (hwait.skip hgone) hrest'

end Loop

/-! ## Nobody else touches the store -/

section Calm

variable {disk : List (Found P)} {target : UInt64}

omit [LinearOrder P] in
theorem Progress.disk_wait_calm (p : Progress P) : (p.wait (.calm P)).disk = p.disk := by
  show (Weather.calm P).standing p.attempt p.disk = p.disk
  unfold Weather.standing Weather.calm
  simp

/-- The loop removes the candidates in order until the target is met. -/
theorem Evicting.evict_calm (hpaths : (disk.map Found.path).Nodup) {rest gone : List (Found P)}
    {p : Progress P} (h : Evicting disk target rest gone p) (hperm : (p.disk ++ gone).Perm disk)
    (hrest : ∀ file ∈ rest, file ∈ p.disk ∧ file.cls = .reclaimable)
    (hnodup : (rest.map Found.path).Nodup) :
    ∃ n ≤ rest.length, (Quota.evict (.calm P) target rest p).2 = .ok () ∧
      Evicting disk target (rest.drop n) (gone ++ rest.take n)
        (Quota.evict (.calm P) target rest p).1 ∧
      ((Quota.evict (.calm P) target rest p).1.disk ++ (gone ++ rest.take n)).Perm disk ∧
      ((Quota.evict (.calm P) target rest p).1.total ≤ target ∨ n = rest.length) := by
  induction rest generalizing gone p with
  | nil =>
    refine ⟨0, le_refl 0, rfl, ?_, ?_, .inr rfl⟩
    · rw [List.take_nil, List.append_nil]
      exact h
    · rw [List.take_nil, List.append_nil]
      exact hperm
  | cons file rest ih =>
    unfold Quota.evict
    by_cases hdone : p.total ≤ target
    · rw [if_pos hdone]
      refine ⟨0, Nat.zero_le _, rfl, ?_, ?_, .inl hdone⟩
      · rw [List.take_zero, List.append_nil]
        exact h
      · rw [List.take_zero, List.append_nil]
        exact hperm
    · obtain ⟨hfile, hcls⟩ := hrest file List.mem_cons_self
      have hwait := h.wait (.calm P)
      have hdisk := p.disk_wait_calm
      have hfound : (p.wait (.calm P)).disk.any fun other => other.path = file.path := by
        rw [hdisk]
        exact List.any_eq_true.mpr ⟨file, hfile, by simp⟩
      have hcalm : ¬(Weather.calm P).refuses p.attempt file.path = true := by simp [Weather.calm]
      rw [if_neg hdone]
      dsimp only
      rw [if_neg hcalm, if_pos hfound]
      rw [List.map_cons, List.nodup_cons] at hnodup
      have hfile' : file ∈ (p.wait (.calm P)).disk := hdisk ▸ hfile
      have hnext := hwait.remove hpaths hfile' hcls hdone
      have hpaths' : ((p.wait (.calm P)).disk.map Found.path).Nodup :=
        hpaths.sublist (hwait.sublist.map _)
      have hremoved := perm_remove hpaths' hfile'
      have hperm' : (((p.wait (.calm P)).remove file).disk ++ (gone ++ [file])).Perm disk := by
        rw [hdisk] at hremoved
        refine List.Perm.trans ?_ hperm
        show ((p.wait (.calm P)).disk.filter _ ++ (gone ++ [file])).Perm (p.disk ++ gone)
        rw [hdisk, ← List.append_assoc]
        refine List.perm_append_comm.trans ?_
        exact (hremoved.append_right gone).symm
      have hrest' : ∀ other ∈ rest,
          other ∈ ((p.wait (.calm P)).remove file).disk ∧ other.cls = .reclaimable := by
        intro other hother
        obtain ⟨hin, hother'⟩ := hrest other (List.mem_cons_of_mem _ hother)
        refine ⟨?_, hother'⟩
        show other ∈ (p.wait (.calm P)).disk.filter fun f => f.path ≠ file.path
        rw [hdisk, List.mem_filter]
        refine ⟨hin, ?_⟩
        have hne : other.path ≠ file.path := fun heq =>
          hnodup.1 (heq ▸ List.mem_map_of_mem hother)
        simpa using hne
      obtain ⟨n, hle, hok, hevicting, hfinal, hend⟩ := ih hnext hperm' hrest' hnodup.2
      refine ⟨n + 1, Nat.succ_le_succ hle, hok, ?_, ?_, ?_⟩
      · rw [List.drop_succ_cons, List.take_succ_cons]
        rw [List.append_assoc] at hevicting
        exact hevicting
      · rw [List.take_succ_cons]
        rw [List.append_assoc] at hfinal
        exact hfinal
      · rw [List.length_cons, Nat.succ_inj]
        exact hend

end Calm

/-! ## A whole call -/

section Call

variable {disk : List (Found P)} {limit incoming : UInt64}

/-- The sums of a store are those of its files, and the room asked for does not
reach the end of a `u64` together with an unbounded limit. -/
structure InRange (disk : List (Found P)) (limit incoming : UInt64) : Prop where
  bytes : size disk < UInt64.size
  files : disk.length < UInt64.size
  room : limit.toNat < UInt64.size - 1 ∨
    size (ofClass .pinned disk) + incoming.toNat < UInt64.size

omit [LinearOrder P] in
theorem InRange.tally_toNat (h : InRange disk limit incoming) :
    (tally disk).pinned.toNat = size (ofClass .pinned disk) ∧
      (tally disk).reclaimable.toNat = size (ofClass .reclaimable disk) ∧
      (tally disk).files.toNat = disk.length ∧ (tally disk).total.toNat = size disk := by
  have hbytes := h.bytes
  have hfiles := h.files
  have hsize := size_ofClass disk
  rw [tally_pinned, tally_reclaimable, tally_files, tally_total]
  omega

omit [LinearOrder P] in
/-- The refusal is decided by the true sum. -/
theorem InRange.refuses_iff (h : InRange disk limit incoming) :
    saturatingAdd (tally disk).pinned incoming > limit ↔
      limit.toNat < size (ofClass .pinned disk) + incoming.toNat := by
  have hlimit := limit.toNat_lt
  have hroom := h.room
  rw [gt_iff_lt, UInt64.lt_iff_toNat_lt, toNat_saturatingAdd, h.tally_toNat.1]
  unfold UInt64.size at *
  omega

omit [LinearOrder P] in
/-- The state the loop starts in. -/
theorem Evicting.start (h : InRange disk limit incoming) (target : UInt64)
    {rest : List (Found P)} (hrest : ∀ file ∈ disk, file.cls = .reclaimable → file ∈ rest) :
    Evicting disk target rest [] (.start disk (tally disk)) where
  sublist := List.Sublist.refl _
  pinned := rfl
  left := hrest
  removed := rfl
  from_disk := by simp
  total := h.tally_toNat.2.2.2
  reclaimable := h.tally_toNat.2.1
  freed := rfl
  bytes := le_refl _
  needed := by simp

theorem mem_candidates {found : List (Found P)} {file : Found P} :
    file ∈ candidates found ↔ file ∈ found ∧ file.cls = .reclaimable := by
  rw [(candidates_perm found).mem_iff]
  simp [ofClass]

theorem mem_walk {file : Found P} : file ∈ walk disk ↔ file ∈ disk := (walk_perm disk).mem_iff

omit [LinearOrder P] in
theorem size_ofClass_reclaimable_nil {files : List (Found P)}
    (h : ∀ file ∈ files, file.cls ≠ .reclaimable) : size files = size (ofClass .pinned files) := by
  have hnil : ofClass .reclaimable files = [] := by
    unfold ofClass
    rw [List.filter_eq_nil_iff]
    intro file hfile
    simpa using h file hfile
  have hsize := size_ofClass files
  rw [hnil, size_nil] at hsize
  omega

omit [LinearOrder P] in
/-- Once the target is met or nothing is left to remove, everything fits. -/
theorem Evicting.fits {rest gone : List (Found P)} {p : Progress P}
    (h : Evicting disk (saturatingSub limit incoming) rest gone p)
    (hroom : size (ofClass .pinned disk) + incoming.toNat ≤ limit.toNat)
    (hend : p.total ≤ saturatingSub limit incoming ∨ rest = []) :
    size p.disk + incoming.toNat ≤ limit.toNat := by
  rcases hend with hdone | rfl
  · rw [UInt64.le_iff_toNat_le, toNat_saturatingSub] at hdone
    have htotal := h.total
    have hbytes := h.bytes
    omega
  · have hpinned : size p.disk = size (ofClass .pinned p.disk) :=
      size_ofClass_reclaimable_nil fun file hfile hcls => by
        simpa using h.left file hfile hcls
    rw [hpinned, h.pinned]
    exact hroom

/-- What a call reports when the files stay as they are: nothing is deleted and
the pinned bytes are named if they leave no room, and otherwise the shortest
run of the oldest reclaimable files that makes room is gone. -/
structure CalmOutcome (disk : List (Found P)) (limit incoming : UInt64)
    (result : List (Found P) × Except (StoreError P) (Eviction P)) : Prop where
  refused : limit.toNat < size (ofClass .pinned disk) + incoming.toNat →
    ∃ pinned, result = (disk, .error (.quotaExceeded pinned limit))
  accepted : size (ofClass .pinned disk) + incoming.toNat ≤ limit.toNat →
    ∃ n eviction, result.2 = .ok eviction ∧ n ≤ (candidates (walk disk)).length ∧
      (result.1 ++ (candidates (walk disk)).take n).Perm disk ∧
      eviction.removed =
        ((candidates (walk disk)).take n).map (fun file => (file.path, file.bytes)) ∧
      size result.1 + incoming.toNat ≤ limit.toNat ∧
      (∀ m < n, limit.toNat <
        size disk - size ((candidates (walk disk)).take m) + incoming.toNat) ∧
      eviction.freed.toNat = size ((candidates (walk disk)).take n) ∧
      eviction.after = usage result.1

/-- What an accepted call guarantees whatever else is deleted meanwhile. -/
structure AcceptedOutcome (disk : List (Found P)) (limit incoming : UInt64)
    (result : List (Found P)) (eviction : Eviction P) : Prop where
  fits : size result + incoming.toNat ≤ limit.toNat
  removed : ∃ gone : List (Found P),
    eviction.removed = gone.map (fun file => (file.path, file.bytes)) ∧
      (∀ file ∈ gone, file ∈ disk ∧ file.cls = .reclaimable) ∧
      ∀ m < gone.length, limit.toNat < size disk - size (gone.take m) + incoming.toNat

end Call

section Spec

variable {disk : List (Found P)} {limit incoming : UInt64}

/-- What the call does once its checks are passed. -/
theorem reclaim_eq (weather : Weather P)
    (hneeded : ¬saturatingAdd (tally disk).pinned incoming > limit) :
    reclaim weather (some limit) disk incoming =
      if (tally disk).total ≤ saturatingSub limit incoming then
        (disk, .ok ⟨[], 0, tally disk⟩)
      else
        match evict weather (saturatingSub limit incoming) (candidates (walk disk))
            (.start disk (tally disk)) with
        | (p, .error error) => (p.disk, .error error)
        | (p, .ok ()) => (p.disk, .ok (p.eviction (tally disk))) := by
  unfold reclaim
  dsimp only
  rw [tally_perm (walk_perm disk), if_neg hneeded]

theorem start_evicting (h : InRange disk limit incoming) :
    Evicting disk (saturatingSub limit incoming) (candidates (walk disk)) []
      (.start disk (tally disk)) :=
  Evicting.start h _ fun _ hfile hcls => mem_candidates.mpr ⟨mem_walk.mpr hfile, hcls⟩

theorem nodup_candidates (hpaths : (disk.map Found.path).Nodup) :
    ((candidates (walk disk)).map Found.path).Nodup := by
  have hwalk : ((walk disk).map Found.path).Nodup :=
    ((walk_perm disk).map _).nodup_iff.mpr hpaths
  rw [((candidates_perm (walk disk)).map Found.path).nodup_iff]
  exact hwalk.sublist (List.filter_sublist.map _)

/-- What is reported is what the store holds now. -/
theorem Evicting.after_eq (h : InRange disk limit incoming) {target : UInt64}
    {rest gone : List (Found P)} {p : Progress P} (hp : Evicting disk target rest gone p)
    (hperm : (p.disk ++ gone).Perm disk) :
    (p.eviction (tally disk)).after = usage p.disk := by
  obtain ⟨hpinned, hreclaimable, hfiles, -⟩ := h.tally_toNat
  have hbytes := h.bytes
  have hcount := h.files
  have hsize := size_perm hperm
  have hlength := hperm.length_eq
  have hclass := size_ofClass p.disk
  have hall := size_ofClass disk
  have hkept := congrArg size hp.pinned
  have hrecl := hp.reclaimable
  have hremoved : p.removed.length = gone.length := by rw [hp.removed, List.length_map]
  rw [size_append] at hsize
  rw [List.length_append] at hlength
  unfold UInt64.size at *
  have hp1 : (tally disk).pinned = (tally p.disk).pinned := by
    rw [← UInt64.toNat_inj, hpinned, tally_pinned, UInt64.size]
    omega
  have hp2 : p.reclaimable = (tally p.disk).reclaimable := by
    rw [← UInt64.toNat_inj, tally_reclaimable, UInt64.size]
    omega
  have hp3 : saturatingSub (tally disk).files (.ofNat p.removed.length) =
      (tally p.disk).files := by
    rw [← UInt64.toNat_inj, toNat_saturatingSub, hfiles, tally_files,
      UInt64.toNat_ofNat_of_lt' (by rw [hremoved, UInt64.size]; omega), hremoved, UInt64.size]
    omega
  unfold usage Progress.eviction
  rw [tally_perm (walk_perm p.disk), hp1, hp2, hp3]

/-- The call in a store nobody else touches. -/
theorem reclaim_calm (hpaths : (disk.map Found.path).Nodup) (h : InRange disk limit incoming) :
    CalmOutcome disk limit incoming (reclaim (.calm P) (some limit) disk incoming) := by
  constructor
  · intro hover
    refine ⟨saturatingAdd (tally (walk disk)).pinned incoming, ?_⟩
    have hrefuse := h.refuses_iff.mpr hover
    rw [← tally_perm (walk_perm disk)] at hrefuse
    unfold reclaim
    dsimp only
    rw [if_pos hrefuse]
  · intro hroom
    have hneeded : ¬saturatingAdd (tally disk).pinned incoming > limit := by
      rw [h.refuses_iff]
      omega
    rw [reclaim_eq _ hneeded]
    have htotal := h.tally_toNat.2.2.2
    by_cases hfits : (tally disk).total ≤ saturatingSub limit incoming
    · rw [if_pos hfits]
      rw [UInt64.le_iff_toNat_le, toNat_saturatingSub, htotal] at hfits
      refine ⟨0, _, rfl, Nat.zero_le _, ?_, rfl, ?_, fun m hm => absurd hm (Nat.not_lt_zero m),
        rfl, ?_⟩
      · rw [List.take_zero, List.append_nil]
      · show size disk + incoming.toNat ≤ limit.toNat
        omega
      · exact (tally_perm (walk_perm disk)).symm
    · rw [if_neg hfits]
      have hrest : ∀ file ∈ candidates (walk disk),
          file ∈ (Progress.start disk (tally disk)).disk ∧ file.cls = .reclaimable := by
        intro file hfile
        obtain ⟨hin, hcls⟩ := mem_candidates.mp hfile
        exact ⟨mem_walk.mp hin, hcls⟩
      have hperm : ((Progress.start disk (tally disk)).disk ++ []).Perm disk := by
        rw [List.append_nil]
        exact List.Perm.refl _
      obtain ⟨n, hle, hok, hevicting, hfinal, hend⟩ :=
        (start_evicting h).evict_calm hpaths hperm hrest (nodup_candidates hpaths)
      rw [List.nil_append] at hevicting hfinal
      generalize evict (.calm P) (saturatingSub limit incoming) (candidates (walk disk))
        (.start disk (tally disk)) = outcome at hok hevicting hfinal hend ⊢
      obtain ⟨p, result⟩ := outcome
      obtain rfl : result = .ok () := hok
      have hend' : p.total ≤ saturatingSub limit incoming ∨
          (candidates (walk disk)).drop n = [] := by
        rcases hend with hdone | rfl
        · exact .inl hdone
        · exact .inr (List.drop_length ..)
      refine ⟨n, _, rfl, hle, hfinal, hevicting.removed, hevicting.fits hroom hend', ?_, ?_,
        hevicting.after_eq h hfinal⟩
      · intro m hm
        have hlength : ((candidates (walk disk)).take n).length = n := by
          rw [List.length_take]
          omega
        have hneed := hevicting.needed m (hlength.symm ▸ hm)
        rw [toNat_saturatingSub, List.take_take, min_eq_left hm.le] at hneed
        omega
      · have hfreed : p.freed.toNat = _ := hevicting.freed
        have hin := hevicting.bytes
        have hbytes := h.bytes
        show p.freed.toNat = _
        omega

/-- The call whatever else happens to the store. -/
theorem reclaim_fits (hpaths : (disk.map Found.path).Nodup) (h : InRange disk limit incoming)
    {weather : Weather P} {result : List (Found P)} {eviction : Eviction P}
    (hok : reclaim weather (some limit) disk incoming = (result, .ok eviction)) :
    AcceptedOutcome disk limit incoming result eviction := by
  by_cases hrefuse : saturatingAdd (tally disk).pinned incoming > limit
  · unfold reclaim at hok
    dsimp only at hok
    rw [tally_perm (walk_perm disk), if_pos hrefuse] at hok
    cases hok
  · have hroom : size (ofClass .pinned disk) + incoming.toNat ≤ limit.toNat := by
      rw [h.refuses_iff] at hrefuse
      omega
    rw [reclaim_eq _ hrefuse] at hok
    split_ifs at hok with hfits
    · cases hok
      rw [UInt64.le_iff_toNat_le, toNat_saturatingSub, h.tally_toNat.2.2.2] at hfits
      refine ⟨by omega, [], rfl, by simp, fun m hm => absurd hm (Nat.not_lt_zero m)⟩
    · have hrest : ∀ file ∈ candidates (walk disk), file ∈ disk ∧ file.cls = .reclaimable := by
        intro file hfile
        obtain ⟨hin, hcls⟩ := mem_candidates.mp hfile
        exact ⟨mem_walk.mp hin, hcls⟩
      obtain ⟨rest, gone, hevicting, hend⟩ := (start_evicting h).evict hpaths weather hrest
      generalize evict weather (saturatingSub limit incoming) (candidates (walk disk))
        (.start disk (tally disk)) = outcome at hok hevicting hend
      obtain ⟨p, verdict⟩ := outcome
      cases verdict with
      | error error => cases hok
      | ok u =>
        cases hok
        refine ⟨hevicting.fits hroom (hend rfl), gone, hevicting.removed,
          hevicting.from_disk, ?_⟩
        intro m hm
        have hneed := hevicting.needed m hm
        rw [toNat_saturatingSub] at hneed
        omega

/-- With sums that do not saturate, a call refuses exactly when the pinned bytes
leave no room, deletes no more than it needs of what it measured, and makes the
room it was asked for, also where files go that others delete. -/
theorem reclaim_spec (hpaths : (disk.map Found.path).Nodup) (h : InRange disk limit incoming) :
    CalmOutcome disk limit incoming (reclaim (.calm P) (some limit) disk incoming) ∧
      ∀ weather result eviction,
        reclaim weather (some limit) disk incoming = (result, .ok eviction) →
          AcceptedOutcome disk limit incoming result eviction :=
  ⟨reclaim_calm hpaths h, fun _ _ _ hok => reclaim_fits hpaths h hok⟩

end Spec

/-! ## The sample -/

/-- Two blobs of sixty bytes. -/
def sampleBlobs : List (Found Nat) :=
  [⟨0, 60, .reclaimable, 1⟩, ⟨1, 60, .reclaimable, 2⟩]

theorem reclaim_spec_sample : ∃ eviction,
    (reclaim (.calm Nat) (some 100) sampleBlobs 0).2 = .ok eviction ∧
      eviction.after = usage (reclaim (.calm Nat) (some 100) sampleBlobs 0).1 := by
  have hspec := @reclaim_spec Nat _ sampleBlobs 100 0 (by decide)
    ⟨by decide, by decide, .inl (by decide)⟩
  obtain ⟨-, eviction, hok, -, -, -, -, -, -, hafter⟩ := hspec.1.accepted (by decide)
  exact ⟨eviction, hok, hafter⟩

/-- The second blob is deleted by somebody else before the first removal. What
is left then fits, and the first blob goes as well. -/
theorem reclaim_in_vain : ¬∀ (weather : Weather Nat) (disk result : List (Found Nat))
    (limit incoming : UInt64) (eviction : Eviction Nat),
      reclaim weather (some limit) disk incoming = (result, .ok eviction) →
      size (weather.standing 0 disk) + incoming.toNat ≤ limit.toNat → eviction.removed = [] := by
  intro hall
  have hgone := hall ⟨fun _ path => path = 1, fun _ _ => false⟩ sampleBlobs [] 100 0
    ⟨[(0, 60)], 60, ⟨0, 60, 1⟩⟩ (by decide) (by decide)
  cases hgone

end Cairn.Ports.Quota
