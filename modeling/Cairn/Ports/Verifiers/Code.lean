import Cairn.Ports.Verifiers.Containment

/-!
# Fetching pinned code

`missing_code` and `admit_code` of `src/verifiers/mod.rs` with the `put` of
`src/blobs.rs`. A registry lists the addresses it cannot resolve and is handed the
bytes. That works for code it has nowhere; it lists a pin whose bundle file was
edited as well, which no fetch can mend, and an entry over the ceiling stands in
the way of the bytes that would replace it.
-/

namespace Cairn.Ports.Verifiers

open Cairn.Verified
open Cairn.Ports.Canonical

structure PinnedCode where
  role : String
  path : String
  sha256 : String
deriving DecidableEq

/-- The closure `push` of `pinned_code`. -/
def push (role : String) : Option String → Option String → List PinnedCode
  | some path, some sha256 => [⟨role, path, sha256⟩]
  | _, _ => []

/-- Every pinned code file a verifier spec names. -/
def pinnedCode (spec : Value) : List PinnedCode :=
  let text (value : Value) (key : String) := (value.get key).bind Value.asStr
  match text spec "kind" with
  | some "certificate" => push "checker" (text spec "checker") (text spec "checker_sha256")
  | some "evaluator" => push "evaluator" (text spec "evaluator") (text spec "evaluator_sha256")
  | some "statistical" =>
    match spec.get "statistic" with
    | some statistic => push "statistic" (text statistic "path") (text statistic "sha256")
    | none => []
  | _ => []

/-- A spec pins one file at most. -/
theorem pinnedCode_cases (spec : Value) :
    pinnedCode spec = [] ∨ ∃ pin, pinnedCode spec = [pin] := by
  have hpush : ∀ role path sha256,
      push role path sha256 = [] ∨ ∃ pin, push role path sha256 = [pin] := by
    intro role path sha256
    cases path <;> cases sha256 <;> simp [push]
  unfold pinnedCode
  dsimp only
  split
  · exact hpush _ _ _
  · exact hpush _ _ _
  · split
    · exact hpush _ _ _
    · exact .inl rfl
  · exact .inl rfl

section

variable [Sha256]

/-- `BlobStore::put`. -/
def BlobStore.put (s : BlobStore) (declared : String) (bytes : List UInt8) :
    BlobStore × Except BlobError PathBuf :=
  match s.pathOf declared with
  | .error error => (s, .error error)
  | .ok path =>
    if MAX_BLOB_BYTES < bytes.length then (s, .error (.tooLarge MAX_BLOB_BYTES bytes.length))
    else if address bytes ≠ declared then (s, .error (.mismatch declared (address bytes)))
    else
      match s.entries declared with
      | none =>
        ({ s with entries := Function.update s.entries declared (some (.file bytes)) },
          .ok path)
      | some .other => (s, .error .io)
      | some (.file _) =>
        match s.read declared with
        | (s, .error error) => (s, .error error)
        | (s, .ok _) => (s, .ok path)

namespace VerifierRegistry

/-- `VerifierRegistry::admit_code`. -/
def admitCode (r : VerifierRegistry) (declared : String) (bytes : List UInt8) :
    VerifierRegistry × Except BlobError Unit :=
  let (blobs, answer) := r.blobs.put declared bytes
  ({ r with blobs }, answer.map fun _ => ())

/-- The loop of `missing_code`. -/
def missingFrom (host : Host) (r : VerifierRegistry) (out : List String) :
    List PinnedCode → VerifierRegistry × List String
  | [] => (r, out)
  | pin :: pins =>
    if !isHex64 pin.sha256 then missingFrom host r out pins
    else
      let resolution := resolvePinned host r pin.path pin.sha256
      let r := { r with blobs := resolution.blobs }
      match resolution.answer with
      | .ok _ => missingFrom host r out pins
      | .error .escape => missingFrom host r out pins
      | .error _ => missingFrom host r (out ++ [pin.sha256]) pins

/-- `VerifierRegistry::missing_code`, with what it leaves of the store. -/
def missingCode (host : Host) (r : VerifierRegistry) (spec : Value) :
    VerifierRegistry × List String :=
  missingFrom host r [] (pinnedCode spec)

/-- One call of `admit_code` for every address of a list. -/
def admitEach (code : String → List UInt8) (r : VerifierRegistry) :
    List String → VerifierRegistry × List (Except BlobError Unit)
  | [] => (r, [])
  | declared :: rest =>
    let (r, answer) := r.admitCode declared (code declared)
    let (r, answers) := admitEach code r rest
    (r, answer :: answers)

end VerifierRegistry

/-! ## The purpose -/

/-- A path that holds a file with the declared hash. -/
def Yields (host : Host) (r : VerifierRegistry) (path : PathBuf) (declared : String) : Prop :=
  ∃ source, address source = declared ∧
    (host.read path = some source ∨
      ∃ stored, r.blobs.pathOf declared = .ok stored ∧ host.absolutize stored = some path ∧
        r.blobs.entries declared = some (.file source))

/-- What one round of fetching should do: every address listed is taken, none is
listed again, and every pin of the bundle leads to its code. -/
def Converges (host : Host) (r : VerifierRegistry) (spec : Value) (code : String → List UInt8) :
    Prop :=
  let listed := r.missingCode host spec
  let admitted := listed.1.admitEach code listed.2
  (∀ answer ∈ admitted.2, answer = .ok ()) ∧
    (admitted.1.missingCode host spec).2 = [] ∧
    ∀ pin ∈ pinnedCode spec,
      (resolvePinned host admitted.1 pin.path pin.sha256).answer ≠ .error .escape →
        ∃ path, (resolvePinned host admitted.1 pin.path pin.sha256).answer = .ok path ∧
          Yields host admitted.1 path pin.sha256

/-- The store has the bytes, or takes them. -/
def Takes (s : BlobStore) (declared : String) (bytes : List UInt8) : Prop :=
  match s.entries declared with
  | none => bytes.length ≤ MAX_BLOB_BYTES
  | some .other => False
  | some (.file held) => held.length ≤ MAX_BLOB_BYTES ∧
      (address held = declared ∨ bytes.length ≤ MAX_BLOB_BYTES)

/-- A pin that escapes, or whose bundle file is the pinned code, or that has no
bundle file to be read and is an address the store has or takes. -/
def Mendable (host : Host) (r : VerifierRegistry) (code : String → List UInt8) (pin : PinnedCode) :
    Prop :=
  match origin host r.root pin.path with
  | .stop failure => failure = .escape
  | .found _ source => address source = pin.sha256
  | .missing _ _ _ => isHex64 pin.sha256 = true ∧
      (host.absolutize (r.blobs.dir ++ [.name pin.sha256.toList])).isSome ∧
      Takes r.blobs pin.sha256 (code pin.sha256)

/-! ## The store -/

namespace BlobStore

variable {s s' : BlobStore} {declared : String} {bytes : List UInt8}

omit [Sha256] in
theorem pathOf_of_hex (h : isHex64 declared = true) :
    s.pathOf declared = .ok (s.dir ++ [.name declared.toList]) :=
  if_pos h

/-- The right bytes under a name that has none. -/
theorem put_absent (hhex : isHex64 declared = true) (hbytes : address bytes = declared)
    (hnone : s.entries declared = none) :
    if bytes.length ≤ MAX_BLOB_BYTES then
      ∃ s' path, s.put declared bytes = (s', .ok path) ∧ s'.read declared = (s', .ok bytes)
    else ∃ error, (s.put declared bytes).2 = .error error := by
  rw [put, pathOf_of_hex hhex]
  dsimp only
  by_cases hlong : MAX_BLOB_BYTES < bytes.length
  · rw [if_neg (Nat.not_le_of_lt hlong), if_pos hlong]
    exact ⟨_, rfl⟩
  · rw [if_pos (Nat.le_of_not_lt hlong), if_neg hlong, if_neg (not_not.mpr hbytes), hnone]
    refine ⟨_, _, rfl, ?_⟩
    rw [read, pathOf_of_hex hhex]
    dsimp only
    rw [Function.update_self]
    dsimp only
    rw [if_neg hlong, if_neg (not_not.mpr hbytes)]

theorem takes_of_read {held : List UInt8} (h : s.read declared = (s', .ok held)) :
    Takes s declared bytes := by
  obtain ⟨-, -, hentry, hlength, haddress⟩ := read_ok h
  rw [Takes, hentry]
  exact ⟨hlength, .inl haddress⟩

/-- Where a read found nothing, the right bytes are stored or refused. -/
theorem put_spec {error : BlobError} (hhex : isHex64 declared = true)
    (hbytes : address bytes = declared) (hread : (s.read declared).2 = .error error) :
    (Takes s declared bytes ∧ ∃ s' path, (s.read declared).1.put declared bytes = (s', .ok path) ∧
      s'.read declared = (s', .ok bytes)) ∨
    (¬Takes s declared bytes ∧
      ∃ refusal, ((s.read declared).1.put declared bytes).2 = .error refusal) := by
  have hpath := pathOf_of_hex (s := s) hhex
  cases hentry : s.entries declared with
  | none =>
    have hleft : (s.read declared).1 = s := by
      rw [read, hpath]
      dsimp only
      rw [hentry]
    have hput := put_absent hhex hbytes hentry
    have htakes : Takes s declared bytes ↔ bytes.length ≤ MAX_BLOB_BYTES := by
      rw [Takes, hentry]
    rw [hleft, htakes]
    split at hput
    · rename_i hshort
      exact .inl ⟨hshort, hput⟩
    · rename_i hlong
      exact .inr ⟨hlong, hput⟩
  | some entry =>
    cases entry with
    | other =>
      have hleft : (s.read declared).1 = s := by
        rw [read, hpath]
        dsimp only
        rw [hentry]
      have htakes : ¬Takes s declared bytes := by
        rw [Takes, hentry]
        exact id
      refine .inr ⟨htakes, ?_⟩
      rw [hleft, put, hpath]
      dsimp only
      split
      · exact ⟨_, rfl⟩
      · rw [if_neg (not_not.mpr hbytes), hentry]
        exact ⟨_, rfl⟩
    | file held =>
      by_cases hlong : MAX_BLOB_BYTES < held.length
      · -- an entry over the ceiling is neither read nor removed
        have hrefused : s.read declared =
            (s, .error (.tooLarge MAX_BLOB_BYTES held.length)) := by
          rw [read, hpath]
          dsimp only
          rw [hentry]
          dsimp only
          rw [if_pos hlong]
        have htakes : ¬Takes s declared bytes := by
          rw [Takes, hentry]
          exact fun h => absurd h.1 (Nat.not_le_of_lt hlong)
        refine .inr ⟨htakes, ?_⟩
        rw [hrefused, put, hpath]
        dsimp only
        split
        · exact ⟨_, rfl⟩
        · rw [if_neg (not_not.mpr hbytes), hentry]
          dsimp only
          rw [hrefused]
          exact ⟨_, rfl⟩
      · by_cases haddress : address held = declared
        · rw [read, hpath] at hread
          dsimp only at hread
          rw [hentry] at hread
          dsimp only at hread
          rw [if_neg hlong, if_neg (not_not.mpr haddress)] at hread
          cases hread
        · -- a rotted entry is gone once it was read
          have hleft : (s.read declared).1 = s.remove declared := by
            rw [read, hpath]
            dsimp only
            rw [hentry]
            dsimp only
            rw [if_neg hlong, if_pos haddress]
          have hput := put_absent (s := s.remove declared) hhex hbytes
            (Function.update_self _ _ _)
          have htakes : Takes s declared bytes ↔ bytes.length ≤ MAX_BLOB_BYTES := by
            rw [Takes, hentry]
            exact ⟨fun h => h.2.resolve_left haddress,
              fun h => ⟨Nat.le_of_not_lt hlong, .inr h⟩⟩
          rw [hleft, htakes]
          split at hput
          · rename_i hshort
            exact .inl ⟨hshort, hput⟩
          · rename_i hlongBytes
            exact .inr ⟨hlongBytes, hput⟩

end BlobStore

/-! ## One round -/

variable {host : Host} {r : VerifierRegistry} {spec : Value} {pin : PinnedCode}
  {code : String → List UInt8}

theorem yields_of_ok {relative declared : String} {path : PathBuf}
    (h : (resolvePinned host r relative declared).answer = .ok path) :
    Yields host r path declared := by
  rcases (resolvePinned_spec host r relative declared).1 path h with
    ⟨-, source, hread, haddress⟩ | ⟨stored, bytes, hstored, habsolute, hread⟩
  · exact ⟨source, haddress, .inl hread⟩
  · obtain ⟨-, -, hentry, -, haddress⟩ := BlobStore.read_ok hread
    exact ⟨bytes, haddress, .inr ⟨stored, hstored, habsolute, hentry⟩⟩

/-- When the store answers for a missing bundle file. -/
theorem blobFallback_ok_iff {full : PathBuf} {declared : String} {error : OriginError}
    {before : List Opened} :
    (∃ path, (blobFallback host r full declared error before).answer = .ok path) ↔
      isHex64 declared = true ∧
        (host.absolutize (r.blobs.dir ++ [.name declared.toList])).isSome ∧
        ∃ bytes, r.blobs.read declared = (r.blobs, .ok bytes) := by
  constructor
  · rintro ⟨path, hpath⟩
    obtain ⟨stored, bytes, hstored, habsolute, hread⟩ := blobFallback_ok hpath
    have hhex := (BlobStore.read_ok hread).2.1
    rw [BlobStore.pathOf_of_hex hhex] at hstored
    cases hstored
    exact ⟨hhex, by rw [habsolute]; rfl, bytes, hread⟩
  · rintro ⟨hhex, hsome, bytes, hread⟩
    obtain ⟨path, habsolute⟩ := Option.isSome_iff_exists.mp hsome
    refine ⟨path, ?_⟩
    rw [blobFallback, hread]
    dsimp only
    rw [BlobStore.pathOf_of_hex hhex]
    dsimp only
    rw [habsolute]

theorem blobFallback_ne_escape (full : PathBuf) (declared : String) (error : OriginError)
    (before : List Opened) :
    (blobFallback host r full declared error before).answer ≠ .error .escape := by
  unfold blobFallback
  split
  · nofun
  · split
    · nofun
    · split <;> nofun

theorem blobFallback_blobs (full : PathBuf) (declared : String) (error : OriginError)
    (before : List Opened) :
    (blobFallback host r full declared error before).blobs = (r.blobs.read declared).1 := by
  unfold blobFallback
  split
  · rename_i hread
    rw [hread]
  · rename_i hread
    rw [hread]
    split
    · rfl
    · split <;> rfl

theorem BlobStore.dir_read (s : BlobStore) (declared : String) :
    (s.read declared).1.dir = s.dir := by
  unfold BlobStore.read
  split
  · rfl
  · split
    · rfl
    · rfl
    · split
      · rfl
      · split <;> rfl

theorem BlobStore.dir_put (s : BlobStore) (declared : String) (bytes : List UInt8) :
    (s.put declared bytes).1.dir = s.dir := by
  unfold BlobStore.put
  split
  · rfl
  · split
    · rfl
    · split
      · rfl
      · split
        · rfl
        · rfl
        · have hdir := s.dir_read declared
          split
          · rename_i hread
            rwa [hread] at hdir
          · rename_i hread
            rwa [hread] at hdir

/-- What is listed of a spec with one pin. -/
theorem missingCode_one (host : Host) (hpins : pinnedCode spec = [pin]) (r : VerifierRegistry) :
    r.missingCode host spec =
      if isHex64 pin.sha256 = true then
        ({ r with blobs := (resolvePinned host r pin.path pin.sha256).blobs },
          match (resolvePinned host r pin.path pin.sha256).answer with
          | .ok _ => []
          | .error .escape => []
          | .error _ => [pin.sha256])
      else (r, []) := by
  rw [VerifierRegistry.missingCode, hpins, VerifierRegistry.missingFrom]
  cases isHex64 pin.sha256 with
  | false => rfl
  | true =>
    dsimp only [Bool.not_true]
    rw [if_neg (by decide), if_pos rfl]
    split <;> rfl

theorem dir_resolvePinned (host : Host) (r : VerifierRegistry) (relative declared : String) :
    (resolvePinned host r relative declared).blobs.dir = r.blobs.dir := by
  rw [resolvePinned_eq]
  split
  · rfl
  · rw [blobFallback_blobs, BlobStore.dir_read]
  · rfl

/-- A round keeps the root and the directory of the store. -/
theorem root_missingCode (host : Host) (hpins : pinnedCode spec = [pin]) (r : VerifierRegistry) :
    (r.missingCode host spec).1.root = r.root ∧
      (r.missingCode host spec).1.blobs.dir = r.blobs.dir := by
  rw [missingCode_one host hpins]
  split
  · exact ⟨rfl, dir_resolvePinned _ _ _ _⟩
  · exact ⟨rfl, rfl⟩

theorem root_admitEach (code : String → List UInt8) (r : VerifierRegistry) (listed : List String) :
    (r.admitEach code listed).1.root = r.root ∧
      (r.admitEach code listed).1.blobs.dir = r.blobs.dir := by
  induction listed generalizing r with
  | nil => exact ⟨rfl, rfl⟩
  | cons declared rest ih =>
    obtain ⟨hroot, hdir⟩ := ih (r.admitCode declared (code declared)).1
    exact ⟨hroot, hdir.trans (BlobStore.dir_put _ _ _)⟩

/-- The round for one pin. -/
theorem converges_iff_one (hpins : pinnedCode spec = [pin]) :
    Converges host r spec code ↔
      let admitted := (r.missingCode host spec).1.admitEach code (r.missingCode host spec).2
      (∀ answer ∈ admitted.2, answer = .ok ()) ∧ (admitted.1.missingCode host spec).2 = [] ∧
        ((resolvePinned host admitted.1 pin.path pin.sha256).answer ≠ .error .escape →
          ∃ path, (resolvePinned host admitted.1 pin.path pin.sha256).answer = .ok path) := by
  rw [Converges, hpins]
  constructor
  · rintro ⟨htaken, hempty, hyields⟩
    refine ⟨htaken, hempty, fun hstays => ?_⟩
    obtain ⟨path, hpath, -⟩ := hyields pin List.mem_cons_self hstays
    exact ⟨path, hpath⟩
  · rintro ⟨htaken, hempty, hyields⟩
    refine ⟨htaken, hempty, fun pin' hpin' hstays => ?_⟩
    rw [List.mem_singleton] at hpin'
    subst hpin'
    obtain ⟨path, hpath⟩ := hyields hstays
    exact ⟨path, hpath, yields_of_ok hpath⟩

theorem missingCode_settled (hpins : pinnedCode spec = [pin])
    (h : (∃ path, (resolvePinned host r pin.path pin.sha256).answer = .ok path) ∨
      (resolvePinned host r pin.path pin.sha256).answer = .error .escape) :
    (r.missingCode host spec).2 = [] := by
  rw [missingCode_one host hpins]
  split
  · rcases h with ⟨path, hpath⟩ | hescape
    · rw [hpath]
    · rw [hescape]
  · rfl

/-- Where the bundle decides, nothing that is fetched changes the answer. -/
theorem converges_of_bundle (hpins : pinnedCode spec = [pin]) {answer : Except PinFailure PathBuf}
    (hanswer : ∀ r' : VerifierRegistry, r'.root = r.root →
      (resolvePinned host r' pin.path pin.sha256).answer = answer) :
    Converges host r spec code ↔ (∃ path, answer = .ok path) ∨ answer = .error .escape := by
  rw [converges_iff_one hpins]
  have hroot := (root_admitEach code _ (r.missingCode host spec).2).1.trans
    (root_missingCode host hpins r).1
  dsimp only
  constructor
  · rintro ⟨-, -, hyields⟩
    rw [hanswer _ hroot] at hyields
    by_cases hescape : answer = .error .escape
    · exact .inr hescape
    · exact .inl (hyields hescape)
  · intro h
    have hlisted : (r.missingCode host spec).2 = [] :=
      missingCode_settled hpins (by rwa [hanswer r rfl])
    refine ⟨?_, missingCode_settled hpins (by rwa [hanswer _ hroot]), ?_⟩
    · rw [hlisted]
      exact nofun
    · rw [hanswer _ hroot]
      exact h.resolve_right

/-- Where the bundle has no file, the store decides. -/
theorem converges_of_missing (hpins : pinnedCode spec = [pin]) {full : PathBuf}
    {error : OriginError} {opened : List Opened}
    (horigin : origin host r.root pin.path = .missing full error opened)
    (hcode : ∀ declared ∈ (r.missingCode host spec).2, address (code declared) = declared) :
    Converges host r spec code ↔ isHex64 pin.sha256 = true ∧
      (host.absolutize (r.blobs.dir ++ [.name pin.sha256.toList])).isSome ∧
      Takes r.blobs pin.sha256 (code pin.sha256) := by
  have hresolve : ∀ r' : VerifierRegistry, r'.root = r.root →
      resolvePinned host r' pin.path pin.sha256 =
        blobFallback host r' full pin.sha256 error opened := by
    intro r' hroot
    rw [resolvePinned_eq, hroot, horigin]
  obtain ⟨hroot, hdir⟩ := root_admitEach code (r.missingCode host spec).1
    (r.missingCode host spec).2
  obtain ⟨hroot', hdir'⟩ := root_missingCode host hpins r
  rw [hroot'] at hroot
  rw [hdir'] at hdir
  rw [converges_iff_one hpins]
  dsimp only
  rw [hresolve _ hroot, forall_prop_of_true (blobFallback_ne_escape _ _ _ _),
    blobFallback_ok_iff, hdir]
  by_cases hhex : isHex64 pin.sha256 = true
  swap
  · exact iff_of_false (fun h => hhex h.2.2.1) fun h => hhex h.1
  by_cases hsome : (host.absolutize (r.blobs.dir ++ [.name pin.sha256.toList])).isSome = true
  swap
  · exact iff_of_false (fun h => hsome h.2.2.2.1) fun h => hsome h.2.1
  have hlisted := missingCode_one host hpins r
  rw [if_pos hhex, hresolve r rfl, blobFallback_blobs] at hlisted
  cases hread : (r.blobs.read pin.sha256).2 with
  | ok bytes =>
    -- the store has the code, so nothing is listed
    have hheld : r.blobs.read pin.sha256 = (r.blobs, .ok bytes) := by
      have hpair : r.blobs.read pin.sha256 = ((r.blobs.read pin.sha256).1, .ok bytes) :=
        Prod.ext rfl hread
      rw [hpair, (BlobStore.read_ok hpair).1]
    obtain ⟨path, hpath⟩ := (@blobFallback_ok_iff _ host r full pin.sha256 error opened).mpr
      ⟨hhex, hsome, bytes, hheld⟩
    rw [hpath, hheld] at hlisted
    rw [hlisted]
    refine iff_of_true ⟨nofun, ?_, hhex, hsome, bytes, hheld⟩
      ⟨hhex, hsome, BlobStore.takes_of_read hheld⟩
    refine missingCode_settled hpins (.inl ⟨path, ?_⟩)
    rwa [hresolve]
    rfl
  | error absent =>
    -- the pin is listed, and what was read is gone if it had rotted
    have hlist : r.missingCode host spec =
        ({ r with blobs := (r.blobs.read pin.sha256).1 }, [pin.sha256]) := by
      rw [hlisted]
      cases hanswer : (blobFallback host r full pin.sha256 error opened).answer with
      | ok path =>
        obtain ⟨-, -, bytes, hheld⟩ := blobFallback_ok_iff.mp ⟨path, hanswer⟩
        rw [hheld] at hread
        cases hread
      | error failure =>
        cases failure with
        | escape => exact absurd hanswer (blobFallback_ne_escape _ _ _ _)
        | mismatch actual => rfl
        | absent detail => rfl
    have hbytes : address (code pin.sha256) = pin.sha256 :=
      hcode pin.sha256 (by rw [hlist]; exact List.mem_singleton_self _)
    rw [hlist]
    rcases BlobStore.put_spec hhex hbytes hread with
      ⟨htakes, s', path, hput, hstored⟩ | ⟨htakes, refusal, hput⟩
    · have hround : VerifierRegistry.admitEach code
          { r with blobs := (r.blobs.read pin.sha256).1 } [pin.sha256] =
          ({ r with blobs := s' }, [.ok ()]) := by
        rw [VerifierRegistry.admitEach, VerifierRegistry.admitCode, hput]
        rfl
      rw [hlist, hround] at hdir
      rw [hround]
      refine iff_of_true ⟨by simp, ?_, hhex, hsome, _, hstored⟩ ⟨hhex, hsome, htakes⟩
      have hok := (@blobFallback_ok_iff _ host { r with blobs := s' } full pin.sha256 error
        opened).mpr ⟨hhex, by rwa [show s'.dir = r.blobs.dir from hdir], _, hstored⟩
      refine missingCode_settled hpins (.inl ?_)
      dsimp only
      rwa [hresolve { r with blobs := s' } rfl]
    · refine iff_of_false (fun h => ?_) fun h => htakes h.2.2
      have hanswer := h.1 (.error refusal) (by
        rw [VerifierRegistry.admitEach, VerifierRegistry.admitCode]
        dsimp only
        rw [hput]
        exact List.mem_cons_self)
      cases hanswer

theorem converges_iff_mendable (hpins : pinnedCode spec = [pin])
    (hcode : ∀ declared ∈ (r.missingCode host spec).2, address (code declared) = declared) :
    Converges host r spec code ↔ Mendable host r code pin := by
  unfold Mendable
  cases horigin : origin host r.root pin.path with
  | stop failure =>
    have hanswer : ∀ r' : VerifierRegistry, r'.root = r.root →
        (resolvePinned host r' pin.path pin.sha256).answer = .error failure := by
      intro r' hroot
      rw [resolvePinned_eq, hroot, horigin]
    rw [converges_of_bundle hpins hanswer]
    simp
  | found path source =>
    have hanswer : ∀ r' : VerifierRegistry, r'.root = r.root →
        (resolvePinned host r' pin.path pin.sha256).answer =
          if address source = pin.sha256 then .ok path
          else .error (.mismatch (address source)) := by
      intro r' hroot
      rw [resolvePinned_eq, hroot, horigin]
    rw [converges_of_bundle hpins hanswer]
    split
    · rename_i haddress
      exact iff_of_true (.inl ⟨path, rfl⟩) haddress
    · rename_i haddress
      exact iff_of_false (by simp) haddress
  | missing full error opened => exact converges_of_missing hpins horigin hcode

/-- One round of fetching is enough exactly when every pin escapes, has its code in
the bundle, or has no bundle file and an address the store has or takes. -/
theorem code_converges_iff (host : Host) (r : VerifierRegistry) (spec : Value)
    (code : String → List UInt8)
    (hcode : ∀ declared ∈ (r.missingCode host spec).2, address (code declared) = declared) :
    Converges host r spec code ↔ ∀ pin ∈ pinnedCode spec, Mendable host r code pin := by
  rcases pinnedCode_cases spec with hnone | ⟨pin, hpins⟩
  · have hlisted : ∀ r' : VerifierRegistry, r'.missingCode host spec = (r', []) := by
      intro r'
      rw [VerifierRegistry.missingCode, hnone]
      rfl
    rw [Converges, hnone, hlisted]
    exact iff_of_true ⟨nofun, by rw [hlisted], nofun⟩ nofun
  · rw [converges_iff_mendable hpins hcode, hpins, List.forall_mem_singleton]

end

/-! ## Rounds that do not end -/

/-- Hashing by the first byte. -/
@[reducible] def firstByteSha256 : Sha256 := ⟨fun data => Vector.replicate 32 (data.data.getD 0 0)⟩

def samplePin [Sha256] : PinnedCode := ⟨"checker", "p", sampleAddress⟩

def sampleSpec [Sha256] : Value :=
  Value.object [("kind", .string "certificate"), ("checker", .string "p"),
    ("checker_sha256", .string sampleAddress)]

theorem pinnedCode_sampleSpec [Sha256] : pinnedCode sampleSpec = [samplePin] := by
  simp [pinnedCode, sampleSpec, Value.get_object, BTreeMap.lookupEntry, push, samplePin]

theorem eq_of_mem_missingCode [Sha256] {host : Host} {r : VerifierRegistry} {declared : String}
    (h : declared ∈ (r.missingCode host sampleSpec).2) : declared = sampleAddress := by
  rw [missingCode_one host pinnedCode_sampleSpec] at h
  split at h
  · dsimp only at h
    split at h
    · cases h
    · cases h
    · exact List.mem_singleton.mp h
  · cases h

/-- A store that takes the code it was missing. -/
theorem code_converges_sample : letI := firstByteSha256
    Converges (sampleHost none) (sampleRegistry none) sampleSpec fun _ => [] := by
  let _ := firstByteSha256
  refine (code_converges_iff (sampleHost none) (sampleRegistry none) sampleSpec (fun _ => [])
    fun declared hlisted => (eq_of_mem_missingCode hlisted).symm).mpr fun pin hpin => ?_
  rw [pinnedCode_sampleSpec, List.mem_singleton] at hpin
  subst hpin
  have htakes : Takes (sampleRegistry none).blobs sampleAddress [] := by
    rw [Takes, sampleRegistry_entry]
    decide
  have horigin : origin (sampleHost none) (sampleRegistry none).root samplePin.path = _ :=
    sampleHost_missing none
  rw [Mendable, horigin]
  exact ⟨isHex64_address [], rfl, htakes⟩

/-- An edited bundle file is asked for and stays edited, and the bytes a node asked
for are refused for an entry over the ceiling. -/
theorem not_code_converges :
    (¬∀ (_ : Sha256) (host : Host) (r : VerifierRegistry) (spec : Value)
      (code : String → List UInt8),
      (∀ declared ∈ (r.missingCode host spec).2, address (code declared) = declared) →
        Converges host r spec code) ∧
    letI := firstByteSha256
    ¬Converges (sampleHost none)
      (sampleRegistry (some (.file (List.replicate (MAX_BLOB_BYTES + 1) 0)))) sampleSpec
      fun _ => [] := by
  let _ := firstByteSha256
  have hcode : ∀ host r, ∀ declared ∈ (VerifierRegistry.missingCode host r sampleSpec).2,
      address [] = declared :=
    fun host r declared hlisted => (eq_of_mem_missingCode hlisted).symm
  constructor
  · intro hall
    have hconverges := hall _ (sampleHost (some [255])) (sampleRegistry none) sampleSpec
      (fun _ => []) (hcode _ _)
    rw [converges_iff_mendable pinnedCode_sampleSpec (hcode _ _), Mendable] at hconverges
    have horigin : origin (sampleHost (some [255])) (sampleRegistry none).root samplePin.path = _ :=
      sampleHost_found none [255]
    rw [horigin] at hconverges
    have htext := congrArg (fun text : String => text.toList.head?) hconverges
    revert htext
    decide
  · intro hconverges
    rw [converges_iff_mendable pinnedCode_sampleSpec (hcode _ _), Mendable] at hconverges
    have horigin : origin (sampleHost none) (sampleRegistry (some (.file
        (List.replicate (MAX_BLOB_BYTES + 1) 0)))).root samplePin.path = _ :=
      sampleHost_missing _
    rw [horigin] at hconverges
    have htakes : Takes (sampleRegistry (some (.file
        (List.replicate (MAX_BLOB_BYTES + 1) 0)))).blobs sampleAddress [] := hconverges.2.2
    rw [Takes, sampleRegistry_entry] at htakes
    have hlength := htakes.1
    rw [List.length_replicate] at hlength
    omega

end Cairn.Ports.Verifiers
