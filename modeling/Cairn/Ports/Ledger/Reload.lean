import Cairn.Ports.Ledger.File

/-!
# Reading the log again

`Ledger::reload_if_changed` of `src/ledger.rs`. A long-lived reader holds one handle
and tells by the size and the time of the file whether there is anything to read. It
empties its list and fills it again line by line, so an error leaves the lines before
it. The file may change while it is read, so each question to the operating system has
an answer of its own (`ReloadIo`).
-/

namespace Cairn.Ports

open Cairn.Verified.Lines
open Cairn.Ports.Canonical

/-- Size and mtime of the backing file. -/
structure FileStamp where
  len : UInt64
  modified : Nat
deriving DecidableEq

/-- What the operating system answers during one reload. -/
structure ReloadIo where
  /-- `fs::metadata`, if it succeeds, with the stamp if there is a time. -/
  metadata : Option (Option FileStamp)
  read : Except String ByteArray
  /-- `stamp`, asked again after the load. -/
  after : Option FileStamp

/-- A ledger with the stamp of its last load. -/
structure Handle where
  ledger : Ledger
  loadedStamp : Option FileStamp

/-- The loop of `load`, on the list it fills. -/
def loadInto (codec : Codec) (path : String) :
    Nat → List Entry → List (List Char) → List Entry × Except LedgerError Unit
  | _, entries, [] => (entries, .ok ())
  | index, entries, line :: rest =>
    match loadLine codec path index entries line with
    | .ok entries => loadInto codec path (index + 1) entries rest
    | .error error => (entries, .error error)

namespace Handle

/-- `Ledger::load`, in place. -/
def load (h : Handle) (io : ReloadIo) : Handle × Except LedgerError Unit :=
  match io.read with
  | .error source => (h, .error (.io ("reading " ++ h.ledger.path) source))
  | .ok raw =>
    match String.fromUTF8? raw with
    | none => (h, .error (.malformed h.ledger.path "log file is not valid UTF-8"))
    | some text =>
      match loadInto h.ledger.codec h.ledger.path 0 h.ledger.entries (lines text.toList) with
      | (entries, .ok ()) =>
        ({ ledger := { h.ledger with entries }, loadedStamp := io.after }, .ok ())
      | (entries, .error error) =>
        ({ h with ledger := { h.ledger with entries } }, .error error)

/-- `Ledger::reload_if_changed`. -/
def reloadIfChanged (h : Handle) (io : ReloadIo) : Handle × Except LedgerError Bool :=
  if h.ledger.readOnlyPrefix then (h, .ok false)
  else
    match io.metadata with
    | none => (h, .ok false)
    | some stamp =>
      if stamp.isSome ∧ stamp = h.loadedStamp then (h, .ok false)
      else
        let previous := h.ledger.entries.length
        match load { h with ledger := { h.ledger with entries := [] } } io with
        | (h', .error error) => (h', .error error)
        | (h', .ok ()) => (h', .ok (h'.ledger.entries.length ≠ previous))

end Handle

/-- The loop in place finds what the loop of `open` finds. -/
theorem loadFrom_eq (codec : Codec) (path : String) (index : Nat) (entries : List Entry)
    (rest : List (List Char)) :
    loadFrom codec path index entries rest =
      match loadInto codec path index entries rest with
      | (entries, .ok ()) => .ok entries
      | (_, .error error) => .error error := by
  induction rest generalizing index entries with
  | nil => rfl
  | cons line rest ih =>
    rw [loadFrom, loadInto]
    cases hline : loadLine codec path index entries line with
    | error error => rfl
    | ok next => exact ih (index + 1) next

/-- Loading into an empty list ends as opening does. -/
theorem Handle.load_spec {h : Handle} (io : ReloadIo) (hempty : h.ledger.entries = [])
    (hview : h.ledger.readOnlyPrefix = false) {raw : ByteArray} (hread : io.read = .ok raw) :
    (∀ h', h.load io = (h', .ok ()) → h'.loadedStamp = io.after ∧
      Ledger.openWith h.ledger.path h.ledger.codec h.ledger.fsync (some raw) = .ok h'.ledger) ∧
    ∀ h' error, h.load io = (h', .error error) →
      Ledger.openWith h.ledger.path h.ledger.codec h.ledger.fsync (some raw) = .error error := by
  unfold Handle.load Ledger.openWith Ledger.load
  rw [hread]
  dsimp only
  cases htext : String.fromUTF8? raw with
  | none =>
    refine ⟨fun h' hload => ?_, fun h' error hload => ?_⟩
    · cases hload
    · cases hload
      rfl
  | some text =>
    have hfrom := loadFrom_eq h.ledger.codec h.ledger.path 0 [] (lines text.toList)
    rw [hempty]
    dsimp only [Ledger.unread]
    rw [hfrom]
    cases hinto : loadInto h.ledger.codec h.ledger.path 0 [] (lines text.toList) with
    | mk entries result =>
      refine ⟨fun h' hload => ?_, fun h' error hload => ?_⟩
      · cases result with
        | error error => cases hload
        | ok done =>
          cases hload
          rw [hview]
          exact ⟨rfl, rfl⟩
      · cases result with
        | error error => cases hload; rfl
        | ok done => cases hload

/-- A reload that succeeds leaves the handle as it was, where there is nothing to read or
nothing has changed, or it holds what opening the file it read would hold. One that fails could
not read the file, or could not have opened it. -/
theorem Handle.reloadIfChanged_spec (h : Handle) (io : ReloadIo) :
    (∀ changed, (h.reloadIfChanged io).2 = .ok changed →
      ((h.ledger.readOnlyPrefix = true ∨ io.metadata = none ∨
          ∃ stamp, io.metadata = some (some stamp) ∧ h.loadedStamp = some stamp) ∧
        (h.reloadIfChanged io).1 = h ∧ changed = false) ∨
      ∃ raw, io.read = .ok raw ∧
        Ledger.openWith h.ledger.path h.ledger.codec h.ledger.fsync (some raw) =
          .ok (h.reloadIfChanged io).1.ledger ∧
        (h.reloadIfChanged io).1.loadedStamp = io.after ∧
        (changed = true ↔
          (h.reloadIfChanged io).1.ledger.entries.length ≠ h.ledger.entries.length)) ∧
    ∀ error, (h.reloadIfChanged io).2 = .error error →
      (∃ source, io.read = .error source) ∨
      ∃ raw, io.read = .ok raw ∧
        Ledger.openWith h.ledger.path h.ledger.codec h.ledger.fsync (some raw) =
          .error error := by
  unfold Handle.reloadIfChanged
  by_cases hview : h.ledger.readOnlyPrefix = true
  · rw [if_pos hview]
    refine ⟨fun changed hok => ?_, fun error herror => ?_⟩
    · cases hok
      exact Or.inl ⟨Or.inl hview, rfl, rfl⟩
    · cases herror
  rw [if_neg hview]
  cases hmeta : io.metadata with
  | none =>
    refine ⟨fun changed hok => ?_, fun error herror => ?_⟩
    · cases hok
      exact Or.inl ⟨Or.inr (Or.inl rfl), rfl, rfl⟩
    · cases herror
  | some stamp =>
    dsimp only
    by_cases hsame : stamp.isSome ∧ stamp = h.loadedStamp
    · rw [if_pos hsame]
      refine ⟨fun changed hok => ?_, fun error herror => ?_⟩
      · cases hok
        rcases Option.isSome_iff_exists.mp hsame.1 with ⟨value, hvalue⟩
        refine Or.inl ⟨Or.inr (Or.inr ⟨value, by rw [hvalue], ?_⟩), rfl, rfl⟩
        rw [← hsame.2, hvalue]
      · cases herror
    · rw [if_neg hsame]
      cases hread : io.read with
      | error source =>
        have hload : Handle.load { h with ledger := { h.ledger with entries := [] } } io =
            ({ h with ledger := { h.ledger with entries := [] } },
              .error (.io ("reading " ++ h.ledger.path) source)) := by
          unfold Handle.load
          rw [hread]
        rw [hload]
        refine ⟨fun changed hok => ?_, fun error _ => Or.inl ⟨source, rfl⟩⟩
        cases hok
      | ok raw =>
        rcases Handle.load_spec (h := { h with ledger := { h.ledger with entries := [] } }) io
          rfl (Bool.not_eq_true _ ▸ hview) hread with ⟨hopen, hfails⟩
        cases hload : Handle.load { h with ledger := { h.ledger with entries := [] } } io with
        | mk h' result =>
          cases result with
          | error error =>
            refine ⟨fun changed hok => ?_, fun error' herror => ?_⟩
            · cases hok
            · cases herror
              exact Or.inr ⟨raw, rfl, hfails h' _ hload⟩
          | ok done =>
            refine ⟨fun changed hok => ?_, fun error' herror => ?_⟩
            · cases hok
              rcases hopen h' hload with ⟨hstamp, hopened⟩
              exact Or.inr ⟨raw, rfl, hopened, hstamp, decide_eq_true_iff⟩
            · cases herror

/-! ## A line cut short -/

/-- The stamp of a file with this text. -/
def sampleStamp (text : String) (modified : Nat) : FileStamp :=
  ⟨UInt64.ofNat text.utf8ByteSize, modified⟩

/-- A handle that has loaded one entry. -/
def sampleHandle : Handle :=
  ⟨sampleLog [sampleFirst], some (sampleStamp (String.ofList (fileText [sampleFirst])) 1)⟩

/-- It finds another file now. -/
def sampleIo (text : String) : ReloadIo :=
  ⟨some (some (sampleStamp text 2)), .ok text.toUTF8, some (sampleStamp text 2)⟩

theorem sampleHandle_changed (text : String) :
    some (sampleStamp text 2) ≠ sampleHandle.loadedStamp := by
  simp [sampleStamp, sampleHandle]

theorem sampleHandle_reload (text : String) :
    (sampleHandle.reloadIfChanged (sampleIo text)).1.ledger.entries =
        (loadInto .plain "log.jsonl" 0 [] (lines text.toList)).1 ∧
      ((sampleHandle.reloadIfChanged (sampleIo text)).2.map fun _ => ()) =
        (loadInto .plain "log.jsonl" 0 [] (lines text.toList)).2 := by
  have hchanged := sampleHandle_changed text
  unfold Handle.reloadIfChanged Handle.load
  simp only [sampleHandle, sampleIo, sampleLog] at hchanged ⊢
  simp only [fromUTF8?_toUTF8, Bool.false_eq_true, if_false, hchanged, and_false]
  cases loadInto .plain "log.jsonl" 0 [] (lines text.toList) with
  | mk entries result => cases result <;> exact ⟨rfl, rfl⟩

/-- The log has been emptied since. -/
theorem reloadIfChanged_spec_emptied :
    ∃ l, Ledger.openWith "log.jsonl" .plain false (some "".toUTF8) = .ok l ∧ l.entries = [] := by
  rcases sampleHandle_reload "" with ⟨hentries, hresult⟩
  have hload : loadInto .plain "log.jsonl" 0 [] (lines "".toList) = ([], .ok ()) := by
    simp [lines, linesFrom, loadInto]
  rw [hload] at hentries hresult
  cases hreload : (sampleHandle.reloadIfChanged (sampleIo "")).2 with
  | error error =>
    rw [hreload] at hresult
    cases hresult
  | ok changed =>
    rcases (Handle.reloadIfChanged_spec _ _).1 changed hreload with
      ⟨hkept, -, -⟩ | ⟨raw, hread, hopen, -⟩
    · rcases hkept with hview | hmeta | ⟨stamp, hmeta, hstamp⟩
      · cases hview
      · cases hmeta
      · cases hmeta
        exact absurd hstamp.symm (sampleHandle_changed "")
    · cases hread
      exact ⟨_, hopen, hentries⟩

theorem fromJson_brace : ∃ error, Value.fromJson (String.ofList ['{']) = .error error := by
  refine ⟨Parser.malformed ⟨[], 1⟩ "expected a string key", ?_⟩
  have hbrace : Parser.skipWhitespace ⟨['{'], 0⟩ = ⟨['{'], 0⟩ :=
    Parser.skipWhitespace_cons (by decide) [] 0
  have hend : Parser.skipWhitespace ⟨[], 1⟩ = ⟨[], 1⟩ := rfl
  simp [Value.fromJson, Value.fromJsonWithin, hbrace, hend, Parser.parseValue, Parser.peek,
    Parser.parseObject, Parser.expect, Parser.bump, Parser.parseFields, bind, Except.bind]

theorem loadInto_brace : ∃ error, loadInto .plain "log.jsonl" 0 [] (lines "\x7b".toList) =
    ([], .error error) := by
  rcases fromJson_brace with ⟨error, hjson⟩
  have hline : loadLine .plain "log.jsonl" 0 [] ['{'] =
      .error (lineError "log.jsonl:1" error) := by
    have htrim : trim ['{'] = ['{'] := by decide
    have hsealed : isSealedLine (String.ofList ['{']) = false := by decide
    rw [loadLine, htrim, if_neg (by simp)]
    simp only [Codec.decode, hsealed, Bool.false_eq_true, if_false, bind, Except.bind, hjson,
      Except.mapError]
    rfl
  refine ⟨lineError "log.jsonl:1" error, ?_⟩
  show loadInto .plain "log.jsonl" 0 [] [['{']] = _
  rw [loadInto, hline]

/-- A line cut short empties the list. A view is not read again. -/
theorem not_reload_atomic :
    (¬∀ (h : Handle) (io : ReloadIo) (error : LedgerError),
      (h.reloadIfChanged io).2 = .error error →
        (h.reloadIfChanged io).1.ledger.entries = h.ledger.entries) ∧
    ¬∀ (h : Handle) (io : ReloadIo) (changed : Bool) (raw : ByteArray), io.read = .ok raw →
      (h.reloadIfChanged io).2 = .ok changed →
        ∃ l, Ledger.openWith h.ledger.path h.ledger.codec h.ledger.fsync (some raw) = .ok l ∧
          (h.reloadIfChanged io).1.ledger.entries = l.entries := by
  constructor
  · intro hclaim
    rcases loadInto_brace with ⟨error, hload⟩
    rcases sampleHandle_reload "\x7b" with ⟨hentries, hresult⟩
    rw [hload] at hentries hresult
    cases hreload : (sampleHandle.reloadIfChanged (sampleIo "\x7b")).2 with
    | ok changed =>
      rw [hreload] at hresult
      cases hresult
    | error error' =>
      have hsame := hclaim _ _ error' hreload
      cases hentries.symm.trans hsame
  · intro hclaim
    have hopen : Ledger.openWith "log.jsonl" .plain false (some (fileBytes [sampleFirst])) =
        .ok (sampleLog [sampleFirst]) := by
      rw [Ledger.openWith]
      exact load_fileBytes rfl rfl (by decide)
    rcases hclaim ⟨(sampleLog [sampleFirst]).view 0, none⟩
      ⟨some none, .ok (fileBytes [sampleFirst]), none⟩ false _ rfl rfl with ⟨l, hl, hentries⟩
    cases hopen.symm.trans hl
    cases hentries

end Cairn.Ports
