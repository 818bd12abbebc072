import Cairn.Ports.Ledger.Chain
import Cairn.Verified.Checks
import Cairn.Verified.Lines

/-!
# The log on disk

`Ledger::append`, `Ledger::load` and `Ledger::open` of `src/ledger.rs`, over a
file that is a string of bytes. What the operating system does during one
append is an argument (`AppendIo`): each step may fail, a failed write leaves
any number of the line's bytes behind, and a failed sync leaves all of them.

The file of an undisturbed log is one line per entry (`fileText`). Loading it
gives the entries back as long as the decoder has room for the payloads: the
stored object is one level deeper than its payload, and the decoder's ceiling
is the one a payload was admitted with.
-/

namespace Cairn.Ports

open Cairn.Verified
open Cairn.Verified.Lines
open Cairn.Ports.Canonical

def LINE_PREFIX : String := "pwenc1:"

/-- `is_sealed_line`. -/
def isSealedLine (line : String) : Bool :=
  LINE_PREFIX.toList.isPrefixOf (trimStart line.toList)

namespace Codec

/-- Encode one line for storage. -/
def encode (codec : Codec) (index : UInt64) (line : String) (nonce : List UInt8) :
    Except LedgerError String :=
  match codec with
  | .plain => .ok line
  | .sealed cipher =>
    (cipher.sealLine index nonce line.toUTF8.toList).mapError
      (.sealed ("line " ++ toString index.toNat))

/-- Decode one stored line back to JSON text. -/
def decode (codec : Codec) (index : UInt64) (location line : String) :
    Except LedgerError String :=
  match codec with
  | .plain =>
    if isSealedLine line then .error (.sealed location (.undecryptable index)) else .ok line
  | .sealed cipher =>
    match cipher.openLine index line with
    | .error source => .error (.sealed location source)
    | .ok bytes =>
      match String.fromUTF8? (ByteArray.mk bytes.toArray) with
      | none => .error (.malformed location "decrypted line is not valid UTF-8")
      | some text => .ok text

end Codec

/-! ## Loading -/

/-- How a line that is not JSON, or not canonical, is reported. -/
def lineError (location : String) : CanonicalError → LedgerError
  | .malformed why => .malformed location ("malformed JSON: " ++ why)
  | .float path => .canonical location (.float path)
  | .integerOutOfRange path => .canonical location (.integerOutOfRange path)

/-- One turn of the loop of `load`; `index` counts lines from zero. -/
def loadLine (codec : Codec) (path : String) (index : Nat) (entries : List Entry)
    (line : List Char) : Except LedgerError (List Entry) :=
  if trim line = [] then .ok entries
  else do
    let location := path ++ ":" ++ toString (index + 1)
    let text ← codec.decode (UInt64.ofNat entries.length) location (String.ofList (trim line))
    let value ← (Value.fromJson text).mapError (lineError location)
    let entry ← Entry.parse value location
    .ok (entries ++ [entry])

/-- The loop of `load`. -/
def loadFrom (codec : Codec) (path : String) :
    Nat → List Entry → List (List Char) → Except LedgerError (List Entry)
  | _, entries, [] => .ok entries
  | index, entries, line :: rest => do
      let entries ← loadLine codec path index entries line
      loadFrom codec path (index + 1) entries rest

/-- `Ledger::load` of a file with these bytes. -/
def Ledger.load (l : Ledger) (raw : ByteArray) : Except LedgerError Ledger :=
  match String.fromUTF8? raw with
  | none => .error (.malformed l.path "log file is not valid UTF-8")
  | some text => do
      let entries ← loadFrom l.codec l.path 0 l.entries (lines text.toList)
      .ok { l with entries }

/-- The handle `open_with` starts from. -/
def Ledger.unread (path : String) (codec : Codec) (fsync : Bool) : Ledger :=
  { path, entries := [], readOnlyPrefix := false, codec, fsync }

/-- `Ledger::open_with`: a missing file is an empty log. -/
def Ledger.openWith (path : String) (codec : Codec) (fsync : Bool) (file : Option ByteArray) :
    Except LedgerError Ledger :=
  match file with
  | none => .ok (unread path codec fsync)
  | some raw => (unread path codec fsync).load raw

/-- `Ledger::open`: plaintext. -/
def Ledger.open (path : String) (fsync : Bool) (file : Option ByteArray) :
    Except LedgerError Ledger :=
  openWith path .plain fsync file

/-! ## Appending -/

/-- What the operating system answers during one append: the error of each
step that fails. -/
structure AppendIo where
  /-- What the random source fills a nonce with. -/
  nonce : List UInt8
  /-- `create_dir_all` on the parent directory. -/
  createDir : Option (String × String)
  openFile : Option String
  /-- `write_all`, with the number of bytes it had written. -/
  write : Option (Nat × String)
  sync : Option String

/-- Every step succeeds. -/
def AppendIo.fine : AppendIo :=
  { nonce := [], createDir := none, openFile := none, write := none, sync := none }

/-- One call of `append`. -/
structure AppendCall where
  kind : String
  payload : Value
  ts : String
  io : AppendIo

/-- A handle and the file behind it. -/
structure Store where
  ledger : Ledger
  file : Option ByteArray

/-- The bytes on disk. -/
def Store.bytes (s : Store) : ByteArray := s.file.getD .empty

section Append

variable [Sha256]

/-- The entry an append builds, its hash filled in last. -/
def Ledger.nextEntry (l : Ledger) (kind : String) (payload : Value) (ts : String) : Entry :=
  let entry : Entry :=
    { seq := UInt64.ofNat l.entries.length, prev := l.head, kind, payload, ts, hash := "" }
  { entry with hash := entry.recomputeHash }

/-- `Ledger::append`. -/
def Store.append (s : Store) (call : AppendCall) : Store × Except LedgerError Entry :=
  let l := s.ledger
  if l.readOnlyPrefix then (s, .error (.readOnlyPrefix l.entries.length))
  else if UInt64.size ≤ l.entries.length then
    (s, .error (.malformed l.path "log is too long to number"))
  else
    let entry := l.nextEntry call.kind call.payload call.ts
    match l.codec.encode entry.seq entry.toJsonLine call.io.nonce with
    | .error e => (s, .error e)
    | .ok encoded =>
      let line := (encoded ++ "\n").toUTF8
      match call.io.createDir with
      | some (parent, source) => (s, .error (.io ("creating " ++ parent) source))
      | none =>
        match call.io.openFile with
        | some source => (s, .error (.io ("opening " ++ l.path ++ " for append") source))
        | none =>
          match call.io.write with
          | some (written, source) =>
            ({ s with file := some (s.bytes ++ line.extract 0 written) },
              .error (.io ("appending to " ++ l.path) source))
          | none =>
            match if l.fsync then call.io.sync else none with
            | some source =>
              ({ s with file := some (s.bytes ++ line) },
                .error (.io ("syncing " ++ l.path) source))
            | none =>
              ({ ledger := { l with entries := l.entries ++ [entry] },
                 file := some (s.bytes ++ line) }, .ok entry)

/-- Appends one after the other, whatever each of them returns. -/
def Store.run (s : Store) : List AppendCall → Store
  | [] => s
  | call :: calls => (s.append call).1.run calls

/-- Appends one after the other, up to the first that fails. -/
def Store.appendAll (s : Store) : List AppendCall → Except LedgerError Store
  | [] => .ok s
  | call :: calls =>
    match s.append call with
    | (s', .ok _) => s'.appendAll calls
    | (_, .error e) => .error e

end Append

/-! ## The file of an undisturbed log -/

theorem fromUTF8?_toUTF8 (text : String) : String.fromUTF8? text.toUTF8 = some text := by
  have hvalid : text.toUTF8.IsValidUTF8 := text.isValidUTF8
  rw [String.fromUTF8?, dif_pos hvalid]
  rfl

/-- One line per entry. -/
def fileText (entries : List Entry) : List Char :=
  entries.flatMap fun e => e.toJsonLine.toList ++ ['\n']

def fileBytes (entries : List Entry) : ByteArray := (String.ofList (fileText entries)).toUTF8

theorem fileBytes_concat (entries : List Entry) (e : Entry) :
    fileBytes (entries ++ [e]) = fileBytes entries ++ (e.toJsonLine ++ "\n").toUTF8 := by
  have htext : String.ofList (fileText (entries ++ [e])) =
      String.ofList (fileText entries) ++ (e.toJsonLine ++ "\n") := by
    apply String.toList_inj.mp
    simp [fileText]
  rw [fileBytes, htext]
  rfl

theorem newline_not_mem_toJsonLine (e : Entry) : '\n' ∉ e.toJsonLine.toList := by
  intro h
  rw [Entry.toJsonLine, Value.toList_canonicalString] at h
  exact absurd (Value.printable_write _ _ h) (by decide)

theorem trim_toJsonLine (e : Entry) : trim e.toJsonLine.toList = e.toJsonLine.toList := by
  obtain ⟨hfirst, hlast⟩ := e.braceDelimited_toJsonLine
  exact trim_of_ends hfirst hlast (by decide) (by decide)

theorem isSealedLine_toJsonLine (e : Entry) : isSealedLine e.toJsonLine = false := by
  have hfirst := e.braceDelimited_toJsonLine.1
  rw [isSealedLine, trimStart, dropWhile_of_head hfirst (by decide)]
  cases hline : e.toJsonLine.toList with
  | nil => rfl
  | cons c cs =>
    rw [hline] at hfirst
    obtain rfl : c = '{' := by simpa using hfirst
    rfl

/-- A stored line loads to its entry when the decoder has room for it. -/
theorem loadLine_toJsonLine (path : String) (index : Nat) (entries : List Entry) {e : Entry}
    (he : e.payload.depth < MAX_DEPTH) :
    loadLine .plain path index entries e.toJsonLine.toList = .ok (entries ++ [e]) := by
  have hne : e.toJsonLine.toList ≠ [] := by
    intro h
    have hfirst := e.braceDelimited_toJsonLine.1
    rw [h] at hfirst
    simp at hfirst
  have hjson : Value.fromJson e.toJsonLine = .ok e.bodyWithHash :=
    Value.fromJson_canonicalString _ (e.depth_bodyWithHash_le.mpr he)
  rw [loadLine, trim_toJsonLine, if_neg hne, String.ofList_toList]
  simp only [Codec.decode, isSealedLine_toJsonLine, Bool.false_eq_true, if_false, bind,
    Except.bind, hjson, Except.mapError, Entry.parse_bodyWithHash]

theorem loadFrom_fileText (path : String) (index : Nat) (acc entries : List Entry)
    (hdepth : ∀ e ∈ entries, e.payload.depth < MAX_DEPTH) :
    loadFrom .plain path index acc (lines (fileText entries)) = .ok (acc ++ entries) := by
  induction entries generalizing index acc with
  | nil => simp [fileText, lines, linesFrom, loadFrom]
  | cons e entries ih =>
    have hlast : e.toJsonLine.toList.getLast? ≠ some '\r' := by
      rw [e.braceDelimited_toJsonLine.2]
      decide
    have hlines : lines (fileText (e :: entries)) =
        e.toJsonLine.toList :: lines (fileText entries) := by
      rw [← lines_line _ (newline_not_mem_toJsonLine e) hlast]
      simp [fileText]
    rw [hlines, loadFrom, loadLine_toJsonLine _ _ _ (hdepth e (by simp))]
    simp only [bind, Except.bind]
    rw [ih _ _ fun f hf => hdepth f (by simp [hf]), List.append_assoc]
    rfl

/-- The bytes of an undisturbed log load to its entries. -/
theorem load_fileBytes {l : Ledger} {entries : List Entry} (hcodec : l.codec = .plain)
    (hempty : l.entries = []) (hdepth : ∀ e ∈ entries, e.payload.depth < MAX_DEPTH) :
    l.load (fileBytes entries) = .ok { l with entries } := by
  have htext : (String.ofList (fileText entries)).toList = fileText entries :=
    String.toList_ofList
  rw [Ledger.load, fileBytes, fromUTF8?_toUTF8]
  simp only [htext, hcodec, hempty, loadFrom_fileText l.path 0 [] entries hdepth, bind,
    Except.bind, List.nil_append]

/-! ## What was loaded is below the ceiling -/

theorem depth_get {v w : Value} {key : String} (h : v.get key = some w) :
    w.depth < v.depth := by
  rw [Value.get] at h
  split at h
  · next map hview =>
      have hv : v = .objectOf map := by
        rw [← Value.ofView_view v, hview]
        rfl
      rw [hv]
      exact Value.depth_objectOf_le.mp le_rfl _ (BTreeMap.get?_eq_some_iff.mp h)
  · cases h

theorem get_payload_of_parse {v : Value} {location : String} {e : Entry}
    (h : Entry.parse v location = .ok e) : v.get "payload" = some e.payload := by
  rw [Entry.parse] at h
  obtain ⟨seq, -, h⟩ := bind_eq_ok.mp h
  obtain ⟨prev, -, h⟩ := bind_eq_ok.mp h
  obtain ⟨kind, -, h⟩ := bind_eq_ok.mp h
  obtain ⟨payload, hpayload, h⟩ := bind_eq_ok.mp h
  obtain ⟨ts, -, h⟩ := bind_eq_ok.mp h
  obtain ⟨hash, -, h⟩ := bind_eq_ok.mp h
  cases h
  cases hget : v.get "payload" with
  | none =>
    rw [hget] at hpayload
    cases hpayload
  | some w =>
    rw [hget] at hpayload
    cases hpayload
    rfl

variable {path : String}

theorem depth_of_loadLine {codec : Codec} {index : Nat}
    {entries entries' : List Entry} {line : List Char}
    (h : loadLine codec path index entries line = .ok entries')
    (hdepth : ∀ e ∈ entries, e.payload.depth < MAX_DEPTH) :
    ∀ e ∈ entries', e.payload.depth < MAX_DEPTH := by
  rw [loadLine] at h
  split_ifs at h
  · cases h
    exact hdepth
  · obtain ⟨text, -, h⟩ := bind_eq_ok.mp h
    obtain ⟨value, hvalue, h⟩ := bind_eq_ok.mp h
    obtain ⟨entry, hentry, h⟩ := bind_eq_ok.mp h
    cases h
    intro e he
    rcases List.mem_append.mp he with he | he
    · exact hdepth e he
    · rw [List.mem_singleton.mp he]
      have hceiling := Value.depth_le_of_fromJson (mapError_eq_ok.mp hvalue)
      exact (depth_get (get_payload_of_parse hentry)).trans_le hceiling

theorem depth_of_loadFrom {codec : Codec} {index : Nat}
    {entries entries' : List Entry} {rest : List (List Char)}
    (h : loadFrom codec path index entries rest = .ok entries')
    (hdepth : ∀ e ∈ entries, e.payload.depth < MAX_DEPTH) :
    ∀ e ∈ entries', e.payload.depth < MAX_DEPTH := by
  induction rest generalizing index entries with
  | nil =>
    cases h
    exact hdepth
  | cons line rest ih =>
    rw [loadFrom] at h
    obtain ⟨entries'', hline, h⟩ := bind_eq_ok.mp h
    exact ih h (depth_of_loadLine hline hdepth)

theorem depth_of_open {fsync : Bool} {file : Option ByteArray} {l : Ledger}
    (h : Ledger.open path fsync file = .ok l) : ∀ e ∈ l.entries, e.payload.depth < MAX_DEPTH := by
  cases file with
  | none =>
    cases h
    simp [Ledger.unread]
  | some raw =>
    rw [Ledger.open, Ledger.openWith, Ledger.load] at h
    split at h
    · cases h
    · obtain ⟨entries, hload, h⟩ := bind_eq_ok.mp h
      cases h
      exact depth_of_loadFrom hload (by simp [Ledger.unread])

/-! ## One append -/

section Runs

variable [Sha256]

/-- The bytes an append tries to write to a plaintext log. -/
def Ledger.nextLine (l : Ledger) (call : AppendCall) : ByteArray :=
  ((l.nextEntry call.kind call.payload call.ts).toJsonLine ++ "\n").toUTF8

/-- The handle and the file after an append that succeeds. -/
def Store.extended (s : Store) (call : AppendCall) : Store :=
  { ledger := { s.ledger with
      entries := s.ledger.entries ++ [s.ledger.nextEntry call.kind call.payload call.ts] },
    file := some (s.bytes ++ s.ledger.nextLine call) }

/-- The write is reached: directory and file are there. -/
def AppendIo.Reaches (io : AppendIo) : Prop := io.createDir = none ∧ io.openFile = none

/-- What an append to a plaintext log can do: refuse and touch nothing, leave
a part of its line behind, leave the whole line behind unsynced, or succeed. -/
theorem Store.append_cases (s : Store) (call : AppendCall) (hcodec : s.ledger.codec = .plain) :
    (∃ e, s.append call = (s, .error e)) ∨
    (∃ written source e, call.io.Reaches ∧ call.io.write = some (written, source) ∧
      s.append call =
        ({ s with file := some (s.bytes ++ (s.ledger.nextLine call).extract 0 written) },
          .error e)) ∨
    (∃ source e, call.io.Reaches ∧ call.io.write = none ∧ s.ledger.fsync = true ∧
      call.io.sync = some source ∧
      s.append call = ({ s with file := some (s.bytes ++ s.ledger.nextLine call) }, .error e)) ∨
    (s.ledger.entries.length < UInt64.size ∧
      s.append call =
        (s.extended call, .ok (s.ledger.nextEntry call.kind call.payload call.ts))) := by
  unfold Store.append
  simp only [hcodec, Codec.encode]
  by_cases hview : s.ledger.readOnlyPrefix = true
  · rw [if_pos hview]
    exact .inl ⟨_, rfl⟩
  rw [if_neg hview]
  by_cases hlong : UInt64.size ≤ s.ledger.entries.length
  · rw [if_pos hlong]
    exact .inl ⟨_, rfl⟩
  rw [if_neg hlong]
  cases hdir : call.io.createDir with
  | some failure => exact .inl ⟨_, rfl⟩
  | none =>
    cases hopen : call.io.openFile with
    | some source => exact .inl ⟨_, rfl⟩
    | none =>
      cases hwrite : call.io.write with
      | some torn => exact .inr (.inl ⟨torn.1, torn.2, _, ⟨hdir, hopen⟩, rfl, rfl⟩)
      | none =>
        cases hsync : (if s.ledger.fsync = true then call.io.sync else none) with
        | some source =>
          refine .inr (.inr (.inl ⟨source, _, ⟨hdir, hopen⟩, rfl, ?_, ?_, rfl⟩))
          · by_contra hfsync
            rw [if_neg hfsync] at hsync
            cases hsync
          · split_ifs at hsync
            exact hsync
        | none =>
          refine .inr (.inr (.inr ⟨Nat.lt_of_not_le hlong, ?_⟩))
          simp only [Store.extended, Ledger.nextLine, hcodec]

/-- The entry an append builds continues the log. -/
theorem Ledger.nextEntry_links (l : Ledger) (kind : String) (payload : Value) (ts : String)
    (hlen : l.entries.length < UInt64.size) :
    Links l.entries.length (headOf l.entries) (l.nextEntry kind payload ts) where
  seq := UInt64.toNat_ofNat_of_lt' hlen
  prev := rfl
  hash := rfl

/-- The file holds the entries in memory, and they form a chain. -/
structure Store.Consistent (s : Store) : Prop where
  codec : s.ledger.codec = .plain
  bytes : s.bytes = fileBytes s.ledger.entries
  linked : Linked s.ledger.entries

variable {s : Store}

theorem Store.Consistent.extended (h : s.Consistent) (call : AppendCall)
    (hlen : s.ledger.entries.length < UInt64.size) : (s.extended call).Consistent where
  codec := h.codec
  bytes := by
    show s.bytes ++ s.ledger.nextLine call = fileBytes (s.ledger.entries ++ [_])
    rw [fileBytes_concat, h.bytes]
    rfl
  linked := linked_concat.mpr ⟨h.linked, s.ledger.nextEntry_links _ _ _ hlen⟩

/-- A fresh log: nothing in memory and no byte in the file. -/
structure Store.Fresh (s : Store) : Prop where
  ledger : s.ledger = .unread s.ledger.path .plain s.ledger.fsync
  bytes : s.bytes = .empty

omit [Sha256] in
theorem Store.Fresh.entries (h : s.Fresh) : s.ledger.entries = [] := by
  rw [h.ledger]
  rfl

theorem Store.Fresh.consistent (h : s.Fresh) : s.Consistent where
  codec := by
    rw [h.ledger]
    rfl
  bytes := by
    rw [h.bytes, h.entries]
    rfl
  linked := by
    rw [h.entries]
    trivial

/-- A consistent log whose payloads the decoder has room for opens to
itself. -/
theorem Store.Consistent.open (h : s.Consistent)
    (hdepth : ∀ e ∈ s.ledger.entries, e.payload.depth < MAX_DEPTH) (fsync : Bool) :
    ∃ l, Ledger.open s.ledger.path fsync s.file = .ok l ∧ l.entries = s.ledger.entries ∧
      l.verifyChain = [] := by
  have hchain : ∀ l : Ledger, l.entries = s.ledger.entries → l.verifyChain = [] := by
    intro l hl
    rw [verifyChain_eq_nil_iff, hl]
    exact h.linked
  have hbytes := h.bytes
  rw [Store.bytes] at hbytes
  cases hfile : s.file with
  | none =>
    have hempty : s.ledger.entries = [] := by
      rw [hfile, Option.getD_none] at hbytes
      have hload := load_fileBytes (l := .unread "" .plain false) rfl rfl hdepth
      rw [← hbytes] at hload
      have hnil := load_fileBytes (l := .unread "" .plain false) rfl rfl (List.forall_mem_nil _)
      have hsame : Except.ok _ = Except.ok _ := hload.symm.trans hnil
      exact congrArg Ledger.entries (Except.ok.inj hsame)
    exact ⟨_, rfl, hempty.symm, hchain _ hempty.symm⟩
  | some raw =>
    rw [hfile, Option.getD_some] at hbytes
    refine ⟨{ Ledger.unread s.ledger.path .plain fsync with entries := s.ledger.entries },
      ?_, rfl, hchain _ rfl⟩
    rw [hbytes]
    exact load_fileBytes rfl rfl hdepth

/-! ## Writing and reading back -/

theorem Store.appendAll_consistent {s s' : Store} {calls : List AppendCall} (hs : s.Consistent)
    (hrun : s.appendAll calls = .ok s') :
    s'.Consistent ∧ s'.ledger.path = s.ledger.path ∧
      s'.ledger.entries.map Entry.payload =
        s.ledger.entries.map Entry.payload ++ calls.map AppendCall.payload := by
  induction calls generalizing s with
  | nil =>
    cases hrun
    exact ⟨hs, rfl, by simp⟩
  | cons call calls ih =>
    rw [Store.appendAll] at hrun
    rcases s.append_cases call hs.codec with ⟨e, h⟩ | ⟨_, _, e, -, -, h⟩ |
      ⟨_, e, -, -, -, -, h⟩ | ⟨hlen, h⟩
    · rw [h] at hrun
      cases hrun
    · rw [h] at hrun
      cases hrun
    · rw [h] at hrun
      cases hrun
    · rw [h] at hrun
      obtain ⟨hs', hpath, hpayloads⟩ := ih (hs.extended call hlen) hrun
      refine ⟨hs', hpath, ?_⟩
      rw [hpayloads]
      simp [Store.extended, Ledger.nextEntry]

/-- **Write and reload.** A log written by successful appends opens to the
entries it was written from, with an intact chain, exactly when every payload
stays one level below the decoder's ceiling: the stored object nests it once
more. -/
theorem Store.roundTrip_iff (s s' : Store) (calls : List AppendCall) (fsync : Bool)
    (hs : s.Fresh) (hrun : s.appendAll calls = .ok s') :
    (∃ l, Ledger.open s.ledger.path fsync s'.file = .ok l ∧ l.entries = s'.ledger.entries ∧
      l.verifyChain = []) ↔
    ∀ call ∈ calls, call.payload.depth ≤ 127 := by
  obtain ⟨hs', hpath, hpayloads⟩ := Store.appendAll_consistent hs.consistent hrun
  rw [hs.entries, List.map_nil, List.nil_append] at hpayloads
  rw [← hpath]
  constructor
  · rintro ⟨l, hopen, hentries, -⟩ call hcall
    have hmem : call.payload ∈ s'.ledger.entries.map Entry.payload := by
      rw [hpayloads]
      exact List.mem_map_of_mem hcall
    obtain ⟨e, he, hpayload⟩ := List.mem_map.mp hmem
    have hdepth := depth_of_open hopen e (by rw [hentries]; exact he)
    rw [hpayload] at hdepth
    exact Nat.le_of_lt_succ hdepth
  · intro hdepth
    refine hs'.open ?_ fsync
    intro e he
    have hmem : e.payload ∈ calls.map AppendCall.payload := by
      rw [← hpayloads]
      exact List.mem_map_of_mem he
    obtain ⟨call, hcall, hpayload⟩ := List.mem_map.mp hmem
    rw [← hpayload]
    exact Nat.lt_succ_of_le (hdepth call hcall)

end Runs

/-- A handle on a log that does not exist yet. -/
def newStore : Store := { ledger := .unread "log.jsonl" .plain false, file := none }

theorem newStore_fresh : newStore.Fresh := ⟨rfl, rfl⟩

def nullCall (io : AppendIo) : AppendCall :=
  { kind := "objective", payload := .null, ts := "2026-01-01T00:00:00Z", io }

theorem appendAll_fine [Sha256] (call : AppendCall) (hio : call.io = .fine) :
    newStore.appendAll [call] = .ok (newStore.extended call) := by
  obtain ⟨kind, payload, ts, io⟩ := call
  obtain rfl : io = .fine := hio
  rfl

theorem roundTrip_iff_sample : letI := sampleSha256
    ∃ l, Ledger.open newStore.ledger.path false (newStore.extended (nullCall .fine)).file = .ok l ∧
      l.entries = (newStore.extended (nullCall .fine)).ledger.entries ∧ l.verifyChain = [] := by
  let _ := sampleSha256
  have hiff := Store.roundTrip_iff newStore (newStore.extended (nullCall .fine))
    [nullCall .fine] false newStore_fresh (appendAll_fine _ rfl)
  refine hiff.mpr ?_
  intro call hcall
  rw [List.mem_singleton.mp hcall]
  decide

/-- Arrays nested `n` deep. -/
def nested : Nat → Value
  | 0 => .null
  | n + 1 => .array [nested n]

theorem depth_nested_le {n m : Nat} : (nested n).depth ≤ m ↔ n ≤ m := by
  induction n generalizing m with
  | zero => simp [nested]
  | succ n ih =>
    rw [nested, Value.depth_array_le]
    cases m with
    | zero => simp
    | succ m =>
      simp only [List.mem_singleton, forall_eq, Nat.add_le_add_iff_right]
      exact ih

/-- A payload the decoder returns, in a log the decoder refuses. -/
theorem roundTrip_ceiling :
    ¬∀ (_ : Sha256) (s s' : Store) (calls : List AppendCall) (fsync : Bool), s.Fresh →
      (∀ call ∈ calls, ∃ text, Value.fromJson text = .ok call.payload) →
      s.appendAll calls = .ok s' →
      ∃ l, Ledger.open s.ledger.path fsync s'.file = .ok l ∧
        l.entries = s'.ledger.entries ∧ l.verifyChain = [] := by
  intro hclaim
  let _ := sampleSha256
  let call : AppendCall := { nullCall .fine with payload := nested 128 }
  have hdomain : ∀ c ∈ [call], ∃ text, Value.fromJson text = .ok c.payload := by
    intro c hc
    rw [List.mem_singleton.mp hc]
    exact ⟨_, Value.fromJson_canonicalString (nested 128) (depth_nested_le.mpr le_rfl)⟩
  obtain ⟨l, hopen, hentries, -⟩ := hclaim _ newStore (newStore.extended call) [call] false
    newStore_fresh hdomain (appendAll_fine call rfl)
  have hmem : newStore.ledger.nextEntry call.kind call.payload call.ts ∈ l.entries := by
    rw [hentries]
    exact List.mem_append_right _ (List.mem_singleton.mpr rfl)
  have hdepth : (nested 128).depth ≤ 127 := Nat.le_of_lt_succ (depth_of_open hopen _ hmem)
  exact absurd (depth_nested_le.mp hdepth) (by decide)

section Failures

variable [Sha256]

/-! ## Failures that leave nothing behind -/

/-- If the write is reached, it fails before its first byte or it and the
sync after it succeed. -/
def AppendCall.LeavesNothing (call : AppendCall) (fsync : Bool) : Prop :=
  call.io.Reaches →
    match call.io.write with
    | some (written, _) => written = 0
    | none => fsync = true → call.io.sync = none

/-- The state an append may leave: consistent, with room for its payloads. -/
structure Store.Sound (s : Store) : Prop extends s.Consistent where
  depth : ∀ e ∈ s.ledger.entries, e.payload.depth < MAX_DEPTH

variable {s : Store}

/-- One append that leaves nothing behind when it fails keeps the file and
the memory together. -/
theorem Store.Sound.append (h : s.Sound) {call : AppendCall}
    (hclean : call.LeavesNothing s.ledger.fsync) (hdepth : call.payload.depth < MAX_DEPTH) :
    (s.append call).1.Sound ∧ (s.append call).1.ledger.path = s.ledger.path ∧
      (s.append call).1.ledger.fsync = s.ledger.fsync := by
  rcases s.append_cases call h.codec with ⟨e, hcall⟩ | ⟨written, source, e, hreach, hwrite, hcall⟩ |
    ⟨source, e, hreach, hwrite, hfsync, hsync, hcall⟩ | ⟨hlen, hcall⟩
  · rw [hcall]
    exact ⟨h, rfl, rfl⟩
  · have hzero := hclean hreach
    rw [hwrite] at hzero
    obtain rfl : written = 0 := hzero
    have hbytes : s.bytes ++ (s.ledger.nextLine call).extract 0 0 = s.bytes := by
      rw [ByteArray.extract_same, ByteArray.append_empty]
    rw [hcall]
    refine ⟨{ codec := h.codec, bytes := ?_, linked := h.linked, depth := h.depth }, rfl, rfl⟩
    exact hbytes.trans h.bytes
  · have hnone := hclean hreach
    rw [hwrite] at hnone
    rw [hnone hfsync] at hsync
    cases hsync
  · rw [hcall]
    refine ⟨{ h.toConsistent.extended call hlen with depth := ?_ }, rfl, rfl⟩
    intro e he
    rcases List.mem_append.mp he with he | he
    · exact h.depth e he
    · rw [List.mem_singleton.mp he]
      exact hdepth

theorem Store.Sound.run (h : s.Sound) {calls : List AppendCall}
    (hcalls : ∀ call ∈ calls,
      call.LeavesNothing s.ledger.fsync ∧ call.payload.depth < MAX_DEPTH) :
    (s.run calls).Sound ∧ (s.run calls).ledger.path = s.ledger.path := by
  induction calls generalizing s with
  | nil => exact ⟨h, rfl⟩
  | cons call calls ih =>
    obtain ⟨hclean, hdepth⟩ := hcalls call (by simp)
    obtain ⟨hstep, hpath, hfsync⟩ := h.append hclean hdepth
    have hrest := ih hstep (by
      rw [hfsync]
      exact fun c hc => hcalls c (List.mem_cons_of_mem _ hc))
    exact ⟨hrest.1, hrest.2.trans hpath⟩

theorem Store.Fresh.sound (h : s.Fresh) : s.Sound :=
  { h.consistent with depth := by rw [h.entries]; simp }

/-- **Appends whose failures leave no bytes.** In every run of appends in
which a failed append wrote nothing and no payload reaches the ceiling, after
every step the file opens to the entries in memory and the chain is intact. -/
theorem Store.run_opens (s : Store) (calls : List AppendCall) (fsync : Bool) (hs : s.Fresh)
    (hcalls : ∀ call ∈ calls, call.LeavesNothing s.ledger.fsync ∧ call.payload.depth ≤ 127) :
    ∀ n, ∃ l, Ledger.open s.ledger.path fsync (s.run (calls.take n)).file = .ok l ∧
      l.entries = (s.run (calls.take n)).ledger.entries ∧ l.verifyChain = [] := by
  intro n
  have hmeets : ∀ call ∈ calls.take n,
      call.LeavesNothing s.ledger.fsync ∧ call.payload.depth < MAX_DEPTH := by
    intro call hcall
    obtain ⟨hclean, hdepth⟩ := hcalls call (List.mem_of_mem_take hcall)
    exact ⟨hclean, Nat.lt_succ_of_le hdepth⟩
  have hrun := hs.sound.run hmeets
  rw [← hrun.2]
  exact hrun.1.toConsistent.open hrun.1.depth fsync

end Failures

theorem run_opens_sample : letI := sampleSha256
    ∃ l, Ledger.open newStore.ledger.path false (newStore.run [nullCall .fine]).file = .ok l ∧
      l.entries = (newStore.run [nullCall .fine]).ledger.entries ∧ l.verifyChain = [] := by
  let _ := sampleSha256
  refine Store.run_opens newStore [nullCall .fine] false newStore_fresh ?_ 1
  intro call hcall
  rw [List.mem_singleton.mp hcall]
  exact ⟨fun _ _ => rfl, by decide⟩

/-! ## A torn line -/

/-- The write stops after the first byte of the line. -/
def tornIo : AppendIo := { AppendIo.fine with write := some (1, "No space left on device") }

theorem fromJson_brace_brace (rest : List Char) :
    ∃ e, Value.fromJson (String.ofList ('{' :: '{' :: rest)) = .error e := by
  refine ⟨Parser.malformed ⟨'{' :: rest, 1⟩ "expected a string key", ?_⟩
  have hskip : ∀ (cs : List Char) (pos : Nat),
      Parser.skipWhitespace ⟨'{' :: cs, pos⟩ = ⟨'{' :: cs, pos⟩ :=
    fun cs pos => Parser.skipWhitespace_cons (by decide) cs pos
  simp [Value.fromJson, Value.fromJsonWithin, String.toList_ofList, hskip, Parser.parseValue,
    Parser.peek, Parser.parseObject, Parser.expect, Parser.bump, Parser.parseFields, bind,
    Except.bind]

/-- The first byte of a stored line is its brace. -/
theorem extract_nextLine [Sha256] (l : Ledger) (call : AppendCall) :
    (l.nextLine call).extract 0 1 = "\x7b".toUTF8 := by
  have hfirst := (l.nextEntry call.kind call.payload call.ts).braceDelimited_toJsonLine.1
  cases hline : (l.nextEntry call.kind call.payload call.ts).toJsonLine.toList with
  | nil =>
    rw [hline] at hfirst
    cases hfirst
  | cons c cs =>
    rw [hline] at hfirst
    obtain rfl : c = '{' := by simpa using hfirst
    have htext : (l.nextEntry call.kind call.payload call.ts).toJsonLine ++ "\n" =
        "\x7b" ++ (String.ofList cs ++ "\n") := by
      apply String.toList_inj.mp
      rw [String.toList_append, hline]
      simp
    rw [Ledger.nextLine, htext]
    exact ByteArray.extract_append_eq_left rfl

/-- A stored line behind a stray brace does not load. -/
theorem loadLine_brace_toJsonLine (path : String) (index : Nat) (entries : List Entry)
    (e : Entry) : ∃ err, loadLine .plain path index entries ('{' :: e.toJsonLine.toList) =
      .error err := by
  obtain ⟨hfirst, hlast⟩ := e.braceDelimited_toJsonLine
  cases hline : e.toJsonLine.toList with
  | nil =>
    rw [hline] at hfirst
    cases hfirst
  | cons c cs =>
    rw [hline] at hfirst hlast
    obtain rfl : c = '{' := by simpa using hfirst
    have htrim : trim ('{' :: '{' :: cs) = '{' :: '{' :: cs := by
      refine trim_of_ends (c := '{') (d := '}') rfl ?_ (by decide) (by decide)
      rw [List.getLast?_cons_cons]
      exact hlast
    have hsealed : isSealedLine (String.ofList ('{' :: '{' :: cs)) = false := by
      rw [isSealedLine, String.toList_ofList, trimStart, dropWhile_of_head rfl (by decide)]
      rfl
    obtain ⟨err, herr⟩ := fromJson_brace_brace cs
    rw [loadLine, htrim, if_neg (by simp)]
    simp only [Codec.decode, hsealed, Bool.false_eq_true, if_false, bind, Except.bind, herr,
      Except.mapError]
    exact ⟨_, rfl⟩

/-- The entry both appends of the torn run try to write. -/
def tornEntry [Sha256] : Entry :=
  newStore.ledger.nextEntry "objective" .null "2026-01-01T00:00:00Z"

theorem torn_append [Sha256] :
    ((newStore.run [nullCall tornIo]).append (nullCall .fine)).2 = .ok tornEntry := rfl

theorem torn_file [Sha256] : ((newStore.run [nullCall tornIo]).append (nullCall .fine)).1.file =
    some (String.ofList ('{' :: tornEntry.toJsonLine.toList ++ ['\n'])).toUTF8 := by
  show some (ByteArray.empty ++ (newStore.ledger.nextLine (nullCall tornIo)).extract 0 1 ++
    newStore.ledger.nextLine (nullCall .fine)) = _
  have htext : String.ofList ('{' :: tornEntry.toJsonLine.toList ++ ['\n']) =
      "\x7b" ++ (tornEntry.toJsonLine ++ "\n") := by
    apply String.toList_inj.mp
    simp
  rw [extract_nextLine, ByteArray.empty_append, htext]
  rfl

theorem torn_open [Sha256] (fsync : Bool) (l : Ledger) :
    Ledger.open newStore.ledger.path fsync
      ((newStore.run [nullCall tornIo]).append (nullCall .fine)).1.file ≠ .ok l := by
  intro hopen
  have hlines : lines ('{' :: tornEntry.toJsonLine.toList ++ ['\n']) =
      ['{' :: tornEntry.toJsonLine.toList] := by
    refine lines_line [] ?_ ?_
    · have hline := newline_not_mem_toJsonLine tornEntry
      simp [hline]
    · rw [List.getLast?_cons, tornEntry.braceDelimited_toJsonLine.2]
      decide
  obtain ⟨err, herr⟩ := loadLine_brace_toJsonLine newStore.ledger.path 0 [] tornEntry
  rw [torn_file, Ledger.open, Ledger.openWith, Ledger.load, fromUTF8?_toUTF8] at hopen
  simp only [String.toList_ofList, hlines, Ledger.unread, loadFrom, bind, Except.bind,
    herr] at hopen
  cases hopen

/-- One torn byte, then an append that succeeds: the file no longer loads. -/
theorem append_torn :
    ¬∀ (_ : Sha256) (s : Store) (calls : List AppendCall) (last : AppendCall) (e : Entry)
      (fsync : Bool), s.Fresh → ((s.run calls).append last).2 = .ok e →
      ∃ l, Ledger.open s.ledger.path fsync ((s.run calls).append last).1.file = .ok l ∧
        l.entries = ((s.run calls).append last).1.ledger.entries ∧ l.verifyChain = [] := by
  intro hclaim
  let _ := sampleSha256
  obtain ⟨l, hopen, -, -⟩ := hclaim sampleSha256 newStore [nullCall tornIo] (nullCall .fine)
    tornEntry false newStore_fresh torn_append
  exact torn_open false l hopen

end Cairn.Ports
