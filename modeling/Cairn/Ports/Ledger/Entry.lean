import Cairn.Ports.Canonical.Merkle

/-!
# Entries of the log

`Entry` of `src/ledger.rs`: the body that is hashed, the stored object, and
the decoder of a stored object. The hash covers everything but itself, so
equal bodies fix five of the six fields (`Entry.body_inj`), and the decoder
reads back exactly what was stored (`Entry.parse_bodyWithHash`).

Errors of the log are kept with their locations and texts. What the operating
system reports is outside the program and is a text here.
-/

namespace Cairn.Ports

open Cairn.Verified
open Cairn.Ports.Canonical

/-- Why a sealed line could not be read or written. -/
inductive AtRestError where
  | notEncrypted (line : UInt64)
  | undecryptable (line : UInt64)
  | io (context reason : String)
deriving DecidableEq

inductive LedgerError where
  | io (context source : String)
  | malformed (location reason : String)
  | canonical (location : String) (source : CanonicalError)
  | readOnlyPrefix (height : Nat)
  | sealed (location : String) (source : AtRestError)

/-- A single record in the log. -/
structure Entry where
  seq : UInt64
  prev : Option String
  kind : String
  payload : Value
  ts : String
  hash : String
deriving DecidableEq

namespace Entry

/-- A predecessor's hash, `null` at genesis. -/
def prevValue : Option String → Value
  | some hash => .string hash
  | none => .null

/-- The object the entry hash covers. -/
def body (e : Entry) : Value :=
  .object
    [("seq", .int (.ofUInt64 e.seq)),
      ("prev", prevValue e.prev),
      ("kind", .string e.kind),
      ("payload", e.payload),
      ("ts", .string e.ts)]

def recomputeHash [Sha256] (e : Entry) : String := e.body.digest

/-- The stored object: the body with `hash` added. -/
def bodyWithHash (e : Entry) : Value :=
  match e.body.view with
  | .object map => .objectOf (map.insert "hash" (.string e.hash))
  | _ => e.body

/-- The stored line, without its newline. -/
def toJsonLine (e : Entry) : String := e.bodyWithHash.canonicalString

def badField (location field : String) : LedgerError :=
  .malformed location ("missing or invalid field \"" ++ field ++ "\"")

/-- The `prev` field of a stored object. -/
def parsePrev (v : Value) : Option (Option String) :=
  match v.get "prev" with
  | none => none
  | some w =>
    match w.view with
    | .null => some none
    | .string hash => some (some hash)
    | _ => none

/-- Decode a stored object; `location` says where it was found. -/
def parse (v : Value) (location : String) : Except LedgerError Entry := do
  let seq ← ((v.get "seq").bind Value.asU64).elim (.error (badField location "seq")) .ok
  let prev ← (parsePrev v).elim (.error (badField location "prev")) .ok
  let kind ← ((v.get "kind").bind Value.asStr).elim (.error (badField location "kind")) .ok
  let payload ← (v.get "payload").elim (.error (badField location "payload")) .ok
  let ts ← ((v.get "ts").bind Value.asStr).elim (.error (badField location "ts")) .ok
  let hash ← ((v.get "hash").bind Value.asStr).elim (.error (badField location "hash")) .ok
  return { seq, prev, kind, payload, ts, hash }

/-! ## Reading the fields back -/

theorem prevValue_injective : Function.Injective prevValue := by
  intro p q h
  have hview := congrArg Value.view h
  cases p with
  | none =>
    cases q with
    | none => rfl
    | some s => simp [prevValue] at hview
  | some s =>
    cases q with
    | none => simp [prevValue] at hview
    | some t => simpa [prevValue] using hview

theorem get_body_seq (e : Entry) : e.body.get "seq" = some (.int (.ofUInt64 e.seq)) := by
  simp [body, Value.get_object, BTreeMap.lookupEntry]

theorem get_body_prev (e : Entry) : e.body.get "prev" = some (prevValue e.prev) := by
  simp [body, Value.get_object, BTreeMap.lookupEntry]

theorem get_body_kind (e : Entry) : e.body.get "kind" = some (.string e.kind) := by
  simp [body, Value.get_object, BTreeMap.lookupEntry]

theorem get_body_payload (e : Entry) : e.body.get "payload" = some e.payload := by
  simp [body, Value.get_object, BTreeMap.lookupEntry]

theorem get_body_ts (e : Entry) : e.body.get "ts" = some (.string e.ts) := by
  simp [body, Value.get_object, BTreeMap.lookupEntry]

/-- Entries with one body and one hash are one entry. -/
theorem body_inj {e f : Entry} (hbody : e.body = f.body) (hhash : e.hash = f.hash) : e = f := by
  have hseq : e.seq = f.seq := by
    have h := congrArg (fun v => (v.get "seq").bind Value.asU64) hbody
    simpa only [get_body_seq, Option.bind_some, Value.asU64_ofUInt64, Option.some_inj] using h
  have hprev : e.prev = f.prev := by
    have h := congrArg (Value.get · "prev") hbody
    simp only [get_body_prev, Option.some_inj] at h
    exact prevValue_injective h
  have hkind : e.kind = f.kind := by
    have h := congrArg (fun v => (v.get "kind").bind Value.asStr) hbody
    simpa only [get_body_kind, Option.bind_some, Value.asStr_string, Option.some_inj] using h
  have hpayload : e.payload = f.payload := by
    have h := congrArg (Value.get · "payload") hbody
    simpa only [get_body_payload, Option.some_inj] using h
  have hts : e.ts = f.ts := by
    have h := congrArg (fun v => (v.get "ts").bind Value.asStr) hbody
    simpa only [get_body_ts, Option.bind_some, Value.asStr_string, Option.some_inj] using h
  cases e
  cases f
  simp only at hseq hprev hkind hpayload hts hhash
  subst hseq hprev hkind hpayload hts hhash
  rfl

/-- The stored object as a map over the body's map. -/
theorem bodyWithHash_eq (e : Entry) :
    ∃ map : BTreeMap String Value, e.body = .objectOf map ∧
      e.bodyWithHash = .objectOf (map.insert "hash" (.string e.hash)) := by
  refine ⟨_, rfl, ?_⟩
  simp [bodyWithHash, body, Value.object]

theorem get_bodyWithHash (e : Entry) (key : String) :
    e.bodyWithHash.get key =
      if key = "hash" then some (.string e.hash) else e.body.get key := by
  obtain ⟨map, hbody, hstored⟩ := e.bodyWithHash_eq
  rw [hstored, hbody, Value.get_objectOf, Value.get_objectOf, BTreeMap.get?_insert]

theorem parsePrev_bodyWithHash (e : Entry) : parsePrev e.bodyWithHash = some e.prev := by
  have hget : e.bodyWithHash.get "prev" = some (prevValue e.prev) := by
    rw [get_bodyWithHash, if_neg (by decide), get_body_prev]
  rw [parsePrev, hget]
  cases e.prev with
  | none => rfl
  | some hash => rfl

/-- What was stored is what is read. -/
theorem parse_bodyWithHash (e : Entry) (location : String) :
    parse e.bodyWithHash location = .ok e := by
  have hseq : e.bodyWithHash.get "seq" = some (.int (.ofUInt64 e.seq)) := by
    rw [get_bodyWithHash, if_neg (by decide), get_body_seq]
  have hkind : e.bodyWithHash.get "kind" = some (.string e.kind) := by
    rw [get_bodyWithHash, if_neg (by decide), get_body_kind]
  have hpayload : e.bodyWithHash.get "payload" = some e.payload := by
    rw [get_bodyWithHash, if_neg (by decide), get_body_payload]
  have hts : e.bodyWithHash.get "ts" = some (.string e.ts) := by
    rw [get_bodyWithHash, if_neg (by decide), get_body_ts]
  have hhash : e.bodyWithHash.get "hash" = some (.string e.hash) := by
    rw [get_bodyWithHash, if_pos rfl]
  simp only [parse, hseq, hkind, hpayload, hts, hhash, parsePrev_bodyWithHash, Option.bind_some,
    Value.asU64_ofUInt64, Value.asStr_string, Option.elim_some]
  rfl

/-! ## Depth -/

theorem depth_prevValue (prev : Option String) : (prevValue prev).depth = 0 := by
  cases prev with
  | none => rfl
  | some hash => rfl

/-- Only the payload nests. -/
theorem depth_field_body (e : Entry) {key : String} {w : Value} (h : e.body.get key = some w) :
    w = e.payload ∨ w.depth = 0 := by
  simp only [body, Value.get_object, List.reverse_cons, List.reverse_nil, List.nil_append,
    List.cons_append, BTreeMap.lookupEntry] at h
  split_ifs at h
  · cases h
    exact .inr rfl
  · cases h
    exact .inl rfl
  · cases h
    exact .inr rfl
  · cases h
    exact .inr (depth_prevValue e.prev)
  · cases h
    exact .inr rfl

/-- Storing an entry nests its payload one level deeper. -/
theorem depth_bodyWithHash_le (e : Entry) {n : Nat} :
    e.bodyWithHash.depth ≤ n ↔ e.payload.depth + 1 ≤ n := by
  obtain ⟨map, hbody, hstored⟩ := e.bodyWithHash_eq
  rw [hstored, Value.depth_objectOf_le]
  constructor
  · intro h
    have hget : (map.insert "hash" (.string e.hash)).get? "payload" = some e.payload := by
      rw [BTreeMap.get?_insert, if_neg (by decide), ← Value.get_objectOf, ← hbody,
        get_body_payload]
    exact h _ (BTreeMap.get?_eq_some_iff.mp hget)
  · intro h f hf
    have hmem := BTreeMap.get?_eq_some_iff.mpr hf
    rw [BTreeMap.get?_insert, ← Value.get_objectOf, ← hbody] at hmem
    split_ifs at hmem with hkey
    · rw [← Option.some_inj.mp hmem, Value.depth_string]
      omega
    · rcases e.depth_field_body hmem with hpayload | hflat
      · rw [hpayload]
        exact h
      · omega

/-! ## The stored line -/

theorem braceDelimited_body (e : Entry) : BraceDelimited e.body.canonicalString :=
  braceDelimited_canonicalString _

theorem braceDelimited_toJsonLine (e : Entry) : BraceDelimited e.toJsonLine := by
  obtain ⟨map, -, hstored⟩ := e.bodyWithHash_eq
  rw [toJsonLine, hstored]
  exact braceDelimited_canonicalString _

end Entry

end Cairn.Ports
