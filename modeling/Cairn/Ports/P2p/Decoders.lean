import Cairn.Ports.P2p.DhtMessage
import Cairn.Ports.P2p.Messages
import Cairn.Ports.Sync.Message

/-!
# Bytes that make a decoder panic

Five families of messages are decoded from bytes a peer sends. Four decoders end
in a message or a refusal whatever the bytes are. The directory's does not: it
slices the names of peers by position, and a character may lie across a cut.

Items before the first that gives no value are gone through; it is that one that
has to hold the name in question.
-/

namespace Cairn.Ports.Dht

open Cairn.Verified
open Cairn.Ports.Canonical
open Cairn.Ports.Wire

section Decode

variable {Addr : Type} [Sockets Addr] [DebugText]

/-! ## Where a name is reached -/

/-- A contact that is whole but for its name. -/
def ContactStraddles (value : Value) : Prop :=
  ∃ id addr seq, textField value "id" "contact has no id" = .ok id ∧
    textField value "addr" "contact has no addr" = .ok addr ∧ seqField value = .ok seq ∧
      Straddles id

/-- A holder that is whole but for its name. -/
def HolderStraddles (value : Value) : Prop :=
  ∃ id addr, textField value "id" "holder has no id" = .ok id ∧
    textField value "addr" "holder has no addr" = .ok addr ∧ Straddles id

variable (Addr) in
/-- An answer whose holders, or whose contacts where all holders are good, come to
such a name. -/
def AnswerStraddles (value : Value) : Prop :=
  ∃ address holderItems, textField value "address" "answer has no address" = .ok address ∧
    isAddress address = true ∧ listField value "holders" MAX_PROVIDERS = .ok holderItems ∧
      (FirstFails (@Holder.fromValue Addr _ _) HolderStraddles holderItems ∨
        ∃ (holders : List (Holder Addr)) (closerItems : List Value),
          collect Holder.fromValue holderItems = .ok holders ∧
          listField value "closer" MAX_CONTACTS_PER_MESSAGE = .ok closerItems ∧
          FirstFails (@PeerContact.fromValue Addr _ _) ContactStraddles closerItems)

/-- One peer of a `GetKey`. -/
def PeerStraddles (item : Value) : Prop := ∃ text, item.asStr = some text ∧ Straddles text

variable (Addr) in
/-- A directory message that comes to such a name. -/
def MessageStraddles (value : Value) : Prop :=
  match (value.get "t").bind Value.asStr with
  | some "dht_find_node" =>
    ∃ target, textField value "target" "target is not a string" = .ok target ∧ Straddles target
  | some "dht_nodes" =>
    ∃ items, listField value "contacts" MAX_CONTACTS_PER_MESSAGE = .ok items ∧
      FirstFails (@PeerContact.fromValue Addr _ _) ContactStraddles items
  | some "dht_providers" =>
    ∃ items, listField value "answers" MAX_LOOKUP_ADDRESSES = .ok items ∧
      FirstFails (@ProviderAnswer.fromValue Addr _ _) (AnswerStraddles Addr) items
  | some "dht_get_key" =>
    ∃ items, listField value "peers" MAX_KEYS_PER_MESSAGE = .ok items ∧
      FirstFails peerItem PeerStraddles items
  | _ => False

/-! ## What the decoder does there -/

theorem parseNodeId_eq_panic (text : String) :
    parseNodeId text = .error .panic ↔ Straddles text := by
  rw [← not_returns, returns_parseNodeId, not_not]

omit [DebugText] in
theorem seqField_ne_panic (value : Value) : seqField value ≠ .error .panic := by
  simp [seqField, bind_eq_error]

omit [DebugText] in
theorem textField_ne_panic (value : Value) (field missing : String) :
    textField value field missing ≠ .error .panic := orError_ne_panic _ _

omit [DebugText] in
theorem listField_ne_panic (value : Value) (field : String) (limit : Nat) :
    listField value field limit ≠ .error .panic := returns_boundedArray _ _ _ _ _

theorem contact_eq_panic (value : Value) :
    (PeerContact.fromValue value : Except (Abort DhtError) (PeerContact Addr)) = .error .panic ↔
      ContactStraddles value := by
  simp only [PeerContact.fromValue, ContactStraddles, bind_eq_error, textField_ne_panic,
    seqField_ne_panic, parseNodeId_eq_panic, orError_ne_panic, false_or, reduceCtorEq, and_false,
    exists_false, or_false, exists_and_left]

theorem holder_eq_panic (value : Value) :
    (Holder.fromValue value : Except (Abort DhtError) (Holder Addr)) = .error .panic ↔
      HolderStraddles value := by
  simp only [Holder.fromValue, HolderStraddles, bind_eq_error, textField_ne_panic,
    parseNodeId_eq_panic, orError_ne_panic, false_or, reduceCtorEq, and_false,
    exists_false, or_false, exists_and_left]

theorem answer_eq_panic (value : Value) :
    (ProviderAnswer.fromValue value : Except (Abort DhtError) (ProviderAnswer Addr)) =
      .error .panic ↔ AnswerStraddles Addr value := by
  have hholders := collect_eq_panic (@holder_eq_panic Addr _ _)
  have hcloser := collect_eq_panic (@contact_eq_panic Addr _ _)
  simp only [ProviderAnswer.fromValue, AnswerStraddles, bind_eq_error, textField_ne_panic,
    listField_ne_panic, require_ne_panic, require_eq_ok, hholders, hcloser, false_or, reduceCtorEq,
    and_false, exists_false, or_false, exists_and_left, exists_const]

theorem peerItem_eq_panic (item : Value) :
    peerItem item = .error .panic ↔ PeerStraddles item := by
  simp only [peerItem, PeerStraddles, bind_eq_error, orError_ne_panic, orError_eq_ok,
    parseNodeId_eq_panic, false_or]

theorem message_eq_panic (value : Value) :
    (DhtMessage.fromValue value : Except (Abort DhtError) (DhtMessage Addr)) = .error .panic ↔
      MessageStraddles Addr value := by
  have hcontacts := collect_eq_panic (@contact_eq_panic Addr _ _)
  have hanswers := collect_eq_panic (@answer_eq_panic Addr _ _)
  have hpeers := collect_eq_panic peerItem_eq_panic
  have haddresses : ∀ limit, addressesField value limit ≠ .error .panic := by
    intro limit
    refine returns_bind.mpr ⟨listField_ne_panic _ _ _, fun items _ => ?_⟩
    refine returns_collect_of (fun item => ?_) items
    refine returns_bind.mpr ⟨returns_orError _ _, fun text _ => ?_⟩
    exact returns_bind.mpr ⟨returns_require _ _, fun _ _ => returns_ok _⟩
  have hkeys : ∀ items, collect keyItem items ≠ .error .panic := by
    refine returns_collect_of fun item => ?_
    refine returns_bind.mpr ⟨returns_orError _ _, fun text _ => ?_⟩
    exact returns_bind.mpr ⟨returns_require _ _, fun _ _ => returns_ok _⟩
  unfold DhtMessage.fromValue MessageStraddles
  generalize (value.get "t").bind Value.asStr = kind
  split
  · simp only [bind_eq_error, textField_ne_panic, parseNodeId_eq_panic, false_or, reduceCtorEq,
      and_false, exists_false, or_false]
  · simp only [bind_eq_error, listField_ne_panic, hcontacts, false_or, reduceCtorEq, and_false,
      exists_false, or_false]
  · simp only [bind_eq_error, haddresses, reduceCtorEq, and_false, exists_false, or_false]
    exact Iff.rfl
  · simp only [bind_eq_error, listField_ne_panic, hanswers, false_or, reduceCtorEq, and_false,
      exists_false, or_false]
  · simp only [bind_eq_error, listField_ne_panic, hpeers, false_or, reduceCtorEq, and_false,
      exists_false, or_false]
  · simp only [bind_eq_error, listField_ne_panic, hkeys, reduceCtorEq, and_false,
      exists_false, or_false]
    exact Iff.rfl
  · simp only [bind_eq_error, haddresses, reduceCtorEq, and_false, exists_false, or_false]
    exact Iff.rfl
  · simp only [bind_eq_error, haddresses, reduceCtorEq, and_false, exists_false, or_false]
    exact Iff.rfl
  · split
    all_goals simp_all

variable (Addr) in
/-- The bytes of a directory message that comes to a name a character of which
straddles the end of a pair. -/
def BytesStraddle (bytes : ByteArray) : Prop :=
  ∃ value, valueOf DhtError.malformed bytes = .ok value ∧ MessageStraddles Addr value

variable (Addr) in
/-- All five decoders end in a message or a refusal on exactly the bytes that do
not come to such a name. -/
theorem decoders_return (bytes : ByteArray) (hints : PeerHintLimits) (pops : PopLimits)
    (codes : CodeLimits) :
    (Returns (Sync.Message.decode bytes) ∧
      Returns (DhtMessage.decode bytes : Except (Abort DhtError) (DhtMessage Addr)) ∧
      Returns (PeersMessage.decode bytes hints) ∧ Returns (PopMessage.decode bytes pops) ∧
      Returns (CodeMessage.decode bytes codes)) ↔ ¬BytesStraddle Addr bytes := by
  have hdht : Returns (DhtMessage.decode bytes : Except (Abort DhtError) (DhtMessage Addr)) ↔
      ¬BytesStraddle Addr bytes := by
    unfold BytesStraddle DhtMessage.decode
    rw [← not_iff_not, not_returns, not_not, bind_eq_error,
      or_iff_right (returns_valueOf DhtError.malformed bytes)]
    exact exists_congr fun value => and_congr_right fun _ => message_eq_panic value
  constructor
  · rintro ⟨-, hreturns, -⟩
    exact hdht.mp hreturns
  · intro hbytes
    exact ⟨Sync.Message.returns_decode bytes, hdht.mpr hbytes,
      PeersMessage.returns_decode bytes hints, PopMessage.returns_decode bytes pops,
      CodeMessage.returns_decode bytes codes⟩

end Decode

section Sample

/-- Ports on one machine. -/
@[reducible] def portSockets : Sockets Nat := ⟨toString, String.toNat?⟩

@[reducible] def plainText : DebugText := ⟨fun text => "\"" ++ text ++ "\""⟩

/-- 64 bytes, the second character of which is three of them. -/
def straddlingName : String := String.ofList ('a' :: '€' :: List.replicate 60 'a')

/-- A question for the peers near that name. -/
def straddlingMessage : Value :=
  .object [("t", .string "dht_find_node"), ("target", .string straddlingName)]

theorem not_decoders_return : ¬∀ bytes : ByteArray,
    Returns (@DhtMessage.decode Nat portSockets plainText bytes) := by
  intro h
  have hstraddles : Straddles straddlingName :=
    ⟨by decide, [], straddlingName.toList, rfl, rfl, .inr
      ⟨'a', '€', List.replicate 60 'a', String.toList_ofList, by decide, by decide⟩⟩
  have hvalue : valueOf DhtError.malformed straddlingMessage.canonicalBytes =
      .ok straddlingMessage := valueOf_canonicalBytes _ (by decide)
  have hkind : (straddlingMessage.get "t").bind Value.asStr = some "dht_find_node" := by
    decide
  have hmessage : @MessageStraddles Nat portSockets plainText straddlingMessage := by
    unfold MessageStraddles
    rw [hkind]
    exact ⟨straddlingName, orError_eq_ok.mpr (by decide), hstraddles⟩
  have hreturns := h straddlingMessage.canonicalBytes
  unfold DhtMessage.decode at hreturns
  rw [hvalue] at hreturns
  exact hreturns ((@message_eq_panic Nat portSockets plainText straddlingMessage).mpr hmessage)

end Sample

end Cairn.Ports.Dht
