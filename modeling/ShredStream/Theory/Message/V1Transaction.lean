import ShredStream.Core.Update
import ShredStream.Theory.Message.Version1

/-!
# Version-1 Transactions

A version-1 transaction is a message and, behind it, as many signatures as
the second byte of the message says. Three functions locate the signatures,
each by counting back from the end of the buffer: `messageBytes` cuts them
off, `deriveSignatures` lists them, `signature` takes the first. They find
the same place (`signatures_start`), whatever the message and whatever the
number of signatures.

## Main definitions

* `V1Transaction`: A transaction with everything that is written of it.
* `V1Transaction.wire`: Its wire form.
* `V1Transaction.update`: An update that holds it.

## Theorems

* `signatures_start`: Where the signatures start, counted from the end.
* `v1_roundtrip`: The accessors give back what was written.
-/

namespace ShredStream

open Cursor Message

/-- The slice at a signature is the signature. -/
theorem Signature.slice_of_at (buf : Bytes) (o : Nat) (s : Signature) (h : o + 64 ≤ buf.length)
    (hat : At buf o s.bytes) : Signature.slice buf o h = s := by
  have hs := at_slice buf s.bytes o hat
  rw [s.size] at hs
  exact Signature.ext hs

/-- Signatures one after the other take 64 bytes each. -/
theorem length_signatures (sigs : List Signature) :
    (sigs.flatMap (fun s => s.bytes)).length = 64 * sigs.length :=
  length_flatMap_width (fun s : Signature => s.bytes) 64 sigs (fun s _ => s.size)

/-- A transaction of the version-1 layout: what the message says, the mask and
    the config values, which no accessor returns, and the signatures. -/
structure V1Transaction where
  header : MessageHeader
  mask : UInt32
  lifetimeToken : Bytes
  staticAccounts : List Bytes
  config : Bytes
  instructions : List CompiledInstruction
  signatures : List Signature
  token_width : lifetimeToken.length = 32
  account_width : ∀ a ∈ staticAccounts, a.length = 32
  few_accounts : staticAccounts.length ≤ 255
  config_width : config.length = configWidth mask.toNat
  few_instructions : instructions.length ≤ 255
  fitting : ∀ ix ∈ instructions, FitsV1 ix
  announced : signatures.length = header.numRequiredSignatures.toNat

namespace V1Transaction

variable (t : V1Transaction)

/-- The part before the signatures. -/
def message : Bytes :=
  [0x81] ++ (headerBytes t.header ++ (leBytes 4 t.mask.toNat ++ (t.lifetimeToken ++
    ([UInt8.ofNat t.instructions.length] ++ ([UInt8.ofNat t.staticAccounts.length] ++
      (t.staticAccounts.flatMap id ++ (t.config ++ (t.instructions.flatMap v1Header ++
        t.instructions.flatMap v1Payload))))))))

/-- The wire form. -/
def wire : Bytes := t.message ++ t.signatures.flatMap (fun s => s.bytes)

/-- What the message says. -/
def compiled : CompiledMessage where
  version := some 1
  header := t.header
  staticAccounts := t.staticAccounts
  lifetimeToken := t.lifetimeToken
  instructions := t.instructions
  addressTableLookups := []

/-- An update that holds the transaction, with no signatures of the
    server's. -/
def update (slot : UInt64) (filters : List String) (createdAt : Option SystemTime)
    (receivedAt : SystemTime) : TransactionUpdate where
  slot := slot
  bytes := t.wire
  providedSignatures := []
  filters := filters
  createdAt := createdAt
  receivedAt := receivedAt

/-- The message is a written form of what it says. -/
theorem message_form : V1Form t.compiled t.message := by
  have hmask : leNat (leBytes 4 t.mask.toNat) = t.mask.toNat :=
    leNat_leBytes_of_lt 4 t.mask.toNat (UInt32.toNat_lt t.mask)
  refine ⟨leBytes 4 t.mask.toNat, t.staticAccounts.flatMap id, t.config, rfl, rfl,
    Nat.lt_succ_of_le t.few_accounts, Nat.lt_succ_of_le t.few_instructions, t.fitting,
    many_flatMap AccountForm id t.staticAccounts (fun a ha => ⟨t.account_width a ha, rfl⟩),
    t.token_width, length_leBytes 4 _, ?_, rfl⟩
  rw [hmask, t.config_width]

theorem wire_head : t.wire.head? = some 0x81 := rfl

theorem wire_second : t.wire[1]? = some t.header.numRequiredSignatures := rfl

theorem length_wire :
    t.wire.length = t.message.length + 64 * t.header.numRequiredSignatures.toNat := by
  rw [wire, List.length_append, length_signatures, t.announced]

/-- Counted from the end, the signatures start where the message ends. -/
theorem signatures_start :
    t.wire.length - 64 * t.header.numRequiredSignatures.toNat = t.message.length := by
  rw [t.length_wire, Nat.add_sub_cancel]

/-- No message is shorter than its fixed fields. -/
theorem message_min : 42 ≤ t.message.length := by
  simp only [message, List.length_append, t.token_width, length_leBytes, headerBytes,
    List.length_cons, List.length_nil]
  omega

/-- The `i`-th signature stands behind the message and the ones before it. -/
theorem signature_at (i : Nat) (s : Signature) (h : t.signatures[i]? = some s) :
    At t.wire (t.message.length + 64 * i) s.bytes := by
  refine at_flatMap (fun s : Signature => s.bytes) 64 t.wire t.signatures (fun s _ => s.size) _ i s
    ?_ h
  exact ⟨t.message, [], by rw [List.append_nil]; rfl, rfl⟩

theorem messageBytes_wire : messageBytes t.wire = .ok t.message := by
  have hlen := t.length_wire
  have hmin := t.message_min
  -- The signatures are counted by the second byte, from the end.
  have hbyte : byteAt t.wire 1 "header" = .ok t.header.numRequiredSignatures := by
    rw [byteAt, t.wire_second]
  have hsub : checkedSub t.wire.length (64 * t.header.numRequiredSignatures.toNat)
      = some t.message.length := by
    rw [checkedSub, if_pos (by omega), t.signatures_start]
  rw [messageBytes, if_pos t.wire_head, hbyte]
  simp only [ok_bind, hsub, Option.filter_some, hmin, decide_true, if_true]
  rw [wire, List.take_left]

theorem parse_update (slot : UInt64) (filters : List String) (createdAt : Option SystemTime)
    (receivedAt : SystemTime) :
    (t.update slot filters createdAt receivedAt).parse = .ok t.compiled := by
  have hat : At t.message 0 t.message := ⟨[], [], by rw [List.append_nil]; rfl, rfl⟩
  rw [TransactionUpdate.parse, update, messageBytes_wire, ok_bind, decodeMessage,
    decodeAt_v1 t.message t.message t.compiled t.message_form hat]
  rfl

theorem deriveSignatures_wire : Update.deriveSignatures t.wire = t.signatures := by
  have hlen := t.length_wire
  have hn : (t.wire[1]?.getD 0).toNat = t.header.numRequiredSignatures.toNat := by
    rw [t.wire_second, Option.getD_some]
  rw [Update.deriveSignatures, if_pos t.wire_head, dif_pos (by omega)]
  -- As many slices as signatures, and each slice is where a signature stands.
  refine List.ext_getElem ?_ (fun i hi hi' => ?_)
  · rw [List.length_map, List.length_finRange, t.announced, hn]
  · rw [List.getElem_map, List.getElem_finRange]
    refine Signature.slice_of_at _ _ _ _ ?_
    have hstart : t.wire.length - 64 * (t.wire[1]?.getD 0).toNat = t.message.length := by
      rw [hn, t.signatures_start]
    have hat := t.signature_at i _ (List.getElem?_eq_getElem hi')
    rwa [← hstart] at hat

/-- The fast accessor finds the first signature, or nothing when there is
    none. -/
theorem signature_wire (slot : UInt64) (filters : List String) (createdAt : Option SystemTime)
    (receivedAt : SystemTime) :
    (t.update slot filters createdAt receivedAt).signature
      = t.signatures.head?.getD Signature.zero := by
  have hlen := t.length_wire
  have hann := t.announced
  have hsub : checkedSub t.wire.length (64 * t.header.numRequiredSignatures.toNat)
      = some t.message.length := by
    rw [checkedSub, if_pos (by omega), t.signatures_start]
  simp only [TransactionUpdate.signature, update, t.wire_head, if_true, t.wire_second,
    Option.getD_some, hsub, Option.bind_some, Signature.get?]
  rcases hs : t.signatures with _ | ⟨s, rest⟩
  · -- Nothing stands behind the message, so there is no slice to take.
    rw [hs, List.length_nil] at hann
    rw [dif_neg (by omega)]
    rfl
  · rw [hs, List.length_cons] at hann
    have hat := t.signature_at 0 s (by rw [hs, List.getElem?_cons_zero])
    rw [dif_pos (by omega), Signature.slice_of_at t.wire t.message.length s (by omega) hat]
    rfl

/-- The accessors give back what was written: the message before the
    signatures, what it says, and the signatures in order. -/
theorem v1_roundtrip (slot : UInt64) (filters : List String) (createdAt : Option SystemTime)
    (receivedAt : SystemTime) :
    messageBytes t.wire = .ok t.message ∧
      (t.update slot filters createdAt receivedAt).parse = .ok t.compiled ∧
      (t.update slot filters createdAt receivedAt).signatures = t.signatures ∧
      (t.update slot filters createdAt receivedAt).signature
        = t.signatures.head?.getD Signature.zero := by
  refine ⟨t.messageBytes_wire, t.parse_update slot filters createdAt receivedAt, ?_,
    t.signature_wire slot filters createdAt receivedAt⟩
  -- The server sent none, so they are read from the bytes.
  simp only [TransactionUpdate.signatures, update, ne_eq, not_true_eq_false, if_false]
  exact t.deriveSignatures_wire

end V1Transaction

/-- One signer, one instruction with one account index and no data, and a
    config value for bits 0 and 1. -/
def transferV1 : V1Transaction where
  header := ⟨1, 0, 0⟩
  mask := 3
  lifetimeToken := List.replicate 32 9
  staticAccounts := [List.replicate 32 7]
  config := List.replicate 8 0
  instructions := [⟨0, [0], []⟩]
  signatures := [⟨List.replicate 64 5, rfl⟩]
  token_width := rfl
  account_width := by decide
  few_accounts := by decide
  config_width := rfl
  few_instructions := by decide
  fitting := fun ix hix => by
    rw [List.mem_singleton.mp hix]
    exact ⟨by decide, by decide⟩
  announced := rfl

set_option maxRecDepth 2000 in
example : messageBytes transferV1.wire = .ok transferV1.message := rfl

end ShredStream
