import ShredStream.Theory.Message.Layout

/-!
# Decoding Undoes Encoding

The reference serialisation of legacy and versioned messages: every length
as the minimal varint, everything else as it is.

A serialised message is one of the written forms of `Layout.lean`, provided
that the message has such a form at all: accounts, tables and the token have
32 bytes, lengths fit in 28 bits, a legacy message has no lookups and a first
header byte that does not read as a version, and version 1 has a layout of
its own. What follows the message does not matter.

## Main definitions

* `WellFormed`: A message the compact layouts can carry.
* `encode`: Its serialisation.

## Theorems

* `encode_form`: A serialised message is a written form of it.
* `decodeMessage_encode`: Decoding gives the message back.
-/

namespace ShredStream

namespace Message

open Cursor

/-- A message the compact layouts can carry. -/
structure WellFormed (m : CompiledMessage) : Prop where
  legacy : m.version = none →
    m.header.numRequiredSignatures.toNat < 128 ∧ m.addressTableLookups = []
  versioned : ∀ v, m.version = some v → v.toNat < 128 ∧ v ≠ 1
  account_width : ∀ a ∈ m.staticAccounts, a.length = 32
  token_width : m.lifetimeToken.length = 32
  table_width : ∀ l ∈ m.addressTableLookups, l.tableAddress.length = 32
  accounts : m.staticAccounts.length < 2 ^ 28
  instructions : m.instructions.length < 2 ^ 28
  instruction_parts : ∀ ix ∈ m.instructions,
    ix.accountIndices.length < 2 ^ 28 ∧ ix.data.length < 2 ^ 28
  lookups : m.addressTableLookups.length < 2 ^ 28
  lookup_parts : ∀ l ∈ m.addressTableLookups,
    l.writableIndexes.length < 2 ^ 28 ∧ l.readonlyIndexes.length < 2 ^ 28

/-- A list after the varint of its length. -/
def encodeList {α : Type} (enc : α → Bytes) (as : List α) : Bytes :=
  Varint.encode as.length ++ as.flatMap enc

/-- Bytes after the varint of their length. -/
def encodeBytes (bs : Bytes) : Bytes := Varint.encode bs.length ++ bs

def encodeInstruction (ix : CompiledInstruction) : Bytes :=
  [ix.programIndex] ++ (encodeBytes ix.accountIndices ++ encodeBytes ix.data)

def encodeLookup (l : AddressTableLookup) : Bytes :=
  l.tableAddress ++ (encodeBytes l.writableIndexes ++ encodeBytes l.readonlyIndexes)

def encodeVersion : Option UInt8 → Bytes
  | none => []
  | some v => [0x80 ||| v]

/-- The reference serialisation. -/
def encode (m : CompiledMessage) : Bytes :=
  encodeVersion m.version ++ (headerBytes m.header ++ (encodeList id m.staticAccounts ++
    (m.lifetimeToken ++ (encodeList encodeInstruction m.instructions ++
      if m.version.isSome then encodeList encodeLookup m.addressTableLookups else []))))

/-- A length below 2^28 has a varint of four bytes at most. -/
theorem encode_length_form (n : Nat) (h : n < 2 ^ 28) : Length n (Varint.encode n) :=
  ⟨Varint.terminated_encode n, Varint.encode_length_le 3 n h, Varint.value_encode n⟩

theorem encodeList_form {α : Type} (G : α → Bytes → Prop) (enc : α → Bytes) (as : List α)
    (hlen : as.length < 2 ^ 28) (h : ∀ a ∈ as, G a (enc a)) : Counted G as (encodeList enc as) :=
  ⟨_, _, encode_length_form as.length hlen, many_flatMap G enc as h, rfl⟩

theorem encodeInstruction_form (ix : CompiledInstruction)
    (h : ix.accountIndices.length < 2 ^ 28 ∧ ix.data.length < 2 ^ 28) :
    InstructionForm ix (encodeInstruction ix) := by
  refine ⟨_, _, encode_length_form _ h.1, encode_length_form _ h.2, ?_⟩
  simp only [encodeInstruction, encodeBytes, List.append_assoc]

theorem encodeLookup_form (l : AddressTableLookup) (hwidth : l.tableAddress.length = 32)
    (h : l.writableIndexes.length < 2 ^ 28 ∧ l.readonlyIndexes.length < 2 ^ 28) :
    LookupForm l (encodeLookup l) := by
  refine ⟨hwidth, _, _, encode_length_form _ h.1, encode_length_form _ h.2, ?_⟩
  simp only [encodeLookup, encodeBytes, List.append_assoc]

/-- A serialised message is a written form of it. -/
theorem encode_form (m : CompiledMessage) (h : WellFormed m) : CompactForm m (encode m) := by
  refine ⟨encodeVersion m.version, _, _, _, ?_,
    encodeList_form AccountForm id m.staticAccounts h.accounts
      (fun a ha => ⟨h.account_width a ha, rfl⟩),
    h.token_width,
    encodeList_form InstructionForm encodeInstruction m.instructions h.instructions
      (fun ix hix => encodeInstruction_form ix (h.instruction_parts ix hix)), ?_, rfl⟩
  · -- A first header byte below 128 does not read as a version.
    cases hv : m.version with
    | none => exact ⟨(h.legacy hv).1, rfl⟩
    | some v => exact ⟨(h.versioned v hv).1, (h.versioned v hv).2, rfl⟩
  · -- Only a versioned message carries a list of lookups.
    cases hv : m.version with
    | none => exact ⟨(h.legacy hv).2, rfl⟩
    | some v =>
        exact encodeList_form LookupForm encodeLookup m.addressTableLookups h.lookups
          (fun l hl => encodeLookup_form l (h.table_width l hl) (h.lookup_parts l hl))

/-- Decoding a serialised message gives it back, whatever follows. -/
theorem decodeMessage_encode (m : CompiledMessage) (rest : Bytes) (h : WellFormed m) :
    decodeMessage (encode m ++ rest) = .ok m := by
  rw [decodeMessage, decodeAt_compact _ (encode m) m (encode_form m h) (at_zero _ rest)]
  rfl

/-- A version-0 message with one account, one instruction and one lookup. -/
def sampleMessage : CompiledMessage where
  version := some 0
  header := ⟨1, 0, 1⟩
  staticAccounts := [List.replicate 32 7]
  lifetimeToken := List.replicate 32 9
  instructions := [⟨0, [0, 1], [5]⟩]
  addressTableLookups := [⟨List.replicate 32 3, [4], []⟩]

/-- The sample is read back, with signatures or anything else behind it. -/
theorem sampleMessage_decodes :
    decodeMessage (encode sampleMessage ++ [1, 2]) = .ok sampleMessage :=
  decodeMessage_encode sampleMessage [1, 2]
    { legacy := fun h => by cases h
      versioned := fun v h => by cases h; decide
      account_width := by decide
      token_width := by decide
      table_width := by decide
      accounts := by decide
      instructions := by decide
      instruction_parts := by decide
      lookups := by decide
      lookup_parts := by decide }

end Message

end ShredStream
