import ShredStream.Lib.Cursor
import ShredStream.Lib.Numeral

/-!
# Message Decoding

The decoder for Solana transaction messages: the compact-array layouts
(legacy, and versioned with a prefix byte) and the fixed-offset version-1
layout, together with `messageBytes`, which splits a serialized transaction
into its signatures and its message.

Slices are lists of bytes. Offsets are threaded by hand as the source threads
them, and each `for` loop over a count is `readMany` of its body. The two
decoders also hand back the offset `o` they stop at; `decodeMessage` drops
it. Offsets are natural numbers: on a 64-bit target no sum below comes near
the width of `usize`.

## Main definitions

* `CompiledMessage`: A decoded message, borrowed slices as byte lists.
* `shortvec`: The base-128 length of at most four bytes.
* `take`: A bounds-checked slice.
* `decodeV1`: The version-1 layout.
* `decodeCompact`: The legacy and versioned layouts.
* `decodeMessage`: Dispatch on the first byte.
* `messageBytes`: The message part of a serialized transaction.
-/

namespace ShredStream

abbrev Bytes := List UInt8

structure CompiledInstruction where
  programIndex : UInt8
  accountIndices : Bytes
  data : Bytes
  deriving DecidableEq, Repr

structure AddressTableLookup where
  tableAddress : Bytes
  writableIndexes : Bytes
  readonlyIndexes : Bytes
  deriving DecidableEq, Repr

structure MessageHeader where
  numRequiredSignatures : UInt8
  numReadonlySigned : UInt8
  numReadonlyUnsigned : UInt8
  deriving DecidableEq, Repr

structure CompiledMessage where
  version : Option UInt8
  header : MessageHeader
  staticAccounts : List Bytes
  lifetimeToken : Bytes
  instructions : List CompiledInstruction
  addressTableLookups : List AddressTableLookup
  deriving DecidableEq, Repr

/-- The reason a message was refused: the field that did not fit. -/
structure MessageDecodeError where
  reason : String
  deriving DecidableEq, Repr

namespace Message

open Cursor

abbrev Result := Except MessageDecodeError

/-- The loop of `shortvec`. Four rounds are all it can make: the shift passes
    21 in the fourth. -/
def shortvecLoop (buf : Bytes) (what : String) (start : Nat) :
    Nat → Nat → Nat → Nat → Result (Nat × Nat)
  | 0, _, _, _ => .error ⟨what⟩
  | rounds + 1, value, shift, o => match buf[o]? with
    | none => .error ⟨what⟩
    | some b =>
      let value := value ||| (b &&& 0x7f).toNat <<< shift
      if b &&& 0x80 = 0 then .ok (value, o + 1 - start)
      else if shift + 7 > 21 then .error ⟨what⟩
      else shortvecLoop buf what start rounds value (shift + 7) (o + 1)

/-- The value and the size of the varint at `offset`. -/
def shortvec (buf : Bytes) (offset : Nat) (what : String) : Result (Nat × Nat) :=
  shortvecLoop buf what offset 4 0 0 offset

/-- `buf.get(offset..offset + len)`. -/
def take (buf : Bytes) (offset len : Nat) (what : String) : Result Bytes :=
  if offset + len ≤ buf.length then .ok ((buf.drop offset).take len) else .error ⟨what⟩

/-- `*buf.get(offset)`. -/
def byteAt (buf : Bytes) (offset : Nat) (what : String) : Result UInt8 :=
  match buf[offset]? with
  | some b => .ok b
  | none => .error ⟨what⟩

/-- The three header bytes of a slice of length three. -/
def headerOf (h : Bytes) : MessageHeader where
  numRequiredSignatures := h.getD 0 0
  numReadonlySigned := h.getD 1 0
  numReadonlyUnsigned := h.getD 2 0

/-- One round of the loop over the static accounts. -/
def readAccount : Reader UInt8 MessageDecodeError Bytes := fun buf o => do
  let account ← take buf o 32 "static accounts"
  return (account, o + 32)

/-- The length of the config values, as the bits of the mask prescribe. -/
def configLen (mask : Nat) : Nat :=
  (if mask &&& 0b11 = 0b11 then 8 else 0) + 4 * ((mask >>> 2) &&& 1)
    + 4 * ((mask >>> 3) &&& 1) + 4 * ((mask >>> 4) &&& 1)

/-- An instruction header of the version-1 layout. -/
structure V1Header where
  programIndex : UInt8
  numAccounts : UInt8
  dataLenLow : UInt8
  dataLenHigh : UInt8
  deriving DecidableEq, Repr

/-- `headers.chunks_exact(4)`. -/
def headerChunks : Bytes → List V1Header
  | a :: b :: c :: d :: rest => ⟨a, b, c, d⟩ :: headerChunks rest
  | _ => []

/-- The loop over the instruction headers, walking the payloads in step. -/
def readPayloads (buf : Bytes) : List V1Header → Nat → Result (List CompiledInstruction × Nat)
  | [], o => .ok ([], o)
  | h :: hs, o => do
    let na := h.numAccounts.toNat
    let nd := leNat [h.dataLenLow, h.dataLenHigh]
    let accountIndices ← take buf o na "instruction accounts"
    let o := o + na
    let data ← take buf o nd "instruction data"
    let o := o + nd
    let (instructions, o) ← readPayloads buf hs o
    return (⟨h.programIndex, accountIndices, data⟩ :: instructions, o)

def decodeV1 (buf : Bytes) : Result (CompiledMessage × Nat) := do
  let h ← take buf 1 3 "header"
  let header := headerOf h
  let mask ← take buf 4 4 "config mask"
  let mask := leNat mask
  let lifetimeToken ← take buf 8 32 "lifetime token"
  let nInstr ← byteAt buf 40 "instruction count"
  let nKeys ← byteAt buf 41 "account count"
  let o := 42
  let (staticAccounts, o) ← readMany readAccount nKeys.toNat buf o
  let cfg := configLen mask
  let _ ← take buf o cfg "config values"
  let o := o + cfg
  let headers ← take buf o (4 * nInstr.toNat) "instruction headers"
  let o := o + 4 * nInstr.toNat
  let (instructions, o) ← readPayloads buf (headerChunks headers) o
  return ({ version := some 1, header, staticAccounts, lifetimeToken, instructions,
            addressTableLookups := [] }, o)

/-- One round of the loop over the instructions. -/
def readInstruction : Reader UInt8 MessageDecodeError CompiledInstruction := fun buf o => do
  let programIndex ← byteAt buf o "program index"
  let o := o + 1
  let (na, sz) ← shortvec buf o "instruction account count"
  let o := o + sz
  let accountIndices ← take buf o na "instruction accounts"
  let o := o + na
  let (nd, sz) ← shortvec buf o "instruction data length"
  let o := o + sz
  let data ← take buf o nd "instruction data"
  let o := o + nd
  return ({ programIndex, accountIndices, data }, o)

/-- One round of the loop over the address table lookups. -/
def readLookup : Reader UInt8 MessageDecodeError AddressTableLookup := fun buf o => do
  let tableAddress ← take buf o 32 "lookup table address"
  let o := o + 32
  let (nw, sz) ← shortvec buf o "writable index count"
  let o := o + sz
  let writableIndexes ← take buf o nw "writable indexes"
  let o := o + nw
  let (nr, sz) ← shortvec buf o "readonly index count"
  let o := o + sz
  let readonlyIndexes ← take buf o nr "readonly indexes"
  let o := o + nr
  return ({ tableAddress, writableIndexes, readonlyIndexes }, o)

/-- The lookups, which only a versioned message has. -/
def readLookups (version : Option UInt8) : Reader UInt8 MessageDecodeError
    (List AddressTableLookup) := fun buf o =>
  if version.isSome then do
    let (n, sz) ← shortvec buf o "lookup count"
    let o := o + sz
    readMany readLookup n buf o
  else .ok ([], o)

def decodeCompact (buf : Bytes) : Result (CompiledMessage × Nat) := do
  let first ← byteAt buf 0 "empty message"
  let version := if first &&& 0x80 ≠ 0 then some (first &&& 0x7f) else none
  let o := if first &&& 0x80 ≠ 0 then 1 else 0
  let h ← take buf o 3 "header"
  let header := headerOf h
  let o := o + 3
  let (n, sz) ← shortvec buf o "account count"
  let o := o + sz
  let (staticAccounts, o) ← readMany readAccount n buf o
  let lifetimeToken ← take buf o 32 "lifetime token"
  let o := o + 32
  let (n, sz) ← shortvec buf o "instruction count"
  let o := o + sz
  let (instructions, o) ← readMany readInstruction n buf o
  let (addressTableLookups, o) ← readLookups version buf o
  return ({ version, header, staticAccounts, lifetimeToken, instructions,
            addressTableLookups }, o)

/-- The decoder the first byte selects, with the offset it stops at. -/
def decodeAt (buf : Bytes) : Result (CompiledMessage × Nat) :=
  if buf.head? = some 0x81 then decodeV1 buf else decodeCompact buf

def decodeMessage (buf : Bytes) : Result CompiledMessage :=
  (decodeAt buf).map Prod.fst

/-- `usize::checked_sub`. -/
def checkedSub (a b : Nat) : Option Nat :=
  if b ≤ a then some (a - b) else none

def messageBytes (tx : Bytes) : Result Bytes :=
  if tx.head? = some 0x81 then do
    let n ← byteAt tx 1 "header"
    match (checkedSub tx.length (64 * n.toNat)).filter (fun e => 42 ≤ e) with
    | some e => .ok (tx.take e)
    | none => .error ⟨"signatures do not fit"⟩
  else do
    let (n, sz) ← shortvec tx 0 "signature count"
    if sz + n * 64 ≤ tx.length then .ok (tx.drop (sz + n * 64))
    else .error ⟨"signatures do not fit"⟩

end Message

end ShredStream
