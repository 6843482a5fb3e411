import ShredStream.Core.Message
import ShredStream.Lib.Recorded

/-!
# The Room the Decoder Asks For

The decoder of `message.rs` once more, with the capacities it gives its
vectors: the element counts passed to `Vec::with_capacity` and `Vec::reserve`,
in the order of the calls. A vector gets its room as soon as its count has
been read, before any of its elements is.

The loops over the elements reserve nothing, and are those of
`Core/Message.lean`.

## Main definitions

* `Reserving`: A result and the counts asked for on the way.
* `decodeV1`, `decodeCompact`, `decodeMessage`: The decoder.
-/

namespace ShredStream

namespace Reserve

open Cursor
open Message (take byteAt shortvec headerOf configLen headerChunks readAccount readPayloads
  readInstruction readLookup)

/-- Decoding, with the element counts that room is asked for. -/
abbrev Reserving := Recorded Nat MessageDecodeError

/-- `Vec::with_capacity(n)`, and `reserve(n)` on an empty vector. -/
def reserve (n : Nat) : Reserving Unit := Recorded.record n

def decodeV1 (buf : Bytes) : Reserving (CompiledMessage × Nat) := do
  let h ← take buf 1 3 "header"
  let header := headerOf h
  let mask ← take buf 4 4 "config mask"
  let mask := leNat mask
  let lifetimeToken ← take buf 8 32 "lifetime token"
  let nInstr ← byteAt buf 40 "instruction count"
  let nKeys ← byteAt buf 41 "account count"
  let o := 42
  reserve nKeys.toNat
  let (staticAccounts, o) ← readMany readAccount nKeys.toNat buf o
  let cfg := configLen mask
  let _ ← take buf o cfg "config values"
  let o := o + cfg
  let headers ← take buf o (4 * nInstr.toNat) "instruction headers"
  let o := o + 4 * nInstr.toNat
  reserve nInstr.toNat
  let (instructions, o) ← readPayloads buf (headerChunks headers) o
  return ({ version := some 1, header, staticAccounts, lifetimeToken, instructions,
            addressTableLookups := [] }, o)

def readLookups (version : Option UInt8) (buf : Bytes) (o : Nat) :
    Reserving (List AddressTableLookup × Nat) :=
  if version.isSome then do
    let (n, sz) ← shortvec buf o "lookup count"
    let o := o + sz
    reserve n
    readMany readLookup n buf o
  else return ([], o)

def decodeCompact (buf : Bytes) : Reserving (CompiledMessage × Nat) := do
  let first ← byteAt buf 0 "empty message"
  let version := if first &&& 0x80 ≠ 0 then some (first &&& 0x7f) else none
  let o := if first &&& 0x80 ≠ 0 then 1 else 0
  let h ← take buf o 3 "header"
  let header := headerOf h
  let o := o + 3
  let (n, sz) ← shortvec buf o "account count"
  let o := o + sz
  reserve n
  let (staticAccounts, o) ← readMany readAccount n buf o
  let lifetimeToken ← take buf o 32 "lifetime token"
  let o := o + 32
  let (n, sz) ← shortvec buf o "instruction count"
  let o := o + sz
  reserve n
  let (instructions, o) ← readMany readInstruction n buf o
  let (addressTableLookups, o) ← readLookups version buf o
  return ({ version, header, staticAccounts, lifetimeToken, instructions,
            addressTableLookups }, o)

def decodeAt (buf : Bytes) : Reserving (CompiledMessage × Nat) :=
  if buf.head? = some 0x81 then decodeV1 buf else decodeCompact buf

def decodeMessage (buf : Bytes) : Reserving CompiledMessage := do
  let (message, _) ← decodeAt buf
  return message

end Reserve

end ShredStream
