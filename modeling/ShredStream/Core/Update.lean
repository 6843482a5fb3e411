import ShredStream.Core.Message

/-!
# Transaction Updates

The value both transports deliver: the slot, the raw transaction, and what
the transport says about it, with the accessors that locate the signatures.

Two accessors find signatures without decoding the message. `signature` is
the fast one and looks where the first signature has to be; `signatures`
returns the server's list when every entry of it has 64 bytes and otherwise
derives the list from the transaction. The derived list is computed once and
cached by the source; here it is a function.

The version-1 container keeps its signatures at the end, as many as its
second byte says. The other containers put a count and the signatures first,
and `decodeShortvec` reads that count: at most three bytes, and at most 16
bits, unlike the `shortvec` of the message decoder.

## Main definitions

* `Signature`: Sixty-four bytes.
* `TransactionUpdate`: A delivered transaction.
* `decodeShortvec`: The signature count.
* `deriveSignatures`: The signatures found in a serialized transaction.
* `signature`, `signatures`, `parse`: The accessors.
-/

namespace ShredStream

/-- A 64-byte signature, stored as received. -/
@[ext]
structure Signature where
  bytes : Bytes
  size : bytes.length = 64
  deriving DecidableEq

namespace Signature

/-- Sixty-four zero bytes. -/
def zero : Signature := ⟨List.replicate 64 0, by simp only [List.length_replicate]⟩

/-- The slice of 64 bytes at `start`, which lies inside the buffer. -/
def slice (bytes : Bytes) (start : Nat) (h : start + 64 ≤ bytes.length) : Signature :=
  ⟨(bytes.drop start).take 64, Cursor.length_window bytes start 64 h⟩

/-- `bytes.get(start..start + 64)`. -/
def get? (bytes : Bytes) (start : Nat) : Option Signature :=
  if h : start + 64 ≤ bytes.length then some (slice bytes start h) else none

/-- A byte string as a signature, if it has the right length. -/
def ofBytes? (bytes : Bytes) : Option Signature :=
  if h : bytes.length = 64 then some ⟨bytes, h⟩ else none

end Signature

/-- A point in time, in nanoseconds since the Unix epoch. -/
abbrev SystemTime := Nat

structure TransactionUpdate where
  slot : UInt64
  bytes : Bytes
  providedSignatures : List Bytes
  filters : List String
  createdAt : Option SystemTime
  receivedAt : SystemTime
  deriving DecidableEq

namespace Update

open Message

/-- The loop of `decode_shortvec` over the first three bytes. -/
def decodeShortvecLoop : Bytes → Nat → Nat → Option (Nat × Nat)
  | [], _, _ => none
  | byte :: rest, i, value =>
    let value := value ||| (byte &&& 0x7F).toNat <<< (7 * i)
    if byte &&& 0x80 = 0 then
      -- A third byte has room for the top two bits of 16.
      if i = 2 ∧ byte > 0x03 then none else some (value, i + 1)
    else decodeShortvecLoop rest (i + 1) value

def decodeShortvec (buf : Bytes) : Option (Nat × Nat) :=
  decodeShortvecLoop (buf.take 3) 0 0

/-- The loop over the announced signatures, which stops at the first one that
    does not fit. `left` of them are still to come, from the `i`-th on. -/
def collectSignatures (bytes : Bytes) (prefixLen : Nat) : Nat → Nat → List Signature
  | 0, _ => []
  | left + 1, i =>
    if h : prefixLen + i * 64 + 64 ≤ bytes.length then
      Signature.slice bytes (prefixLen + i * 64) h :: collectSignatures bytes prefixLen left (i + 1)
    else []

def deriveSignatures (bytes : Bytes) : List Signature :=
  if bytes.head? = some 0x81 then
    let n := (bytes[1]?.getD 0).toNat
    if h : 64 * n ≤ bytes.length then
      (List.finRange n).map fun i =>
        Signature.slice bytes (bytes.length - 64 * n + 64 * i.val)
          (by have hi : i.val < n := i.isLt; omega)
    else []
  else match decodeShortvec bytes with
    | none => []
    | some (count, prefixLen) => collectSignatures bytes prefixLen count 0

end Update

namespace TransactionUpdate

open Message Update

def signature (u : TransactionUpdate) : Signature :=
  let b := u.bytes
  let view :=
    if b.head? = some 0x81 then
      let n := (b[1]?.getD 0).toNat
      (checkedSub b.length (64 * n)).bind (Signature.get? b)
    else Signature.get? b 1
  view.getD Signature.zero

def signatures (u : TransactionUpdate) : List Signature :=
  if u.providedSignatures ≠ [] then
    match u.providedSignatures.mapM Signature.ofBytes? with
    | some provided => provided
    | none => deriveSignatures u.bytes
  else deriveSignatures u.bytes

def parse (u : TransactionUpdate) : Result CompiledMessage := do
  decodeMessage (← messageBytes u.bytes)

end TransactionUpdate

end ShredStream
