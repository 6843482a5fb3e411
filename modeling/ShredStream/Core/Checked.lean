import ShredStream.Core.Frame
import ShredStream.Lib.Panic

/-!
# The Receive Path and its Panics

The functions that touch bytes from the network once more, with every place
where the source can panic written out: each index and slice, each conversion
that is unwrapped, each sum, difference, product and shift, each copy into a
signature and each vector whose capacity comes from the input. The functions
of the same names in the other modules say what is computed; these say what
could go wrong on the way.

Slices with `get`, conversions with `checked_sub` or `ok`, and shifts of a word
by a constant below its width cannot panic and are as they are elsewhere. The
callback of a notice is the caller's code and is left out. A capacity is checked
in bytes, with the sizes the elements have on a 64-bit target: 16 for a slice,
40 for an instruction, 48 for a lookup, 64 for a signature.

## Main definitions

* `shortvec`, `take`: The readers of `message.rs`.
* `decodeV1`, `decodeCompact`, `decodeMessage`, `messageBytes`: The decoder.
* `decodeShortvec`, `deriveSignatures`: The readers of `update.rs`.
* `signature`, `signatures`, `parse`: The accessors.
* `parseHeader`, `complete`, `push`: The frame decoder.
* `receive`: Feeding datagrams one after the other.
-/

namespace ShredStream

namespace Checked

open MayPanic Codec

/-- What refuses a message with an error, and may panic. -/
abbrev Result := ExceptT MessageDecodeError MayPanic

/-- `xs[i]`, for bytes. -/
def byte (xs : Bytes) (i : Nat) : MayPanic UInt8 := index xs i

/-! ### Messages -/

/-- The loop of `shortvec`. -/
def shortvecLoop (buf : Bytes) (what : String) (start : Nat) :
    Nat → Nat → Nat → Nat → Result (Nat × Nat)
  | 0, _, _, _ => liftM (.error .unbounded : MayPanic (Nat × Nat))
  | rounds + 1, value, shift, o => match buf[o]? with
    | none => throw ⟨what⟩
    | some b => do
      let o ← add o 1
      let group ← shl (b &&& 0x7f).toNat shift
      let value := value ||| group
      if b &&& 0x80 = 0 then
        let sz ← sub o start
        return (value, sz)
      else
        let shift ← addU32 shift 7
        if shift > 21 then throw ⟨what⟩
        else shortvecLoop buf what start rounds value shift o

def shortvec (buf : Bytes) (offset : Nat) (what : String) : Result (Nat × Nat) :=
  shortvecLoop buf what offset 4 0 0 offset

def take (buf : Bytes) (offset len : Nat) (what : String) : Result Bytes := do
  let stop ← add offset len
  match get buf offset stop with
  | some w => return w
  | none => throw ⟨what⟩

/-- `*buf.get(offset).ok_or(..)?`. -/
def byteAt (buf : Bytes) (offset : Nat) (what : String) : Result UInt8 :=
  match buf[offset]? with
  | some b => return b
  | none => throw ⟨what⟩

/-- `h[0]`, `h[1]`, `h[2]`. -/
def headerOf (h : Bytes) : MayPanic MessageHeader := do
  let numRequiredSignatures ← byte h 0
  let numReadonlySigned ← byte h 1
  let numReadonlyUnsigned ← byte h 2
  return { numRequiredSignatures, numReadonlySigned, numReadonlyUnsigned }

def readAccount (buf : Bytes) (o : Nat) : Result (Bytes × Nat) := do
  let account ← take buf o 32 "static accounts"
  let o ← add o 32
  return (account, o)

def configLen (mask : Nat) : MayPanic Nat := do
  let price := if mask &&& 0b11 = 0b11 then 8 else 0
  let limit ← mul 4 ((mask >>> 2) &&& 1)
  let cfg ← add price limit
  let size ← mul 4 ((mask >>> 3) &&& 1)
  let cfg ← add cfg size
  let heap ← mul 4 ((mask >>> 4) &&& 1)
  add cfg heap

/-- The loop over the instruction headers. -/
def readPayloads (buf : Bytes) : List Bytes → Nat → Result (List CompiledInstruction × Nat)
  | [], o => return ([], o)
  | h :: hs, o => do
    let na ← byte h 1
    let low ← byte h 2
    let high ← byte h 3
    let nd := leNat [low, high]
    let accountIndices ← take buf o na.toNat "instruction accounts"
    let o ← add o na.toNat
    let data ← take buf o nd "instruction data"
    let o ← add o nd
    let programIndex ← byte h 0
    let (instructions, o) ← readPayloads buf hs o
    return ({ programIndex, accountIndices, data } :: instructions, o)

def decodeV1 (buf : Bytes) : Result (CompiledMessage × Nat) := do
  let h ← take buf 1 3 "header"
  let header ← headerOf h
  let mask ← take buf 4 4 "config mask"
  let mask ← tryInto 4 mask
  let mask := leNat mask.1
  let lifetimeToken ← take buf 8 32 "lifetime token"
  let nInstr ← byteAt buf 40 "instruction count"
  let nKeys ← byteAt buf 41 "account count"
  let o := 42
  reserve nKeys.toNat 16
  let (staticAccounts, o) ← many readAccount nKeys.toNat buf o
  let cfg ← configLen mask
  let _ ← take buf o cfg "config values"
  let o ← add o cfg
  let len ← mul 4 nInstr.toNat
  let headers ← take buf o len "instruction headers"
  let len ← mul 4 nInstr.toNat
  let o ← add o len
  reserve nInstr.toNat 40
  let (instructions, o) ← readPayloads buf (chunksExact 4 headers) o
  return ({ version := some 1, header, staticAccounts, lifetimeToken, instructions,
            addressTableLookups := [] }, o)

def readInstruction (buf : Bytes) (o : Nat) : Result (CompiledInstruction × Nat) := do
  let programIndex ← byteAt buf o "program index"
  let o ← add o 1
  let (na, sz) ← shortvec buf o "instruction account count"
  let o ← add o sz
  let accountIndices ← take buf o na "instruction accounts"
  let o ← add o na
  let (nd, sz) ← shortvec buf o "instruction data length"
  let o ← add o sz
  let data ← take buf o nd "instruction data"
  let o ← add o nd
  return ({ programIndex, accountIndices, data }, o)

def readLookup (buf : Bytes) (o : Nat) : Result (AddressTableLookup × Nat) := do
  let tableAddress ← take buf o 32 "lookup table address"
  let o ← add o 32
  let (nw, sz) ← shortvec buf o "writable index count"
  let o ← add o sz
  let writableIndexes ← take buf o nw "writable indexes"
  let o ← add o nw
  let (nr, sz) ← shortvec buf o "readonly index count"
  let o ← add o sz
  let readonlyIndexes ← take buf o nr "readonly indexes"
  let o ← add o nr
  return ({ tableAddress, writableIndexes, readonlyIndexes }, o)

def readLookups (version : Option UInt8) (buf : Bytes) (o : Nat) :
    Result (List AddressTableLookup × Nat) :=
  if version.isSome then do
    let (n, sz) ← shortvec buf o "lookup count"
    let o ← add o sz
    reserve n 48
    many readLookup n buf o
  else return ([], o)

def decodeCompact (buf : Bytes) : Result (CompiledMessage × Nat) := do
  let first ← byteAt buf 0 "empty message"
  let version := if first &&& 0x80 ≠ 0 then some (first &&& 0x7f) else none
  let o := if first &&& 0x80 ≠ 0 then 1 else 0
  let h ← take buf o 3 "header"
  let header ← headerOf h
  let o ← add o 3
  let (n, sz) ← shortvec buf o "account count"
  let o ← add o sz
  reserve n 16
  let (staticAccounts, o) ← many readAccount n buf o
  let lifetimeToken ← take buf o 32 "lifetime token"
  let o ← add o 32
  let (n, sz) ← shortvec buf o "instruction count"
  let o ← add o sz
  reserve n 40
  let (instructions, o) ← many readInstruction n buf o
  let (addressTableLookups, o) ← readLookups version buf o
  return ({ version, header, staticAccounts, lifetimeToken, instructions,
            addressTableLookups }, o)

def decodeAt (buf : Bytes) : Result (CompiledMessage × Nat) :=
  if buf.head? = some 0x81 then decodeV1 buf else decodeCompact buf

def decodeMessage (buf : Bytes) : Result CompiledMessage := do
  let (message, _) ← decodeAt buf
  return message

def messageBytes (tx : Bytes) : Result Bytes :=
  if tx.head? = some 0x81 then do
    let n ← byteAt tx 1 "header"
    let len ← mul 64 n.toNat
    match (Message.checkedSub tx.length len).filter (fun e => 42 ≤ e) with
    | some e => slice tx 0 e
    | none => throw ⟨"signatures do not fit"⟩
  else do
    let (n, sz) ← shortvec tx 0 "signature count"
    let len ← mul n 64
    let start ← add sz len
    match get tx start tx.length with
    | some message => return message
    | none => throw ⟨"signatures do not fit"⟩

/-! ### Updates -/

/-- The loop of `decode_shortvec` over the first three bytes. -/
def decodeShortvecLoop : Bytes → Nat → Nat → MayPanic (Option (Nat × Nat))
  | [], _, _ => return none
  | byte :: rest, i, value => do
    let shift ← mul 7 i
    let group ← shl (byte &&& 0x7F).toNat shift
    let value := value ||| group
    if byte &&& 0x80 = 0 then
      if i = 2 ∧ byte > 0x03 then return none
      else
        let len ← add i 1
        return some (value, len)
    else decodeShortvecLoop rest (i + 1) value

def decodeShortvec (buf : Bytes) : MayPanic (Option (Nat × Nat)) :=
  decodeShortvecLoop (buf.take 3) 0 0

/-- The loop over the announced signatures. -/
def collectSignatures (bytes : Bytes) (prefixLen : Nat) : Nat → Nat → MayPanic (List Signature)
  | 0, _ => return []
  | left + 1, i => do
    let offset ← mul i 64
    let start ← add prefixLen offset
    let stop ← add start 64
    match get bytes start stop with
    | none => return []
    | some chunk => do
      let s ← tryInto 64 chunk
      let rest ← collectSignatures bytes prefixLen left (i + 1)
      return ⟨s.1, s.2⟩ :: rest

/-- The signature at the end of a version-1 container. -/
def signatureAt (bytes : Bytes) (start i : Nat) : MayPanic Signature := do
  let offset ← mul 64 i
  let a ← add start offset
  let next ← add i 1
  let offset ← mul 64 next
  let b ← add start offset
  let chunk ← slice bytes a b
  let s ← tryInto 64 chunk
  return ⟨s.1, s.2⟩

def deriveSignatures (bytes : Bytes) : MayPanic (List Signature) := do
  if bytes.head? = some 0x81 then
    let n := (bytes[1]?.getD 0).toNat
    let len ← mul 64 n
    match Message.checkedSub bytes.length len with
    | none => return []
    | some start => (List.range n).mapM (signatureAt bytes start)
  else match ← decodeShortvec bytes with
    | none => return []
    | some (count, prefixLen) => do
      reserve (min count 64) 64
      collectSignatures bytes prefixLen count 0

/-- Where `signature` looks. -/
def signatureView (b : Bytes) : MayPanic (Option Bytes) := do
  if b.head? = some 0x81 then
    let n := (b[1]?.getD 0).toNat
    let len ← mul 64 n
    match Message.checkedSub b.length len with
    | none => return none
    | some start => do
      let stop ← add start 64
      return get b start stop
  else return get b 1 65

def signature (u : TransactionUpdate) : MayPanic Signature := do
  match ← signatureView u.bytes with
  | none => return Signature.zero
  | some view => do
    let s ← copyFromSlice 64 view
    return ⟨s.1, s.2⟩

def signatures (u : TransactionUpdate) : MayPanic (List Signature) :=
  if u.providedSignatures ≠ [] then
    match u.providedSignatures.mapM Signature.ofBytes? with
    | some provided => return provided
    | none => deriveSignatures u.bytes
  else deriveSignatures u.bytes

def parse (u : TransactionUpdate) : Result CompiledMessage := do
  let message ← messageBytes u.bytes
  decodeMessage message

/-! ### Frames -/

/-- `u64::from_le_bytes(xs[a..b].try_into().unwrap())`. -/
def u64At (xs : Bytes) (a b : Nat) : MayPanic UInt64 := do
  let chunk ← slice xs a b
  let word ← tryInto 8 chunk
  return u64OfLe word.1

def parseHeader (buf : Bytes) : ExceptT FrameError MayPanic FrameHeader := do
  if buf.length < frameHeaderLen then throw .tooShort
  else
    let low ← byte buf 0
    let high ← byte buf 1
    if leNat [low, high] ≠ frameMagic then throw .badMagic
    else
      let version ← byte buf 2
      if version ≠ frameVersion then throw .unsupportedVersion
      else
        let version ← byte buf 2
        let msgType ← byte buf 3
        let flags ← byte buf 4
        let fragIndex ← byte buf 5
        let fragCount ← byte buf 6
        let seq ← u64At buf 8 16
        return { version, msgType, flags, fragIndex, fragCount, seq }

def complete (d : StreamDecoder) (now : SystemTime) (payload : Bytes) : MayPanic Pushed := do
  if payload.length < 8 then return d.reject .truncated
  else
    let slot ← u64At payload 0 8
    let tx ← slice payload 8 payload.length
    return {
      decoder := { d with stats :=
        { d.stats with messages := d.stats.messages + 1, lastSlot := slot } }
      result := .update
        { slot := slot, bytes := tx, providedSignatures := [], filters := [],
          createdAt := none, receivedAt := now }
      notices := [] }

/-- `push` of a transaction fragment, past the checks of its type. -/
def pushFragment (d : StreamDecoder) (now : SystemTime) (header : FrameHeader) (payload : Bytes) :
    MayPanic Pushed := do
  if header.fragCount = 1 then complete { d with reasm := .reset } now payload
  else if header.fragCount = 0 ∨ header.fragIndex ≥ header.fragCount then
    return d.reject .badFragment
  else if header.fragIndex = 0 then
    reserve payload.length 1
    return {
      decoder := { d with reasm :=
        { buf := payload, fragCount := header.fragCount, expectIndex := 1,
          lastSeq := header.seq, active := true } }
      result := .skipped
      notices := [] }
  else if d.reasm.active = false ∨ d.reasm.fragCount ≠ header.fragCount ∨
      header.fragIndex ≠ d.reasm.expectIndex ∨ header.seq ≠ d.reasm.lastSeq + 1 then
    return { d with reasm := .reset }.reject .badFragment
  else
    reserve (d.reasm.buf.length + payload.length) 1
    let buf := d.reasm.buf ++ payload
    let expectIndex ← addU8 d.reasm.expectIndex 1
    let next ← addU8 header.fragIndex 1
    if next = header.fragCount then complete { d with reasm := .reset } now buf
    else
      return {
        decoder := { d with reasm :=
          { d.reasm with buf := buf, lastSeq := header.seq, expectIndex := expectIndex } }
        result := .skipped
        notices := [] }

def push (d : StreamDecoder) (now : SystemTime) (datagram : Bytes) : MayPanic Pushed := do
  let d := { d with stats :=
    { d.stats with
      datagrams := d.stats.datagrams + 1
      bytes := d.stats.bytes + UInt64.ofNat datagram.length } }
  match ← (parseHeader datagram).run with
  | .error e => return d.reject e
  | .ok header =>
    if header.msgType ≠ msgTransaction then
      return {
        decoder := { d with stats :=
          { d.stats with skippedMsgType := d.stats.skippedMsgType + 1 } }
        result := .skipped
        notices := [] }
    else
      let payload ← slice datagram frameHeaderLen datagram.length
      pushFragment d now header payload

/-- The decoder and the updates it has yielded, after pushing datagrams one
    after the other. -/
def receive (d : StreamDecoder) :
    List StreamDecoder.Arrival → MayPanic (StreamDecoder × List TransactionUpdate)
  | [] => return (d, [])
  | a :: arrivals => do
    let p ← push d a.now a.datagram
    let (d, us) ← receive p.decoder arrivals
    match p.result with
    | .update u => return (d, u :: us)
    | _ => return (d, us)

end Checked

end ShredStream
