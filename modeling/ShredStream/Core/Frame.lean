import ShredStream.Core.Telemetry
import ShredStream.Core.Update

/-!
# UDP Framing

One datagram is one frame: a 16-byte header and a payload. `parseHeader`
reads the header, and a `StreamDecoder` turns the datagrams pushed into it
into transaction updates, putting fragmented transactions back together.

The reassembler keeps one fragment set at a time. A first fragment always
starts a new set; a later fragment has to continue the set exactly — same
count, next index, next sequence number — or the set is given up.

`push` returns the new decoder, the result, and the notices fired on the way.
The clock is read once, in `complete`, and is an argument.

## Main definitions

* `parseHeader`: The header of a frame, or why there is none.
* `Reassembler`: The fragment set in progress.
* `StreamDecoder`: The counters and the reassembler.
* `StreamDecoder.push`: Feeding one datagram.
* `StreamDecoder.pushAll`: Feeding datagrams one after the other.
-/

namespace ShredStream

namespace Codec

def frameMagic : Nat := 0x5AE7
def frameVersion : UInt8 := 2
def frameHeaderLen : Nat := 16
def maxDatagram : Nat := 1408
def msgEvent : UInt8 := 1
def msgTransaction : UInt8 := 2

structure FrameHeader where
  version : UInt8
  msgType : UInt8
  flags : UInt8
  fragIndex : UInt8
  fragCount : UInt8
  seq : UInt64
  deriving DecidableEq, Repr

inductive FrameError where
  | tooShort
  | badMagic
  | unsupportedVersion
  | truncated
  | badFragment
  deriving DecidableEq, Repr

def FrameError.code : FrameError → String
  | .tooShort => "too_short"
  | .badMagic => "bad_magic"
  | .unsupportedVersion => "unsupported_version"
  | .truncated => "truncated"
  | .badFragment => "bad_fragment"

/-- `u64::from_le_bytes`. -/
def u64OfLe (bs : Bytes) : UInt64 := UInt64.ofNat (leNat bs)

/-- The indexing is in range: the length is checked first. -/
def parseHeader (buf : Bytes) : Except FrameError FrameHeader :=
  if buf.length < frameHeaderLen then .error .tooShort
  else if leNat (buf.take 2) ≠ frameMagic then .error .badMagic
  else if buf.getD 2 0 ≠ frameVersion then .error .unsupportedVersion
  else .ok
    { version := buf.getD 2 0
      msgType := buf.getD 3 0
      flags := buf.getD 4 0
      fragIndex := buf.getD 5 0
      fragCount := buf.getD 6 0
      seq := u64OfLe ((buf.drop 8).take 8) }

inductive Push where
  | update (u : TransactionUpdate)
  | skipped
  | error (e : FrameError)
  deriving DecidableEq

structure Reassembler where
  buf : Bytes := []
  fragCount : UInt8 := 0
  expectIndex : UInt8 := 0
  lastSeq : UInt64 := 0
  active : Bool := false
  deriving DecidableEq, Repr

/-- `reset` clears every field, whatever the state was. -/
def Reassembler.reset : Reassembler := {}

structure StreamDecoder where
  stats : Stats := {}
  reasm : Reassembler := {}
  deriving DecidableEq, Repr

/-- What one `push` leaves behind, returns and fires. -/
structure Pushed where
  decoder : StreamDecoder
  result : Push
  notices : List Notice

namespace StreamDecoder

/-- The decoder before any datagram. -/
def new : StreamDecoder := {}

/-- Count a decode error, fire its notice and return the error. -/
def reject (d : StreamDecoder) (e : FrameError) : Pushed where
  decoder := { d with stats := { d.stats with decodeErrors := d.stats.decodeErrors + 1 } }
  result := .error e
  notices := [.decodeError]

/-- Turn a whole payload into an update. -/
def complete (d : StreamDecoder) (now : SystemTime) (payload : Bytes) : Pushed :=
  if payload.length < 8 then d.reject .truncated
  else
    let slot := u64OfLe (payload.take 8)
    let tx := payload.drop 8
    { decoder := { d with stats :=
        { d.stats with messages := d.stats.messages + 1, lastSlot := slot } }
      result := .update
        { slot := slot, bytes := tx, providedSignatures := [], filters := [],
          createdAt := none, receivedAt := now }
      notices := [] }

def push (d : StreamDecoder) (now : SystemTime) (datagram : Bytes) : Pushed :=
  let d := { d with stats :=
    { d.stats with
      datagrams := d.stats.datagrams + 1
      bytes := d.stats.bytes + UInt64.ofNat datagram.length } }
  match parseHeader datagram with
  | .error e => d.reject e
  | .ok header =>
    if header.msgType ≠ msgTransaction then
      { decoder := { d with stats :=
          { d.stats with skippedMsgType := d.stats.skippedMsgType + 1 } }
        result := .skipped
        notices := [] }
    else
      let payload := datagram.drop frameHeaderLen
      -- A lone fragment is a whole payload, whatever its index says.
      if header.fragCount = 1 then
        { d with reasm := .reset }.complete now payload
      else if header.fragCount = 0 ∨ header.fragIndex ≥ header.fragCount then
        d.reject .badFragment
      -- A first fragment starts a set, even in the middle of another.
      else if header.fragIndex = 0 then
        { decoder := { d with reasm :=
            { buf := payload, fragCount := header.fragCount, expectIndex := 1,
              lastSeq := header.seq, active := true } }
          result := .skipped
          notices := [] }
      -- The set is given up, and the fragment that broke it with it.
      else if d.reasm.active = false ∨ d.reasm.fragCount ≠ header.fragCount ∨
          header.fragIndex ≠ d.reasm.expectIndex ∨ header.seq ≠ d.reasm.lastSeq + 1 then
        { d with reasm := .reset }.reject .badFragment
      else
        let buf := d.reasm.buf ++ payload
        if header.fragIndex + 1 = header.fragCount then
          { d with reasm := .reset }.complete now buf
        else
          { decoder := { d with reasm :=
              { d.reasm with
                buf := buf, lastSeq := header.seq, expectIndex := d.reasm.expectIndex + 1 } }
            result := .skipped
            notices := [] }

/-- A datagram and the time the clock shows when it is decoded. -/
structure Arrival where
  now : SystemTime
  datagram : Bytes
  deriving DecidableEq

/-- The decoder after pushing datagrams one after the other. -/
def pushAll (d : StreamDecoder) (arrivals : List Arrival) : StreamDecoder :=
  arrivals.foldl (fun d a => (d.push a.now a.datagram).decoder) d

end StreamDecoder

end Codec

end ShredStream
