import ShredStream.Core.Frame

/-!
# One Push

Everything a push can do, said once. `Pushes` has one constructor for each
way through `push`, with the tests that lead there, and the result. What a
push does to the reassembler, to the counters and to its caller is read off
by cases.

## Main definitions

* `payload`, `updateOf`: What a frame carries, and the update made of it.
* `Pushes`: The ways through a push.

## Theorems

* `unbroken_iff`: When a fragment continues the set.
* `push_pushes`: A push goes one of these ways.
* `complete_result`: Which payloads make an update.
* `push_messages`: Updates are counted as they are produced.
-/

namespace ShredStream

namespace Codec

/-- The bytes after the header. -/
def payload (datagram : Bytes) : Bytes := datagram.drop frameHeaderLen

/-- The update made of a reassembled payload. -/
def updateOf (now : SystemTime) (payload : Bytes) : TransactionUpdate where
  slot := u64OfLe (payload.take 8)
  bytes := payload.drop 8
  providedSignatures := []
  filters := []
  createdAt := none
  receivedAt := now

/-- What the source's test of the index leaves. -/
theorem lt_of_fit {index count : UInt8} (h : ¬ (count = 0 ∨ index ≥ count)) : index < count :=
  UInt8.not_le.mp (fun hge => h (Or.inr hge))

/-- An index below a count can be incremented. -/
theorem toNat_succ_of_lt (a b : UInt8) (h : a < b) : (a + 1).toNat = a.toNat + 1 := by
  have hb := UInt8.toNat_lt b
  rw [UInt8.lt_iff_toNat_lt] at h
  rw [UInt8.toNat_add, UInt8.toNat_one]
  omega

namespace StreamDecoder

/-- The decoder with one more datagram counted. -/
def counted (d : StreamDecoder) (b : Bytes) : StreamDecoder :=
  { d with stats :=
    { d.stats with
      datagrams := d.stats.datagrams + 1
      bytes := d.stats.bytes + UInt64.ofNat b.length } }

/-- The later fragment does not continue the set. -/
def Broken (r : Reassembler) (header : FrameHeader) : Prop :=
  r.active = false ∨ r.fragCount ≠ header.fragCount ∨ header.fragIndex ≠ r.expectIndex ∨
    header.seq ≠ r.lastSeq + 1

/-- A fragment that breaks nothing continues the set in every respect. -/
theorem unbroken_iff (r : Reassembler) (header : FrameHeader) : ¬ Broken r header ↔
    r.active = true ∧ r.fragCount = header.fragCount ∧ header.fragIndex = r.expectIndex ∧
      header.seq = r.lastSeq + 1 := by
  simp only [Broken, not_or, Bool.not_eq_false, ne_eq, not_not]

/-- A fragment that passes the test of its index leaves room for one more. -/
theorem next_index (header : FrameHeader)
    (hfit : ¬ (header.fragCount = 0 ∨ header.fragIndex ≥ header.fragCount)) :
    header.fragIndex.toNat + 1 < 256 := by
  have hcount := header.fragCount.toNat_lt
  have hindex := UInt8.lt_iff_toNat_lt.mp (lt_of_fit hfit)
  omega

/-- Everything a push can do, one constructor for each way through it. -/
inductive Pushes (d : StreamDecoder) (now : SystemTime) (b : Bytes) : Pushed → Prop where
  | rejected (e : FrameError) (h : parseHeader b = .error e) :
      Pushes d now b ((d.counted b).reject e)
  | other (header : FrameHeader) (h : parseHeader b = .ok header)
      (hm : header.msgType ≠ msgTransaction) :
      Pushes d now b
        { decoder := { d.counted b with stats :=
            { (d.counted b).stats with skippedMsgType := d.stats.skippedMsgType + 1 } }
          result := .skipped
          notices := [] }
  | lone (header : FrameHeader) (h : parseHeader b = .ok header)
      (hm : header.msgType = msgTransaction) (h1 : header.fragCount = 1) :
      Pushes d now b ({ d.counted b with reasm := .reset }.complete now (payload b))
  | misfit (header : FrameHeader) (h : parseHeader b = .ok header)
      (hm : header.msgType = msgTransaction) (h1 : header.fragCount ≠ 1)
      (hbad : header.fragCount = 0 ∨ header.fragIndex ≥ header.fragCount) :
      Pushes d now b ((d.counted b).reject .badFragment)
  | first (header : FrameHeader) (h : parseHeader b = .ok header)
      (hm : header.msgType = msgTransaction) (h1 : header.fragCount ≠ 1)
      (hfit : ¬ (header.fragCount = 0 ∨ header.fragIndex ≥ header.fragCount))
      (h0 : header.fragIndex = 0) :
      Pushes d now b
        { decoder := { d.counted b with reasm :=
            { buf := payload b, fragCount := header.fragCount, expectIndex := 1,
              lastSeq := header.seq, active := true } }
          result := .skipped
          notices := [] }
  | broken (header : FrameHeader) (h : parseHeader b = .ok header)
      (hm : header.msgType = msgTransaction) (h1 : header.fragCount ≠ 1)
      (hfit : ¬ (header.fragCount = 0 ∨ header.fragIndex ≥ header.fragCount))
      (h0 : header.fragIndex ≠ 0) (hb : Broken d.reasm header) :
      Pushes d now b ({ d.counted b with reasm := .reset }.reject .badFragment)
  | last (header : FrameHeader) (h : parseHeader b = .ok header)
      (hm : header.msgType = msgTransaction) (h1 : header.fragCount ≠ 1)
      (hfit : ¬ (header.fragCount = 0 ∨ header.fragIndex ≥ header.fragCount))
      (h0 : header.fragIndex ≠ 0) (hb : ¬ Broken d.reasm header)
      (hl : header.fragIndex + 1 = header.fragCount) :
      Pushes d now b
        ({ d.counted b with reasm := .reset }.complete now (d.reasm.buf ++ payload b))
  | more (header : FrameHeader) (h : parseHeader b = .ok header)
      (hm : header.msgType = msgTransaction) (h1 : header.fragCount ≠ 1)
      (hfit : ¬ (header.fragCount = 0 ∨ header.fragIndex ≥ header.fragCount))
      (h0 : header.fragIndex ≠ 0) (hb : ¬ Broken d.reasm header)
      (hl : header.fragIndex + 1 ≠ header.fragCount) :
      Pushes d now b
        { decoder := { d.counted b with reasm :=
            { d.reasm with
              buf := d.reasm.buf ++ payload b, lastSeq := header.seq,
              expectIndex := d.reasm.expectIndex + 1 } }
          result := .skipped
          notices := [] }

/-- A push does one of these things. -/
theorem push_pushes (d : StreamDecoder) (now : SystemTime) (b : Bytes) :
    Pushes d now b (d.push now b) := by
  unfold push
  rcases h : parseHeader b with e | header
  · exact .rejected e h
  simp only
  -- The tests in the order of the source; each constructor keeps the failed ones.
  split
  · exact .other header h ‹_›
  have hm : header.msgType = msgTransaction := by
    simpa only [ne_eq, not_not] using ‹¬ header.msgType ≠ msgTransaction›
  split
  · exact .lone header h hm ‹_›
  split
  · exact .misfit header h hm ‹_› ‹_›
  split
  · exact .first header h hm ‹_› ‹_› ‹_›
  split
  · exact .broken header h hm ‹_› ‹_› ‹_› ‹_›
  split
  · exact .last header h hm ‹_› ‹_› ‹_› ‹_› ‹_›
  · exact .more header h hm ‹_› ‹_› ‹_› ‹_› ‹_›

/-- A payload makes an update exactly when it has room for the slot. -/
theorem complete_result (d : StreamDecoder) (now : SystemTime) (whole : Bytes)
    (u : TransactionUpdate) :
    (d.complete now whole).result = .update u ↔ 8 ≤ whole.length ∧ u = updateOf now whole := by
  unfold complete
  by_cases h : whole.length < 8
  · simp only [h, if_true, reject, reduceCtorEq, false_iff, not_and]
    omega
  · simp only [h, if_false, Push.update.injEq, updateOf]
    constructor
    · exact fun hu => ⟨by omega, hu.symm⟩
    · exact fun hu => hu.2.symm

@[simp] theorem complete_reasm (d : StreamDecoder) (now : SystemTime) (whole : Bytes) :
    (d.complete now whole).decoder.reasm = d.reasm := by
  unfold complete
  split <;> rfl

@[simp] theorem reject_result (d : StreamDecoder) (e : FrameError) :
    (d.reject e).result = .error e := rfl

/-- The number of updates in a result. -/
def produced : Push → Nat
  | .update _ => 1
  | _ => 0

/-- An update is counted when it is produced, and never later; a push leaves
    the count of dropped updates to its caller. -/
theorem push_messages (d : StreamDecoder) (now : SystemTime) (b : Bytes) :
    (d.push now b).decoder.stats.messages
        = d.stats.messages + UInt64.ofNat (produced (d.push now b).result) ∧
      (d.push now b).decoder.stats.queueDropped = d.stats.queueDropped := by
  have hcomplete : ∀ (d' : StreamDecoder) (whole : Bytes),
      (d'.complete now whole).decoder.stats.messages
          = d'.stats.messages + UInt64.ofNat (produced (d'.complete now whole).result) ∧
        (d'.complete now whole).decoder.stats.queueDropped = d'.stats.queueDropped := by
    intro d' whole
    unfold complete
    split
    · exact ⟨(UInt64.add_zero _).symm, rfl⟩
    · exact ⟨rfl, rfl⟩
  have hp := push_pushes d now b
  generalize d.push now b = r at hp ⊢
  -- Only the two ways through `complete` can produce an update.
  cases hp with
  | rejected | other | misfit | first | broken | more => exact ⟨(UInt64.add_zero _).symm, rfl⟩
  | lone | last => exact hcomplete _ _

end StreamDecoder

end Codec

end ShredStream
