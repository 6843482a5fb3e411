import ShredStream.Theory.Frame.Sender
import ShredStream.Theory.Grpc.Delivery

/-!
# One Transaction, Two Transports

Both transports build the same public type, each with its own code: the gRPC
client out of a response, the decoder out of a datagram. A user who changes
the transport should not see another transaction, nor other counters.

For a transaction with any bytes at all that is so, from every state of
either. They part on the transaction of no bytes. `to_update` takes it for a
response without a transaction and counts an error; `push` makes an update of
it, since a payload is whole when it has room for the slot.

## Main definitions

* `Codec.Lone`: A frame that carries a transaction unfragmented.
* `responseOf`: The response that carries it.
* `Alike`: What a user can see of two updates but for the times and filters.
* `Agree`: The two transports say the same.

## Theorems

* `push_lone`: An unfragmented transaction is an update, in any state.
* `toUpdate_response`: What the client makes of the response.
* `agree_iff`: The transports agree on every transaction but the empty one.
* `emptyFrame_disagree`: On that one they do not.
-/

namespace ShredStream

open Codec Grpc GrpcClient Proto

/-- A transaction frame of one fragment. -/
def Codec.Lone (tx : Transaction) (datagram : Bytes) : Prop :=
  ∃ header, parseHeader datagram = .ok header ∧ header.msgType = msgTransaction ∧
    header.fragCount = 1 ∧ payload datagram = tx.wire

/-- A response with the transaction and no signatures of the server's. -/
def responseOf (tx : Transaction) (filters : List String) (createdAt : Option Timestamp) :
    SubscribeBinaryTransactionsResponse where
  filters := filters
  transaction := some
    { transaction := some { signatures := [], binaryTransaction := tx.bytes }, slot := tx.slot }
  createdAt := createdAt

/-- The accessors that describe the transaction give the same. -/
structure Alike (u v : TransactionUpdate) : Prop where
  slot : u.slot = v.slot
  bytes : u.bytes = v.bytes
  signature : u.signature = v.signature
  signatures : u.signatures = v.signatures
  parse : u.parse = v.parse

/-- One more message, of the given slot. -/
structure Stats.Delivered (s s' : Stats) (slot : UInt64) : Prop where
  messages : s'.messages = s.messages + 1
  lastSlot : s'.lastSlot = slot

/-- One more decode error, and no message. -/
structure Stats.Refused (s s' : Stats) : Prop where
  decodeErrors : s'.decodeErrors = s.decodeErrors + 1
  messages : s'.messages = s.messages
  lastSlot : s'.lastSlot = s.lastSlot

/-- What `c` makes of a response and what `d` makes of a datagram mean the
    same: an update of the slot on both sides or on none, and counters that
    say so. -/
structure Agree (c : GrpcClient) (r : GrpcClient × Option TransactionUpdate) (d : StreamDecoder)
    (p : Pushed) (slot : UInt64) : Prop where
  both : (∃ u, r.2 = some u) ↔ ∃ v, p.result = .update v
  same : ∀ u v, r.2 = some u → p.result = .update v → Alike u v ∧ u.slot = slot ∧
    c.stats.Delivered r.1.stats slot ∧ d.stats.Delivered p.decoder.stats slot
  neither : r.2 = none → (∀ v, p.result ≠ .update v) →
    c.stats.Refused r.1.stats ∧ d.stats.Refused p.decoder.stats

/-- Updates of one slot and one byte string without signatures of the server's
    are alike. -/
theorem alike_of_eq (u v : TransactionUpdate) (hslot : u.slot = v.slot) (hbytes : u.bytes = v.bytes)
    (hu : u.providedSignatures = []) (hv : v.providedSignatures = []) : Alike u v where
  slot := hslot
  bytes := hbytes
  signature := by simp only [TransactionUpdate.signature, hbytes]
  signatures := by simp only [TransactionUpdate.signatures, hbytes, hu, hv]
  parse := by simp only [TransactionUpdate.parse, hbytes]

/-- A frame of one fragment is completed at once, whatever set was in
    progress. -/
theorem push_lone (d : StreamDecoder) (now : SystemTime) (tx : Transaction) (datagram : Bytes)
    (h : Lone tx datagram) : d.push now datagram
      = StreamDecoder.complete { d.counted datagram with reasm := .reset } now tx.wire := by
  rcases h with ⟨header, hheader, hm, h1, hpayload⟩
  rw [← hpayload]
  unfold StreamDecoder.push
  simp only [hheader, hm, ne_eq, not_true_eq_false, if_false, h1, if_true]
  rfl

/-- So it makes an update, which is counted. -/
theorem push_lone_update (d : StreamDecoder) (now : SystemTime) (tx : Transaction)
    (datagram : Bytes) (h : Lone tx datagram) :
    (d.push now datagram).result = .update (updateOf now tx.wire) ∧
      d.stats.Delivered (d.push now datagram).decoder.stats tx.slot := by
  -- The slot alone takes eight bytes.
  have hroom : ¬ tx.wire.length < 8 := by
    rw [Transaction.wire, List.length_append, length_leBytes]
    omega
  rw [push_lone d now tx datagram h, StreamDecoder.complete, if_neg hroom]
  exact ⟨rfl, rfl, (updateOf_wire now tx).1⟩

/-- The client makes an update of the response, and counts it, unless the
    transaction is empty. -/
theorem toUpdate_response (c : GrpcClient) (receivedAt : SystemTime) (tx : Transaction)
    (filters : List String) (createdAt : Option Timestamp) (h : tx.bytes ≠ []) :
    ∃ u, (c.toUpdate receivedAt (responseOf tx filters createdAt)).2 = some u ∧
      u.slot = tx.slot ∧ u.bytes = tx.bytes ∧ u.providedSignatures = [] ∧
      c.stats.Delivered (c.toUpdate receivedAt (responseOf tx filters createdAt)).1.stats
        tx.slot := by
  unfold toUpdate responseOf
  simp only [h, if_false]
  exact ⟨_, rfl, rfl, rfl, rfl, rfl, rfl⟩

/-- A transaction means the same on both transports exactly when it is not
    empty: from every state of the client and of the decoder, whatever else
    the response and the frame say. -/
theorem agree_iff (c : GrpcClient) (receivedAt : SystemTime) (filters : List String)
    (createdAt : Option Timestamp) (d : StreamDecoder) (now : SystemTime) (tx : Transaction)
    (datagram : Bytes) (h : Lone tx datagram) :
    Agree c (c.toUpdate receivedAt (responseOf tx filters createdAt)) d (d.push now datagram)
        tx.slot ↔ tx.bytes ≠ [] := by
  rcases push_lone_update d now tx datagram h with ⟨hresult, hcounted⟩
  constructor
  · -- The decoder makes an update of anything, so the client has to.
    intro hagree hempty
    rcases hagree.both.mpr ⟨_, hresult⟩ with ⟨u, hu⟩
    unfold toUpdate responseOf at hu
    simp only [hempty, if_true, reduceCtorEq] at hu
  · intro hne
    rcases toUpdate_response c receivedAt tx filters createdAt hne with
      ⟨u, hu, hslot, hbytes, hprovided, hclient⟩
    have hwire := updateOf_wire now tx
    -- Both make an update, so it remains to compare the two.
    refine ⟨⟨fun _ => ⟨_, hresult⟩, fun _ => ⟨u, hu⟩⟩, fun u' v hu' hv => ?_, fun hnone => ?_⟩
    · rw [hu, Option.some.injEq] at hu'
      rw [hresult, Push.update.injEq] at hv
      subst hu' hv
      refine ⟨alike_of_eq u _ ?_ ?_ hprovided rfl, hslot, hclient, hcounted⟩
      · rw [hslot, hwire.1]
      · rw [hbytes, hwire.2]
    · rw [hu] at hnone
      cases hnone

/-- A frame that carries a slot and nothing else. -/
def emptyFrame : Bytes :=
  [0xE7, 0x5A, 2, 2, 0, 0, 1, 0] ++ (leBytes 8 0 ++ (⟨7, []⟩ : Transaction).wire)

/-- The decoder makes an update of it, and the client of the response that
    carries the same makes none. -/
theorem emptyFrame_disagree :
    Lone ⟨7, []⟩ emptyFrame ∧
      ¬ Agree plainStart.client (plainStart.client.toUpdate 0 (responseOf ⟨7, []⟩ [] none))
        StreamDecoder.new (StreamDecoder.new.push 0 emptyFrame) 7 := by
  refine ⟨⟨_, rfl, rfl, rfl, rfl⟩, fun hagree => ?_⟩
  rcases hagree.both.mpr ⟨_, rfl⟩ with ⟨u, hu⟩
  cases hu

/-- A frame of a fragmented-looking header, with index 3 of one fragment. -/
def shortFrame : Bytes :=
  [0xE7, 0x5A, 2, 2, 0, 3, 1, 0] ++ (leBytes 8 0 ++ (⟨7, [1, 2, 3]⟩ : Transaction).wire)

/-- Both make an update of the three bytes and count it. -/
theorem shortFrame_agree :
    Agree plainStart.client (plainStart.client.toUpdate 0 (responseOf ⟨7, [1, 2, 3]⟩ [] none))
      StreamDecoder.new (StreamDecoder.new.push 0 shortFrame) 7 ∧
    (plainStart.client.toUpdate 0 (responseOf ⟨7, [1, 2, 3]⟩ [] none)).2
      = some ⟨7, [1, 2, 3], [], [], none, 0⟩ ∧
    (StreamDecoder.new.push 0 shortFrame).result = .update ⟨7, [1, 2, 3], [], [], none, 0⟩ ∧
    (StreamDecoder.new.push 0 shortFrame).decoder.stats.messages = 1 :=
  ⟨(agree_iff plainStart.client 0 [] none StreamDecoder.new 0 ⟨7, [1, 2, 3]⟩ shortFrame
    ⟨_, rfl, rfl, rfl, rfl⟩).mpr (List.cons_ne_nil 1 [2, 3]), rfl, rfl, rfl⟩

end ShredStream
