import ShredStream.Theory.Message.Container

/-!
# Transactions with a Count in Front

A legacy or version-0 transaction is the number of its signatures, the
signatures, and the message. Up to 127 signatures the number is one byte, and
four functions find what stands behind it, each on its own: `messageBytes`
skips the signatures, `deriveSignatures` collects them, `signatures` falls
back to that list when the server's is unusable, and `signature` looks at
offset 1.

The message is any byte string. It may be empty, and it may start with a byte
that marks a version, since only the first byte of the container decides what
the container is.

## Main definitions

* `CountedTransaction`: Signatures and a message, with a count of one byte.
* `CountedTransaction.wire`: Its wire form.
* `CountedTransaction.update`: An update that holds it.

## Theorems

* `mapM_ofBytes_eq_none`: One bad entry makes the server's list unusable.
* `deriveSignatures_wire`: The signatures are collected in order.
* `counted_roundtrip`: The accessors give back what was written.
-/

namespace ShredStream

open Cursor Message

/-- A list with an entry of the wrong length is not a list of signatures. -/
theorem mapM_ofBytes_eq_none (provided : List Bytes) (h : ∃ p ∈ provided, p.length ≠ 64) :
    provided.mapM Signature.ofBytes? = none := by
  induction provided with
  | nil =>
      rcases h with ⟨p, hp, _⟩
      exact absurd hp List.not_mem_nil
  | cons p ps ih =>
      by_cases hp : p.length = 64
      · -- The bad entry is further down.
        have hps : ∃ q ∈ ps, q.length ≠ 64 := by
          rcases h with ⟨q, hq, hne⟩
          rcases List.mem_cons.mp hq with rfl | hq
          · exact absurd hp hne
          · exact ⟨q, hq, hne⟩
        rw [List.mapM_cons, ih hps, Signature.ofBytes?, dif_pos hp]
        rfl
      · rw [List.mapM_cons, Signature.ofBytes?, dif_neg hp]
        rfl

/-- Two signatures that stand at one place are the same. -/
theorem Signature.eq_of_at (buf : Bytes) (o : Nat) (s t : Signature) (hs : At buf o s.bytes)
    (ht : At buf o t.bytes) : s = t := by
  have hlen := at_length buf s.bytes o hs
  rw [s.size] at hlen
  rw [← Signature.slice_of_at buf o s hlen hs, Signature.slice_of_at buf o t hlen ht]

/-- The slice at a signature is there. -/
theorem Signature.get?_of_at (buf : Bytes) (o : Nat) (s : Signature) (hat : At buf o s.bytes) :
    Signature.get? buf o = some s := by
  have hlen := at_length buf s.bytes o hat
  rw [s.size] at hlen
  rw [Signature.get?, dif_pos hlen, Signature.slice_of_at buf o s hlen hat]

/-- Where a count stands in front, the fast accessor looks at offset 1. -/
theorem signature_of_counted (u : TransactionUpdate) (h : u.bytes.head? ≠ some 0x81) :
    u.signature = (Signature.get? u.bytes 1).getD Signature.zero := by
  simp only [TransactionUpdate.signature, h, if_false]

/-- A transaction of the legacy or version-0 layout, with any message. -/
structure CountedTransaction where
  signatures : List Signature
  message : Bytes
  few_signatures : signatures.length ≤ 127

namespace CountedTransaction

variable (t : CountedTransaction)

/-- The byte in front: how many signatures there are. -/
def count : UInt8 := UInt8.ofNat t.signatures.length

/-- The wire form. -/
def wire : Bytes := [t.count] ++ (t.signatures.flatMap (fun s => s.bytes) ++ t.message)

/-- An update that holds the transaction, with the signatures the server sent
    along, if any. -/
def update (slot : UInt64) (provided : List Bytes) (filters : List String)
    (createdAt : Option SystemTime) (receivedAt : SystemTime) : TransactionUpdate where
  slot := slot
  bytes := t.wire
  providedSignatures := provided
  filters := filters
  createdAt := createdAt
  receivedAt := receivedAt

theorem count_toNat : t.count.toNat = t.signatures.length := by
  have hfew := t.few_signatures
  have hbyte : t.signatures.length < 256 := by omega
  exact UInt8.toNat_ofNat_of_lt' hbyte

theorem count_terminated : Varint.Terminated [t.count] := by
  have hfew := t.few_signatures
  rw [Varint.terminated_unmarked _ _ (by rw [t.count_toNat]; omega)]

theorem count_value : Varint.value [t.count] = t.signatures.length := by
  have hfew := t.few_signatures
  rw [Varint.value, Varint.value, t.count_toNat]
  omega

/-- A count of one byte does not look like a version marker. -/
theorem wire_head : t.wire.head? ≠ some 0x81 := by
  have hfew := t.few_signatures
  have hcount := t.count_toNat
  rw [wire, List.singleton_append, List.head?_cons, ne_eq, Option.some.injEq]
  intro heq
  rw [heq, show (0x81 : UInt8).toNat = 129 from rfl] at hcount
  omega

theorem length_wire : t.wire.length = 1 + (t.signatures.length * 64 + t.message.length) := by
  rw [wire, List.length_append, List.length_append, length_signatures, List.length_singleton,
    Nat.mul_comm]

/-- The `i`-th signature stands behind the count and the ones before it. -/
theorem signature_at (i : Nat) (s : Signature) (h : t.signatures[i]? = some s) :
    At t.wire (1 + 64 * i) s.bytes := by
  refine at_flatMap (fun s : Signature => s.bytes) 64 t.wire t.signatures (fun s _ => s.size) 1 i s
    ?_ h
  exact ⟨[t.count], t.message, by rw [List.append_assoc]; rfl, rfl⟩

theorem messageBytes_wire : messageBytes t.wire = .ok t.message := by
  have hlength : Length t.signatures.length [t.count] :=
    ⟨t.count_terminated, Nat.le_add_left 1 3, t.count_value⟩
  have hshort := shortvec_complete t.wire [t.count] 0 t.signatures.length "signature count" hlength
    (at_zero _ _)
  have hlen := t.length_wire
  rw [messageBytes, if_neg t.wire_head, hshort, ok_bind]
  simp only [List.length_singleton]
  rw [if_pos (by omega), wire, ← List.append_assoc, List.drop_left']
  rw [List.length_append, length_signatures, List.length_singleton, Nat.mul_comm]

theorem parse_update (slot : UInt64) (provided : List Bytes) (filters : List String)
    (createdAt : Option SystemTime) (receivedAt : SystemTime) :
    (t.update slot provided filters createdAt receivedAt).parse = decodeMessage t.message := by
  rw [TransactionUpdate.parse, update, messageBytes_wire, ok_bind]

/-- The signatures are collected in order. -/
theorem deriveSignatures_wire : Update.deriveSignatures t.wire = t.signatures := by
  have hlen := t.length_wire
  -- One byte is a narrow count, so all the announced signatures are collected.
  have hnarrow : Update.Narrow 0 [t.count] := by
    rw [Update.Narrow, List.length_singleton]
    omega
  have hderive : Update.deriveSignatures t.wire
      = Update.collectSignatures t.wire 1 t.signatures.length 0 := by
    rw [Update.deriveSignatures, if_neg t.wire_head, wire, Update.decodeShortvec_eq _ _
      t.count_terminated, if_pos hnarrow, t.count_value]
    rfl
  rcases Update.collectSignatures_spec t.wire 1 t.signatures.length 0 (by omega) with ⟨hall, hat⟩
  rw [← hderive] at hall hat
  refine List.ext_getElem hall (fun i hi hi' => ?_)
  -- The `i`-th one collected and the `i`-th one written stand at one place.
  have hcollected := hat i _ (List.getElem?_eq_getElem hi)
  have hwritten := t.signature_at i _ (List.getElem?_eq_getElem hi')
  rw [Nat.zero_mul, Nat.add_zero] at hcollected
  exact Signature.eq_of_at t.wire _ _ _ hcollected hwritten

/-- The fast accessor finds the first signature where there is one. -/
theorem signature_update (slot : UInt64) (provided : List Bytes) (filters : List String)
    (createdAt : Option SystemTime) (receivedAt : SystemTime) (s : Signature)
    (hs : t.signatures.head? = some s) :
    (t.update slot provided filters createdAt receivedAt).signature = s := by
  have hat := t.signature_at 0 s (by rw [← List.head?_eq_getElem?, hs])
  rw [Nat.mul_zero, Nat.add_zero] at hat
  rw [signature_of_counted _ t.wire_head, update, Signature.get?_of_at t.wire 1 s hat,
    Option.getD_some]

/-- The accessors give back what was written, with no list of the server's or
    with one that is unusable. -/
theorem counted_roundtrip (slot : UInt64) (provided : List Bytes) (filters : List String)
    (createdAt : Option SystemTime) (receivedAt : SystemTime) :
    messageBytes t.wire = .ok t.message ∧
      (t.update slot provided filters createdAt receivedAt).parse = decodeMessage t.message ∧
      (provided = [] ∨ (∃ p ∈ provided, p.length ≠ 64) →
        (t.update slot provided filters createdAt receivedAt).signatures = t.signatures) ∧
      (∀ s, t.signatures.head? = some s →
        (t.update slot provided filters createdAt receivedAt).signature = s) := by
  refine ⟨t.messageBytes_wire, t.parse_update slot provided filters createdAt receivedAt, ?_,
    t.signature_update slot provided filters createdAt receivedAt⟩
  rintro (rfl | hbad)
  · simp only [TransactionUpdate.signatures, update, ne_eq, not_true_eq_false, if_false]
    exact t.deriveSignatures_wire
  · have hne : provided ≠ [] := by
      rcases hbad with ⟨p, hp, _⟩
      exact List.ne_nil_of_mem hp
    simp only [TransactionUpdate.signatures, update, ne_eq, hne, not_false_eq_true, if_true,
      mapM_ofBytes_eq_none provided hbad]
    exact t.deriveSignatures_wire

end CountedTransaction

/-- Two signatures, and a message that starts like a version-1 container. -/
def pairThenMarker : CountedTransaction where
  signatures := [⟨List.replicate 64 3, rfl⟩, ⟨List.replicate 64 4, rfl⟩]
  message := [0x81, 1]
  few_signatures := Nat.le_of_ble_eq_true rfl

/-- An entry of three bytes makes the server's list unusable. -/
theorem pairThenMarker_signatures :
    (pairThenMarker.update 7 [List.replicate 64 1, [1, 2, 3]] [] none 0).signatures
      = pairThenMarker.signatures ∧
    (pairThenMarker.update 7 [] [] none 0).signature = ⟨List.replicate 64 3, rfl⟩ := by
  refine ⟨?_, ?_⟩
  · exact (pairThenMarker.counted_roundtrip 7 _ [] none 0).2.2.1
      (Or.inr ⟨[1, 2, 3], by decide, by decide⟩)
  · exact (pairThenMarker.counted_roundtrip 7 [] [] none 0).2.2.2 _ rfl

end ShredStream
