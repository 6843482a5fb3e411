import ShredStream.Theory.Message.Sound

/-!
# Truncation

A decoder that is both sound and complete for one relation cannot be misled
about where a message ends. The message decoder is: what it accepts is
written at the start of the buffer (`Theory/Message/Sound.lean`), and what is
written there is read back (`Theory/Message/Layout.lean`,
`Theory/Message/Version1.lean`). So the general facts about readers apply to
it, with the relation that joins the three layouts.

The length a message takes is the offset the decoder stops at. Anything
shorter is refused, wherever the cut falls, and anything behind it is
ignored.

## Main definitions

* `MessageForm`: The written forms of a message, in any layout.
* `readMessage`: The decoder, as a reader at an offset.

## Theorems

* `readMessage_complete`, `readMessage_sound`: The decoder against them.
* `decodeMessage_exact`: The bytes a message takes are the bytes it needs.
-/

namespace ShredStream

namespace Message

open Cursor

/-- A written form of a message in one of the layouts. -/
def MessageForm (m : CompiledMessage) (w : Bytes) : Prop :=
  V1Form m w ∨ CompactForm m w

/-- The decoder on what is left of the buffer behind an offset. -/
def readMessage : Reader UInt8 MessageDecodeError CompiledMessage := fun buf o =>
  (decodeAt (buf.drop o)).map fun (m, k) => (m, o + k)

theorem readMessage_complete : Complete MessageForm readMessage := by
  intro buf o m w h hat
  -- A form at the offset is one at the start of what is left.
  have hlen := at_length buf w o hat
  have hstart := (at_drop buf w o (by omega)).mpr hat
  unfold readMessage
  rcases h with h | h
  · rw [decodeAt_v1 (buf.drop o) w m h hstart]
    rfl
  · rw [decodeAt_compact (buf.drop o) w m h hstart]
    rfl

/-- Whatever the selected decoder accepts is written at the start. -/
theorem decodeAt_sound (buf : Bytes) (m : CompiledMessage) (k : Nat)
    (h : decodeAt buf = .ok (m, k)) : ∃ w, MessageForm m w ∧ At buf 0 w ∧ k = w.length := by
  unfold decodeAt at h
  by_cases hhead : buf.head? = some 0x81
  · rw [if_pos hhead] at h
    rcases decodeV1_sound buf m k hhead h with ⟨w, hform, hat, hk⟩
    exact ⟨w, Or.inl hform, hat, hk⟩
  · rw [if_neg hhead] at h
    rcases decodeCompact_sound buf m k hhead h with ⟨w, hform, hat, hk, _⟩
    exact ⟨w, Or.inr hform, hat, hk⟩

theorem readMessage_sound : Sound MessageForm readMessage := by
  intro buf o m o' h
  unfold readMessage at h
  rcases hd : decodeAt (buf.drop o) with e | ⟨m', k⟩
  · rw [hd] at h
    cases h
  simp only [hd, Except.map, Except.ok.injEq, Prod.mk.injEq] at h
  rcases h with ⟨rfl, rfl⟩
  rcases decodeAt_sound (buf.drop o) m' k hd with ⟨w, hform, hat, rfl⟩
  by_cases ho : o ≤ buf.length
  · exact ⟨w, hform, (at_drop buf w o ho).mp hat, rfl⟩
  · -- Behind the end nothing is left, and nothing is no message.
    rw [List.drop_eq_nil_of_le (by omega)] at hd
    cases hd

/-- The message is what the reader returns at the start. -/
theorem decodeMessage_eq (buf : Bytes) : decodeMessage buf = (readMessage buf 0).map Prod.fst := by
  unfold decodeMessage readMessage
  rw [List.drop_zero]
  rcases decodeAt buf with e | ⟨m, k⟩
  · rfl
  · rfl

/-- A message takes some number of bytes. A buffer cut before them is refused,
    and what stands behind them does not matter. -/
theorem decodeMessage_exact (buf : Bytes) (m : CompiledMessage) (h : decodeMessage buf = .ok m) :
    ∃ k ≤ buf.length, (∀ j < k, ∃ e, decodeMessage (buf.take j) = .error e) ∧
      ∀ rest, decodeMessage (buf.take k ++ rest) = .ok m := by
  rw [decodeMessage_eq] at h
  rcases map_fst_eq_ok (readMessage buf 0) m h with ⟨k, hread⟩
  rcases readMessage_sound buf 0 m k hread with ⟨w, _, hat, hk⟩
  have hinside := at_length buf w 0 hat
  refine ⟨k, by omega, fun j hj => ?_, fun rest => ?_⟩
  · -- Were the cut buffer accepted, the message would end before `k`.
    rcases read_cut MessageForm readMessage readMessage_complete readMessage_sound buf 0 k j m hread
      hj with ⟨e, he⟩
    exact ⟨e, by rw [decodeMessage_eq, he]; rfl⟩
  · -- Cut at `k` it is accepted, and what is accepted may be extended.
    have hexact := read_prefix MessageForm readMessage readMessage_complete readMessage_sound buf 0
      k m hread
    have hmore := read_extend MessageForm readMessage readMessage_complete readMessage_sound _ rest
      0 k m hexact
    rw [decodeMessage_eq, hmore]
    rfl

set_option maxRecDepth 4000 in
/-- The message in two bytes more than it needs has such a length. -/
theorem paddedLegacy_exact :
    ∃ k ≤ paddedLegacy.length, (∀ j < k, ∃ e, decodeMessage (paddedLegacy.take j) = .error e) ∧
      ∀ rest, decodeMessage (paddedLegacy.take k ++ rest) = .ok paddedLegacyMessage :=
  decodeMessage_exact paddedLegacy paddedLegacyMessage rfl

end Message

end ShredStream
