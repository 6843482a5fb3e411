import ShredStream.Lib.Shortest
import ShredStream.Theory.Message.Encode
import ShredStream.Theory.Message.Truncation

/-!
# The Canonical Form

The decoder takes any varint of up to four bytes for a length, so a message
can be written in many ways. The reference serialisation is one of them, and
it is the shortest: whatever the decoder accepts in the compact layouts can be
serialised again, gives back the same message, and is not longer than what was
accepted. If it is as long, it is the same bytes.

So two accepted buffers that say the same differ in nothing but zero groups in
their lengths and bytes behind the message.

A version-1 message is left out. Its mask and its config values are not in
what the decoder returns, so it cannot be written again from that.

## Theorems

* `form_wellFormed`: What is accepted can be serialised.
* `form_shortest`: The serialisation is the shortest form.
* `encode_shortest`: What an accepted buffer is, against the serialisation.
* `paddedLegacy_shortest`: A buffer with a padded length is longer.
-/

namespace ShredStream

namespace Message

open Cursor

theorem length_lt (n : Nat) (w : Bytes) (h : Length n w) : n < 2 ^ 28 := by
  rcases h with ⟨_, hlen, hvalue⟩
  have hlt := Varint.value_lt w
  have hpow : 128 ^ w.length ≤ 128 ^ 4 := Nat.pow_le_pow_right (by decide) hlen
  rw [hvalue] at hlt
  exact Nat.lt_of_lt_of_le hlt hpow

theorem length_shortest (n : Nat) (w : Bytes) (h : Length n w) : Shortest (Varint.encode n) w := by
  rcases h with ⟨hterminated, _, hvalue⟩
  have hshortest := Varint.shortest_encode w hterminated
  rwa [hvalue] at hshortest

theorem counted_lt {α : Type} (G : α → Bytes → Prop) (as : List α) (w : Bytes)
    (h : Counted G as w) : as.length < 2 ^ 28 ∧ ∀ a ∈ as, ∃ v, G a v := by
  rcases h with ⟨wn, ws, hn, hmany, _⟩
  exact ⟨length_lt _ wn hn, many_mem G as ws hmany⟩

theorem counted_shortest {α : Type} (G : α → Bytes → Prop) (enc : α → Bytes) (as : List α)
    (w : Bytes) (h : Counted G as w) (henc : ∀ a v, G a v → Shortest (enc a) v) :
    Shortest (encodeList enc as) w := by
  rcases h with ⟨wn, ws, hn, hmany, rfl⟩
  exact shortest_append _ _ _ _ (length_shortest _ wn hn) (shortest_many G enc as ws hmany henc)

/-- Bytes after some varint of their length. -/
theorem bytes_shortest (bs wn rest rest' : Bytes) (hn : Length bs.length wn)
    (hrest : Shortest rest rest') : Shortest (encodeBytes bs ++ rest) (wn ++ (bs ++ rest')) := by
  rw [encodeBytes, List.append_assoc]
  exact shortest_append _ _ _ _ (length_shortest _ wn hn)
    (shortest_append _ _ _ _ (shortest_refl bs) hrest)

theorem instruction_shortest (ix : CompiledInstruction) (w : Bytes) (h : InstructionForm ix w) :
    Shortest (encodeInstruction ix) w := by
  rcases h with ⟨wa, wd, ha, hd, rfl⟩
  have hdata := bytes_shortest ix.data wd [] [] hd (shortest_refl [])
  rw [List.append_nil, List.append_nil] at hdata
  exact shortest_append _ _ _ _ (shortest_refl _) (bytes_shortest _ wa _ _ ha hdata)

theorem lookup_shortest (l : AddressTableLookup) (w : Bytes) (h : LookupForm l w) :
    Shortest (encodeLookup l) w := by
  rcases h with ⟨_, ww, wr, hw, hr, rfl⟩
  have hreadonly := bytes_shortest l.readonlyIndexes wr [] [] hr (shortest_refl [])
  rw [List.append_nil, List.append_nil] at hreadonly
  exact shortest_append _ _ _ _ (shortest_refl _) (bytes_shortest _ ww _ _ hw hreadonly)

/-- The serialisation is the shortest form of a message. -/
theorem form_shortest (m : CompiledMessage) (w : Bytes) (h : CompactForm m w) :
    Shortest (encode m) w := by
  rcases h with ⟨wv, wa, wi, wl, hversion, haccounts, _, hinstructions, hlookups, rfl⟩
  have hv : Shortest (encodeVersion m.version) wv := by
    -- The version has one form.
    cases hnone : m.version with
    | none =>
        rw [hnone] at hversion
        rw [hversion.2]
        exact shortest_refl []
    | some v =>
        rw [hnone] at hversion
        rw [hversion.2.2]
        exact shortest_refl (encodeVersion (some v))
  have hl : Shortest
      (if m.version.isSome then encodeList encodeLookup m.addressTableLookups else [])
      wl := by
    rw [LookupsForm] at hlookups
    split
    · rename_i hsome
      rw [if_pos hsome] at hlookups
      exact counted_shortest LookupForm encodeLookup _ wl hlookups lookup_shortest
    · rename_i hnone
      rw [if_neg hnone] at hlookups
      rw [hlookups.2]
      exact shortest_refl []
  have ha := counted_shortest AccountForm id _ wa haccounts
    (fun a v hv => by rw [hv.2]; exact shortest_refl a)
  have hi := counted_shortest InstructionForm encodeInstruction _ wi hinstructions
    instruction_shortest
  -- Every piece is the shortest of its kind.
  exact shortest_append _ _ _ _ hv (shortest_append _ _ _ _ (shortest_refl _)
    (shortest_append _ _ _ _ ha (shortest_append _ _ _ _ (shortest_refl _)
      (shortest_append _ _ _ _ hi hl))))

/-- Whatever has a written form can be serialised. -/
theorem form_wellFormed (m : CompiledMessage) (w : Bytes) (h : CompactForm m w) :
    WellFormed m := by
  rcases h with ⟨wv, wa, wi, wl, hversion, haccounts, htoken, hinstructions, hlookups, rfl⟩
  rcases counted_lt _ _ _ haccounts with ⟨hafew, haforms⟩
  rcases counted_lt _ _ _ hinstructions with ⟨hifew, hiforms⟩
  have hl : m.addressTableLookups.length < 2 ^ 28 ∧
      ∀ l ∈ m.addressTableLookups, ∃ v, LookupForm l v := by
    rw [LookupsForm] at hlookups
    split at hlookups
    · exact counted_lt _ _ _ hlookups
    · rw [hlookups.1]
      exact ⟨by decide, fun l hl => absurd hl List.not_mem_nil⟩
  refine ⟨fun hnone => ?_, fun v hsome => ?_, fun a ha => ?_, htoken, fun l hmem => ?_, hafew,
    hifew, fun ix hix => ?_, hl.1, fun l hmem => ?_⟩
  · rw [hnone] at hversion hlookups
    exact ⟨hversion.1, hlookups.1⟩
  · rw [hsome] at hversion
    exact ⟨hversion.1, hversion.2.1⟩
  · rcases haforms a ha with ⟨v, hwidth, _⟩
    exact hwidth
  · rcases hl.2 l hmem with ⟨v, hwidth, _⟩
    exact hwidth
  · rcases hiforms ix hix with ⟨v, va, vd, ha, hd, _⟩
    exact ⟨length_lt _ va ha, length_lt _ vd hd⟩
  · rcases hl.2 l hmem with ⟨v, _, vw, vr, hw, hr, _⟩
    exact ⟨length_lt _ vw hw, length_lt _ vr hr⟩

/-- Whatever buffer is accepted as a message that is not version 1: the
    message is serialised again to bytes that are accepted as the same, that
    are no longer than the buffer, and that are the buffer if they are as
    long. -/
theorem encode_shortest (buf : Bytes) (m : CompiledMessage) (h : decodeMessage buf = .ok m)
    (hv : m.version ≠ some 1) :
    decodeMessage (encode m) = .ok m ∧ (encode m).length ≤ buf.length ∧
      (buf.length = (encode m).length → buf = encode m) := by
  rw [decodeMessage] at h
  rcases hd : decodeAt buf with e | ⟨m', k⟩ <;> rw [hd] at h
  · cases h
  obtain rfl : m = m' := (Except.ok.inj h).symm
  rcases decodeAt_sound buf m k hd with ⟨w, hform, ⟨pre, rest, hbuf, hpre⟩, _⟩
  have hcompact : CompactForm m w := by
    rcases hform with hform | hform
    · rcases hform with ⟨_, _, _, hversion, _⟩
      exact absurd hversion hv
    · exact hform
  rw [List.length_eq_zero_iff.mp hpre, List.nil_append] at hbuf
  have hat := at_zero (encode m) []
  rw [List.append_nil] at hat
  refine ⟨?_, ?_⟩
  · rw [decodeMessage, decodeAt_compact _ _ m (encode_form m (form_wellFormed m w hcompact)) hat]
    rfl
  · rw [hbuf]
    exact shortest_append_right _ _ rest (form_shortest m w hcompact)

/-- The padded message has a length that takes two bytes and needs one. -/
theorem paddedLegacy_shortest :
    decodeMessage (encode paddedLegacyMessage) = .ok paddedLegacyMessage ∧
    (encode paddedLegacyMessage).length ≤ paddedLegacy.length :=
  ⟨(encode_shortest paddedLegacy paddedLegacyMessage rfl (by decide)).1,
    (encode_shortest paddedLegacy paddedLegacyMessage rfl (by decide)).2.1⟩

end Message

end ShredStream
