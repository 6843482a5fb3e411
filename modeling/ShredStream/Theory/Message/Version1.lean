import ShredStream.Theory.Message.Layout

/-!
# The Version-1 Layout

The fixed-offset layout. Instructions are written in two regions: a header of
four bytes for each, then a payload for each, and the decoder walks the
payloads while it goes through the headers. The lengths in the headers have
one and two bytes, so an instruction that is written has at most 255 account
indices and 65535 bytes of data.

Between the accounts and the headers stand the config values, whose length a
mask prescribes. Their content is not part of the decoded message.

## Main definitions

* `configWidth`: The length of the config values, bit by bit.
* `V1Form`: The written forms of a version-1 message.

## Theorems

* `readPayloads_complete`: The two regions are read in step.
* `decodeAt_v1`: A version-1 message is read back.
-/

namespace ShredStream

namespace Message

open Cursor

/-- Eight bytes for bits 0 and 1 together, four for each of bits 2, 3 and 4. -/
def configWidth (mask : Nat) : Nat :=
  (if mask.testBit 0 ∧ mask.testBit 1 then 8 else 0) + (if mask.testBit 2 then 4 else 0)
    + (if mask.testBit 3 then 4 else 0) + (if mask.testBit 4 then 4 else 0)

/-- An instruction of the version-1 layout: its program and its lengths. -/
def v1Header (ix : CompiledInstruction) : Bytes :=
  [ix.programIndex, UInt8.ofNat ix.accountIndices.length] ++ leBytes 2 ix.data.length

def v1Payload (ix : CompiledInstruction) : Bytes := ix.accountIndices ++ ix.data

/-- The lengths of the instruction fit its header. -/
def FitsV1 (ix : CompiledInstruction) : Prop :=
  ix.accountIndices.length < 256 ∧ ix.data.length < 65536

/-- The written forms of a version-1 message: the mask and the config values
    are free, but for their lengths. -/
def V1Form (m : CompiledMessage) (w : Bytes) : Prop :=
  ∃ mask wa config, m.version = some 1 ∧ m.addressTableLookups = [] ∧
    m.staticAccounts.length < 256 ∧ m.instructions.length < 256 ∧
    (∀ ix ∈ m.instructions, FitsV1 ix) ∧ Many AccountForm m.staticAccounts wa ∧
    m.lifetimeToken.length = 32 ∧ mask.length = 4 ∧ config.length = configWidth (leNat mask) ∧
    w = [0x81] ++ (headerBytes m.header ++ (mask ++ (m.lifetimeToken ++
      ([UInt8.ofNat m.instructions.length] ++ ([UInt8.ofNat m.staticAccounts.length] ++
        (wa ++ (config ++ (m.instructions.flatMap v1Header ++
          m.instructions.flatMap v1Payload))))))))

/-- A bit of the mask, as the source picks it out. -/
theorem shift_and_one (mask i : Nat) :
    4 * ((mask >>> i) &&& 1) = if mask.testBit i then 4 else 0 := by
  rw [Nat.and_one_is_mod, Nat.testBit_eq_decide_div_mod_eq, Nat.shiftRight_eq_div_pow]
  rcases Nat.mod_two_eq_zero_or_one (mask / 2 ^ i) with h | h
  · simp only [h, Nat.mul_zero, Nat.zero_ne_one, decide_false, Bool.false_eq_true, if_false]
  · simp only [h, Nat.mul_one, decide_true, if_true]

theorem and_three (mask : Nat) : mask &&& 0b11 = 0b11 ↔ mask.testBit 0 ∧ mask.testBit 1 := by
  have hand : mask &&& 0b11 = mask % 4 := Nat.and_two_pow_sub_one_eq_mod mask 2
  simp only [hand, Nat.testBit_eq_decide_div_mod_eq, decide_eq_true_eq, Nat.pow_zero, Nat.pow_one,
    Nat.div_one]
  omega

/-- The decoder's arithmetic on the mask is the length the bits prescribe. -/
theorem configLen_eq (mask : Nat) : configLen mask = configWidth mask := by
  simp only [configLen, configWidth, shift_and_one, and_three]

theorem length_v1Header (ix : CompiledInstruction) : (v1Header ix).length = 4 := rfl

/-- The fields of a header, as `chunks_exact` hands them out. -/
def toV1Header (ix : CompiledInstruction) : V1Header where
  programIndex := ix.programIndex
  numAccounts := UInt8.ofNat ix.accountIndices.length
  dataLenLow := UInt8.ofNat ix.data.length
  dataLenHigh := UInt8.ofNat (ix.data.length / 256)

theorem headerChunks_flatMap (ixs : List CompiledInstruction) :
    headerChunks (ixs.flatMap v1Header) = ixs.map toV1Header := by
  induction ixs with
  | nil => rfl
  | cons ix ixs ih =>
      rw [List.flatMap_cons, List.map_cons, ← ih]
      rfl

theorem numAccounts_toNat (ix : CompiledInstruction) (h : FitsV1 ix) :
    (toV1Header ix).numAccounts.toNat = ix.accountIndices.length :=
  UInt8.toNat_ofNat_of_lt' h.1

theorem dataLen_leNat (ix : CompiledInstruction) (h : FitsV1 ix) :
    leNat [(toV1Header ix).dataLenLow, (toV1Header ix).dataLenHigh] = ix.data.length :=
  leNat_leBytes_of_lt 2 ix.data.length h.2

/-- Walking the headers, the decoder finds each payload where the one before
    ends. -/
theorem readPayloads_complete (buf : Bytes) (ixs : List CompiledInstruction)
    (hfit : ∀ ix ∈ ixs, FitsV1 ix) : ∀ o, At buf o (ixs.flatMap v1Payload) →
      readPayloads buf (ixs.map toV1Header) o
        = .ok (ixs, o + (ixs.flatMap v1Payload).length) := by
  induction ixs with
  | nil =>
      intro o _
      rfl
  | cons ix ixs ih =>
      intro o hat
      have hix := hfit ix List.mem_cons_self
      -- The payload is the account indices, then the data; the rest is behind.
      rw [List.flatMap_cons, v1Payload, List.append_assoc] at hat
      simp only [at_append] at hat
      rcases hat with ⟨ha, hd, hrest⟩
      have htail := ih (fun i hi => hfit i (List.mem_cons_of_mem ix hi)) _ hrest
      simp only [List.map_cons, readPayloads, numAccounts_toNat ix hix, dataLen_leNat ix hix,
        take_complete buf _ _ _ _ ha rfl, take_complete buf _ _ _ _ hd rfl, htail, ok_bind,
        pure_eq_ok]
      simp only [List.flatMap_cons, v1Payload, List.length_append, Nat.add_assoc]
      rfl

/-- A version-1 message is read back from the start of a buffer. -/
theorem decodeAt_v1 (buf w : Bytes) (m : CompiledMessage) (h : V1Form m w) (hat : At buf 0 w) :
    decodeAt buf = .ok (m, w.length) := by
  rcases h with ⟨mask, wa, config, hv, hl, hka, hki, hfit, ha, ht, hmask, hconfig, rfl⟩
  have hhead : buf.head? = some 0x81 := by
    rw [at_append, at_singleton] at hat
    rw [List.head?_eq_getElem?]
    exact hat.1
  have hlen : (headerBytes m.header).length = 3 := rfl
  have hnk : (UInt8.ofNat m.staticAccounts.length).toNat = m.staticAccounts.length :=
    UInt8.toNat_ofNat_of_lt' hka
  have hni : (UInt8.ofNat m.instructions.length).toNat = m.instructions.length :=
    UInt8.toNat_ofNat_of_lt' hki
  -- The header region is four bytes an instruction, as the decoder skips it.
  have hheaders := length_flatMap_width v1Header 4 m.instructions (fun ix _ => length_v1Header ix)
  simp only [at_append, List.length_singleton, hlen, ht, hmask, hheaders] at hat
  rcases hat with ⟨_, hheader, hm, htoken, hci, hck, haccounts, hcfg, hhs, hps⟩
  have hms := readMany_complete AccountForm readAccount readAccount_complete buf _ wa ha _ haccounts
  have hmp := readPayloads_complete buf m.instructions hfit _ hps
  rw [decodeAt, if_pos hhead, decodeV1]
  -- The fixed fields end at offset 42, where the accounts start.
  simp only [Nat.zero_add, Nat.reduceAdd] at *
  rw [hconfig] at hhs hps hmp
  simp only [take_complete buf _ _ 3 _ hheader hlen, take_complete buf _ _ 4 _ hm hmask,
    take_complete buf _ _ 32 _ htoken ht, byteAt_complete buf _ _ _ hci,
    byteAt_complete buf _ _ _ hck, ok_bind, hnk, hms, configLen_eq,
    take_complete buf _ _ _ _ hcfg hconfig, hni, take_complete buf _ _ _ _ hhs hheaders,
    headerChunks_flatMap, hmp, headerOf_headerBytes, ← hv, ← hl, pure_eq_ok]
  simp only [List.length_append, List.length_singleton, hlen, ht, hmask, hconfig, hheaders,
    Except.ok.injEq, Prod.mk.injEq, true_and]
  omega

end Message

end ShredStream
