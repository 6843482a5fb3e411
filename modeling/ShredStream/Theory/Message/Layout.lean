import ShredStream.Core.Message

/-!
# The Compact-Array Layouts

The written form of a message, as a relation between a message and byte
strings, and the readers of `Core/Message.lean` against it.

The relation is looser than a serialiser: a length may be written as any
varint of one to four bytes that has its value. Each reader is complete for
its relation — it reads back every written form wherever in the buffer it
stands — and the message decoder is then complete because the offset it
threads through its loops is always the end of the window read last.

## Main definitions

* `Length`: The written forms of a length.
* `Counted`: A list after its length.
* `InstructionForm`, `LookupForm`: The elements.
* `CompactForm`: A legacy or versioned message.

## Theorems

* `shortvec_complete`, `shortvec_sound`: A length is read back, and whatever
  is read is one.
* `readInstruction_complete`, `readLookup_complete`: So are the elements.
* `decodeAt_compact`: So is a message.
-/

namespace ShredStream

namespace Message

open Cursor

/-- A varint of one to four bytes whose value is `n`. -/
def Length (n : Nat) (w : Bytes) : Prop :=
  Varint.Terminated w ∧ w.length ≤ 4 ∧ Varint.value w = n

/-- The elements of a list, one after the other, after how many there are. -/
def Counted {α : Type} (G : α → Bytes → Prop) (as : List α) (w : Bytes) : Prop :=
  ∃ wn ws, Length as.length wn ∧ Many G as ws ∧ w = wn ++ ws

def AccountForm (account : Bytes) (w : Bytes) : Prop := account.length = 32 ∧ w = account

/-- The program, then the account indices and the data, each after its
    length. -/
def InstructionForm (ix : CompiledInstruction) (w : Bytes) : Prop :=
  ∃ wa wd, Length ix.accountIndices.length wa ∧ Length ix.data.length wd ∧
    w = [ix.programIndex] ++ (wa ++ (ix.accountIndices ++ (wd ++ ix.data)))

/-- The table, then the two index lists, each after its length. -/
def LookupForm (l : AddressTableLookup) (w : Bytes) : Prop :=
  l.tableAddress.length = 32 ∧ ∃ ww wr, Length l.writableIndexes.length ww ∧
    Length l.readonlyIndexes.length wr ∧
    w = l.tableAddress ++ (ww ++ (l.writableIndexes ++ (wr ++ l.readonlyIndexes)))

/-- A legacy message has no lookups and nothing is written for them. -/
def LookupsForm (version : Option UInt8) (ls : List AddressTableLookup) (w : Bytes) : Prop :=
  if version.isSome then Counted LookupForm ls w else ls = [] ∧ w = []

/-- Nothing before a legacy message, whose first header byte has the top bit
    clear; the version with the top bit set before any other. -/
def VersionForm (version : Option UInt8) (header : MessageHeader) (w : Bytes) : Prop :=
  match version with
  | none => header.numRequiredSignatures.toNat < 128 ∧ w = []
  | some v => v.toNat < 128 ∧ v ≠ 1 ∧ w = [0x80 ||| v]

def headerBytes (header : MessageHeader) : Bytes :=
  [header.numRequiredSignatures, header.numReadonlySigned, header.numReadonlyUnsigned]

/-- The written forms of a legacy or versioned message. -/
def CompactForm (m : CompiledMessage) (w : Bytes) : Prop :=
  ∃ wv wa wi wl, VersionForm m.version m.header wv ∧ Counted AccountForm m.staticAccounts wa ∧
    m.lifetimeToken.length = 32 ∧ Counted InstructionForm m.instructions wi ∧
    LookupsForm m.version m.addressTableLookups wl ∧
    w = wv ++ (headerBytes m.header ++ (wa ++ (m.lifetimeToken ++ (wi ++ wl))))

@[simp] theorem ok_bind {ε α β : Type} (a : α) (f : α → Except ε β) :
    (Except.ok a >>= f) = f a := rfl

@[simp] theorem pure_eq_ok {ε α : Type} (a : α) : (pure a : Except ε α) = .ok a := rfl

theorem byteAt_complete (buf : Bytes) (o : Nat) (b : UInt8) (what : String)
    (h : At buf o [b]) : byteAt buf o what = .ok b := by
  rw [byteAt, (at_singleton buf b o).mp h]

theorem take_complete (buf w : Bytes) (o n : Nat) (what : String) (h : At buf o w)
    (hn : w.length = n) : take buf o n what = .ok w := by
  subst hn
  rw [take, if_pos (at_length buf w o h), at_slice buf w o h]

/-- The loop reads the groups of a terminated varint, each shifted past those
    before it. There are as many rounds left as groups fit in 28 bits. -/
theorem shortvecLoop_complete (buf : Bytes) (what : String) (start rounds : Nat) :
    ∀ (value shift o : Nat) (w : Bytes), value < 2 ^ shift → shift + 7 * rounds = 28 →
      start ≤ o → Varint.Terminated w → w.length ≤ rounds → At buf o w →
        shortvecLoop buf what start rounds value shift o
          = .ok (value + 2 ^ shift * Varint.value w, o + w.length - start) := by
  induction rounds with
  | zero =>
      intro value shift o w _ _ _ hterm hlen _
      rw [List.length_eq_zero_iff.mp (Nat.le_zero.mp hlen)] at hterm
      exact hterm.elim
  | succ rounds ih =>
      intro value shift o w hvalue hshift hstart hterm hlen hat
      rcases w with _ | ⟨b, bs⟩
      · exact hterm.elim
      rw [at_cons, at_singleton] at hat
      have hvalue' := Varint.groups_lt value shift b hvalue
      rw [shortvecLoop]
      simp only [hat.1, Varint.and_mark_eq_zero, Varint.groups_or value shift b hvalue]
      by_cases hb : b.toNat < 128
      · -- The last byte.
        obtain rfl := (Varint.terminated_unmarked b bs hb).mp hterm
        rw [if_pos hb, Varint.value, Varint.value, Nat.mul_zero, Nat.add_zero]
        rfl
      · -- More bytes follow, so there are rounds left and the shift is in range.
        rw [Varint.terminated_marked b bs hb] at hterm
        have hpos := List.length_pos_iff.mpr (Varint.terminated_ne_nil bs hterm)
        rw [List.length_cons] at hlen
        rw [if_neg hb, if_neg (by omega), ih _ (shift + 7) (o + 1) bs hvalue' (by omega) (by omega)
          hterm (by omega) hat.2]
        have hend : o + 1 + bs.length - start = o + (b :: bs).length - start := by
          rw [List.length_cons]
          omega
        rw [Varint.groups_cons, hend]

/-- A length is read back, with its size. -/
theorem shortvec_complete (buf w : Bytes) (o n : Nat) (what : String) (h : Length n w)
    (hat : At buf o w) : shortvec buf o what = .ok (n, w.length) := by
  rcases h with ⟨hterm, hlen, hvalue⟩
  rw [shortvec, shortvecLoop_complete buf what o 4 0 0 o w (by decide) rfl (Nat.le_refl o) hterm
    hlen hat, Nat.zero_add, Nat.pow_zero, Nat.one_mul, hvalue, Nat.add_sub_cancel_left]

/-- Whatever the loop accepts is a terminated varint that stands where it
    started, with no more groups than rounds. -/
theorem shortvecLoop_sound (buf : Bytes) (what : String) (start rounds : Nat) :
    ∀ (value shift o n sz : Nat), value < 2 ^ shift → start ≤ o →
      shortvecLoop buf what start rounds value shift o = .ok (n, sz) →
        ∃ w, Varint.Terminated w ∧ w.length ≤ rounds ∧ n = value + 2 ^ shift * Varint.value w ∧
          At buf o w ∧ sz = o + w.length - start := by
  induction rounds with
  | zero =>
      intro value shift o n sz _ _ h
      simp only [shortvecLoop, reduceCtorEq] at h
  | succ rounds ih =>
      intro value shift o n sz hvalue hstart h
      rcases hget : buf[o]? with _ | b
      · simp only [shortvecLoop, hget, reduceCtorEq] at h
      have hvalue' := Varint.groups_lt value shift b hvalue
      have hat := (at_singleton buf b o).mpr hget
      simp only [shortvecLoop, hget, Varint.and_mark_eq_zero,
        Varint.groups_or value shift b hvalue] at h
      by_cases hb : b.toNat < 128
      · rw [if_pos hb, Except.ok.injEq, Prod.mk.injEq] at h
        refine ⟨[b], (Varint.terminated_unmarked b [] hb).mpr rfl, ?_, ?_, hat, h.2.symm⟩
        · rw [List.length_singleton]
          omega
        · rw [Varint.value, Varint.value, Nat.mul_zero, Nat.add_zero]
          exact h.1.symm
      · rw [if_neg hb] at h
        by_cases hshift : shift + 7 > 21
        · rw [if_pos hshift] at h
          cases h
        rw [if_neg hshift] at h
        rcases ih _ (shift + 7) (o + 1) n sz hvalue' (by omega) h with
          ⟨bs, hterm, hlen, rfl, hat', rfl⟩
        refine ⟨b :: bs, ?_, ?_, ?_, (at_cons buf b bs o).mpr ⟨hat, hat'⟩, ?_⟩
        · rwa [Varint.terminated_marked b bs hb]
        · rw [List.length_cons]
          omega
        · exact Varint.groups_cons value shift b bs
        · rw [List.length_cons]
          omega

/-- An accepted length is a varint of at most four bytes. -/
theorem shortvec_sound (buf : Bytes) (o n sz : Nat) (what : String)
    (h : shortvec buf o what = .ok (n, sz)) : ∃ w, Length n w ∧ At buf o w ∧ sz = w.length := by
  rcases shortvecLoop_sound buf what o 4 0 0 o n sz (by decide) (Nat.le_refl o) h with
    ⟨w, hterm, hlen, hn, hat, hsz⟩
  refine ⟨w, ⟨hterm, hlen, ?_⟩, hat, ?_⟩
  · rw [hn, Nat.zero_add, Nat.pow_zero, Nat.one_mul]
  · rw [hsz, Nat.add_sub_cancel_left]

theorem readAccount_complete : Complete AccountForm readAccount := by
  rintro buf o a w ⟨hlen, rfl⟩ hat
  simp only [readAccount, take_complete buf w o 32 _ hat hlen, ok_bind, pure_eq_ok, hlen]

theorem readInstruction_complete : Complete InstructionForm readInstruction := by
  rintro buf o ix w ⟨wa, wd, hwa, hwd, rfl⟩ hat
  -- The program, then each length and what it announces.
  simp only [at_append, List.length_singleton] at hat
  rcases hat with ⟨hp, hna, ha, hnd, hd⟩
  simp only [readInstruction, byteAt_complete buf o _ _ hp, shortvec_complete buf wa _ _ _ hwa hna,
    take_complete buf _ _ _ _ ha rfl, shortvec_complete buf wd _ _ _ hwd hnd,
    take_complete buf _ _ _ _ hd rfl, ok_bind, pure_eq_ok]
  simp only [List.length_append, List.length_singleton, Nat.add_assoc]

theorem readLookup_complete : Complete LookupForm readLookup := by
  rintro buf o l w ⟨ht, ww, wr, hww, hwr, rfl⟩ hat
  simp only [at_append, ht] at hat
  rcases hat with ⟨htable, hnw, hw, hnr, hr⟩
  simp only [readLookup, take_complete buf _ o 32 _ htable ht,
    shortvec_complete buf ww _ _ _ hww hnw, take_complete buf _ _ _ _ hw rfl,
    shortvec_complete buf wr _ _ _ hwr hnr, take_complete buf _ _ _ _ hr rfl, ok_bind, pure_eq_ok]
  simp only [List.length_append, ht, Nat.add_assoc]

theorem readLookups_complete (version : Option UInt8) :
    Complete (LookupsForm version) (readLookups version) := by
  intro buf o ls w h hat
  unfold LookupsForm at h
  unfold readLookups
  cases version with
  | none =>
      rcases h with ⟨rfl, rfl⟩
      rfl
  | some v =>
      rcases h with ⟨wn, ws, hn, hs, rfl⟩
      rw [at_append] at hat
      simp only [Option.isSome_some, if_true, shortvec_complete buf wn o _ _ hn hat.1, ok_bind,
        readMany_complete LookupForm readLookup readLookup_complete buf ls ws hs _ hat.2,
        List.length_append, Nat.add_assoc]

/-- What the first byte of a written message says: which decoder takes it,
    whether there is a version, and which. -/
theorem versionForm_first (version : Option UInt8) (header : MessageHeader) (wv rest buf : Bytes)
    (h : VersionForm version header wv) (hat : At buf 0 (wv ++ (headerBytes header ++ rest))) :
    ∃ first, buf[0]? = some first ∧ first ≠ 0x81 ∧
      (if first &&& 0x80 ≠ 0 then some (first &&& 0x7f) else none) = version ∧
      (if first &&& 0x80 ≠ 0 then 1 else 0) = wv.length := by
  cases version with
  | none =>
      -- The first byte is the first of the header, with its top bit clear.
      rcases h with ⟨hlt, rfl⟩
      refine ⟨header.numRequiredSignatures, ?_, ?_, ?_⟩
      · rw [List.nil_append, headerBytes, List.cons_append, at_cons, at_singleton] at hat
        exact hat.1
      · rintro heq
        rw [heq] at hlt
        revert hlt
        decide
      · have hclear := (Varint.and_mark_eq_zero header.numRequiredSignatures).mpr hlt
        simp only [hclear, ne_eq, not_true_eq_false, if_false, List.length_nil, and_self]
  | some v =>
      -- The first byte is the version with the top bit set.
      rcases h with ⟨hlt, hne, rfl⟩
      have hmark := Varint.toNat_mark_or v hlt
      refine ⟨0x80 ||| v, ?_, ?_, ?_⟩
      · rw [at_append, at_singleton] at hat
        exact hat.1
      · intro heq
        have hnat := congrArg UInt8.toNat heq
        rw [hmark] at hnat
        exact hne (UInt8.toNat_inj.mp (by rw [UInt8.toNat_one]; exact Nat.add_left_cancel hnat))
      · have hset : (0x80 ||| v) &&& 0x80 ≠ 0 := by
          rw [ne_eq, Varint.and_mark_eq_zero, hmark]
          omega
        have hlow : (0x80 ||| v) &&& 0x7f = v := by
          rw [← UInt8.toNat_inj, Varint.toNat_and_group, hmark]
          omega
        simp only [hset, hlow, ne_eq, not_false_eq_true, if_true, List.length_singleton, and_self]

theorem headerOf_headerBytes (header : MessageHeader) : headerOf (headerBytes header) = header :=
  rfl

/-- A message is read back from the start of a buffer. -/
theorem decodeAt_compact (buf w : Bytes) (m : CompiledMessage) (h : CompactForm m w)
    (hat : At buf 0 w) : decodeAt buf = .ok (m, w.length) := by
  rcases h with ⟨wv, wa, wi, wl, hv, ha, ht, hi, hl, rfl⟩
  rcases versionForm_first m.version m.header wv _ buf hv hat with ⟨first, hfirst, hne, hver, hoff⟩
  rcases ha with ⟨wna, was, hna, has, rfl⟩
  rcases hi with ⟨wni, wis, hni, his, rfl⟩
  have hbyte : byteAt buf 0 "empty message" = .ok first := by
    rw [byteAt, hfirst]
  have hhead : buf.head? ≠ some 0x81 := by
    rw [List.head?_eq_getElem?, hfirst, ne_eq, Option.some.injEq]
    exact hne
  have hlen : (headerBytes m.header).length = 3 := rfl
  -- Cut the form into the windows the decoder reads, one behind the other.
  rw [at_append, Nat.zero_add] at hat
  simp only [at_append, List.append_assoc, hlen, ht] at hat
  rcases hat with ⟨_, hheader, hcount, haccounts, htoken, hicount, hinstrs, hlookups⟩
  have hms := readMany_complete AccountForm readAccount readAccount_complete buf _ was has _
    haccounts
  have hmi := readMany_complete InstructionForm readInstruction readInstruction_complete buf _ wis
    his _ hinstrs
  have hml := readLookups_complete m.version buf _ _ wl hl hlookups
  rw [decodeAt, if_neg hhead, decodeCompact]
  simp only [hbyte, hver, hoff, ok_bind, take_complete buf _ _ 3 _ hheader hlen,
    shortvec_complete buf wna _ _ _ hna hcount, hms, take_complete buf _ _ 32 _ htoken ht,
    shortvec_complete buf wni _ _ _ hni hicount, hmi, hml, pure_eq_ok, headerOf_headerBytes]
  simp only [List.length_append, hlen, ht, Nat.add_assoc]

end Message

end ShredStream
