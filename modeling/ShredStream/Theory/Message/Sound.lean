import ShredStream.Theory.Message.Version1

/-!
# What an Accepted Buffer Contains

The converse of the round trip. `Theory/Message/Layout.lean` and
`Theory/Message/Version1.lean` read back what is written; here a buffer comes
from anywhere and has been accepted, and it turns out to start with a written
form of the message that came out of it. Nothing is skipped and nothing is
read twice: the form is the message's fields and their lengths, one behind
the other, and for a version-1 message the mask and the config values.

Each reader is sound for its relation. An accepted slice fixes both its
content and its length, so a chain of reads gives a chain of windows, each
starting where the one before ends, and `at_append` makes one window of them.
Only a loop of no rounds reads nothing at all, and its offset is inside the
buffer because the read before it was.

## Theorems

* `take_sound`, `byteAt_sound`: An accepted slice is in the buffer.
* `readInstruction_sound`, `readLookup_sound`: So is an accepted element.
* `readPayloads_sound`: So are the two regions of the version-1 layout.
* `decodeCompact_sound`, `decodeV1_sound`: So is an accepted message.
* `decodeMessage_sound`: In the layout its first byte selects.
-/

namespace ShredStream

namespace Message

open Cursor

/-- A chain of fallible steps succeeds when each step does. -/
theorem bind_eq_ok {ε α β : Type} (x : Except ε α) (f : α → Except ε β) (b : β) :
    (x >>= f) = .ok b ↔ ∃ a, x = .ok a ∧ f a = .ok b := by
  rcases x with e | a
  · refine ⟨fun h => ?_, fun ⟨_, h, _⟩ => ?_⟩ <;> cases h
  · simp only [ok_bind, Except.ok.injEq, exists_eq_left']

/-- A result whose second half is dropped had one. -/
theorem map_fst_eq_ok {ε α β : Type} (x : Except ε (α × β)) (a : α)
    (h : x.map Prod.fst = .ok a) : ∃ b, x = .ok (a, b) := by
  rcases x with e | ⟨a', b⟩
  · cases h
  · cases h
    exact ⟨b, rfl⟩

theorem byteAt_sound (buf : Bytes) (o : Nat) (b : UInt8) (what : String)
    (h : byteAt buf o what = .ok b) : At buf o [b] := by
  unfold byteAt at h
  rcases hget : buf[o]? with _ | c
  · simp only [hget, reduceCtorEq] at h
  · simp only [hget, Except.ok.injEq] at h
    rw [← h]
    exact (at_singleton buf c o).mpr hget

theorem take_sound (buf w : Bytes) (o n : Nat) (what : String) (h : take buf o n what = .ok w) :
    At buf o w ∧ w.length = n := by
  unfold take at h
  by_cases hfit : o + n ≤ buf.length
  · rw [if_pos hfit, Except.ok.injEq] at h
    rw [← h]
    exact ⟨at_window buf o n hfit, length_window buf o n hfit⟩
  · rw [if_neg hfit] at h
    cases h

theorem readAccount_sound : Sound AccountForm readAccount := by
  intro buf o a o' h
  simp only [readAccount, bind_eq_ok, pure_eq_ok, Except.ok.injEq, Prod.mk.injEq] at h
  rcases h with ⟨w, hw, rfl, rfl⟩
  rcases take_sound buf w o 32 _ hw with ⟨hat, hlen⟩
  exact ⟨w, ⟨hlen, rfl⟩, hat, by rw [hlen]⟩

theorem readInstruction_sound : Sound InstructionForm readInstruction := by
  intro buf o ix o' h
  simp only [readInstruction, bind_eq_ok, pure_eq_ok, Except.ok.injEq, Prod.mk.injEq,
    Prod.exists] at h
  rcases h with ⟨p, hp, na, sa, hna, a, ha, nd, sd, hnd, d, hd, rfl, rfl⟩
  have hprogram := byteAt_sound buf o p _ hp
  rcases shortvec_sound buf _ na sa _ hna with ⟨wa, hwa, hata, rfl⟩
  rcases take_sound buf a _ na _ ha with ⟨haccounts, rfl⟩
  rcases shortvec_sound buf _ nd sd _ hnd with ⟨wd, hwd, hatd, rfl⟩
  rcases take_sound buf d _ nd _ hd with ⟨hdata, rfl⟩
  refine ⟨_, ⟨wa, wd, hwa, hwd, rfl⟩, ?_, ?_⟩
  · -- Each window starts where the one before ends.
    simp only [at_append, List.length_singleton]
    exact ⟨hprogram, hata, haccounts, hatd, hdata⟩
  · simp only [List.length_append, List.length_singleton, Nat.add_assoc]

theorem readLookup_sound : Sound LookupForm readLookup := by
  intro buf o l o' h
  simp only [readLookup, bind_eq_ok, pure_eq_ok, Except.ok.injEq, Prod.mk.injEq,
    Prod.exists] at h
  rcases h with ⟨t, ht, nw, sw, hnw, w, hw, nr, sr, hnr, r, hr, rfl, rfl⟩
  rcases take_sound buf t o 32 _ ht with ⟨htable, hlen⟩
  rcases shortvec_sound buf _ nw sw _ hnw with ⟨ww, hww, hatw, rfl⟩
  rcases take_sound buf w _ nw _ hw with ⟨hwritable, rfl⟩
  rcases shortvec_sound buf _ nr sr _ hnr with ⟨wr, hwr, hatr, rfl⟩
  rcases take_sound buf r _ nr _ hr with ⟨hreadonly, rfl⟩
  refine ⟨_, ⟨hlen, ww, wr, hww, hwr, rfl⟩, ?_, ?_⟩
  · simp only [at_append, hlen]
    exact ⟨htable, hatw, hwritable, hatr, hreadonly⟩
  · simp only [List.length_append, hlen, Nat.add_assoc]

/-- A counted loop behind its count. -/
theorem counted_sound {α : Type} (G : α → Bytes → Prop) (r : Reader UInt8 MessageDecodeError α)
    (hr : Sound G r) (buf : Bytes) (o n sz o' : Nat) (what : String) (as : List α)
    (hn : shortvec buf o what = .ok (n, sz)) (h : readMany r n buf (o + sz) = .ok (as, o')) :
    ∃ w, Counted G as w ∧ At buf o w ∧ o' = o + w.length := by
  rcases shortvec_sound buf o n sz what hn with ⟨wn, hwn, hat, rfl⟩
  have hinside := at_length buf wn o hat
  -- A loop of no rounds says nothing about its offset, so the count has to.
  rcases readMany_sound G r hr buf n (o + wn.length) as o' hinside h with
    ⟨hlen, ws, hmany, hat', rfl⟩
  refine ⟨wn ++ ws, ⟨wn, ws, by rw [hlen]; exact hwn, hmany, rfl⟩,
    (at_append buf wn ws o).mpr ⟨hat, hat'⟩, ?_⟩
  rw [List.length_append, Nat.add_assoc]

/-- A legacy message has no lookups to read, so nothing says where its offset
    is. -/
theorem readLookups_sound (version : Option UInt8) (buf : Bytes) (o o' : Nat)
    (ls : List AddressTableLookup) (ho : o ≤ buf.length)
    (h : readLookups version buf o = .ok (ls, o')) :
    ∃ w, LookupsForm version ls w ∧ At buf o w ∧ o' = o + w.length := by
  unfold readLookups at h
  unfold LookupsForm
  cases version with
  | none =>
      simp only [Option.isSome_none, Bool.false_eq_true, if_false, Except.ok.injEq,
        Prod.mk.injEq] at h
      rcases h with ⟨rfl, rfl⟩
      exact ⟨[], ⟨rfl, rfl⟩, at_nil buf o ho, rfl⟩
  | some v =>
      simp only [Option.isSome_some, if_true, bind_eq_ok, Prod.exists] at h
      rcases h with ⟨n, sz, hn, hmany⟩
      exact counted_sound LookupForm readLookup readLookup_sound buf o n sz o' _ ls hn hmany

/-- Three bytes are the header they are read as. -/
theorem headerBytes_headerOf (h : Bytes) (hlen : h.length = 3) : headerBytes (headerOf h) = h := by
  rcases h with _ | ⟨a, _ | ⟨b, _ | ⟨c, _ | ⟨d, rest⟩⟩⟩⟩ <;> simp only [List.length_cons,
    List.length_nil, Nat.reduceAdd, Nat.reduceEqDiff] at hlen
  rfl

/-- The byte in front of a message, and whether it belongs to the header. -/
theorem versionForm_of_first (buf h : Bytes) (first : UInt8) (hfirst : buf[0]? = some first)
    (hne : first ≠ 0x81) (hat : At buf (if first &&& 0x80 ≠ 0 then 1 else 0) h)
    (hlen : h.length = 3) :
    ∃ wv, VersionForm (if first &&& 0x80 ≠ 0 then some (first &&& 0x7f) else none) (headerOf h) wv ∧
      At buf 0 wv ∧ wv.length = if first &&& 0x80 ≠ 0 then 1 else 0 := by
  have hlow := Varint.and_mark_eq_zero first
  by_cases hmark : first &&& 0x80 = 0
  · -- No prefix: the byte is the first one of the header.
    simp only [hmark, ne_eq, not_true_eq_false, if_false] at hat ⊢
    have hbyte := headerBytes_headerOf h hlen
    rw [← hbyte, headerBytes, at_cons, at_singleton, hfirst, Option.some.injEq] at hat
    refine ⟨[], ⟨?_, rfl⟩, at_nil buf 0 (Nat.zero_le _), rfl⟩
    rw [← hat.1]
    exact hlow.mp hmark
  · -- A prefix, which is the version with its top bit set.
    have hge : ¬ first.toNat < 128 := fun hlt => hmark (hlow.mpr hlt)
    have hv := Varint.toNat_and_group first
    have hlt := first.toNat_lt
    have hsmall : (first &&& 0x7f).toNat < 128 := by omega
    have hback : 0x80 ||| (first &&& 0x7f) = first := by
      rw [← UInt8.toNat_inj, Varint.toNat_mark_or _ hsmall]
      omega
    simp only [hmark, ne_eq, not_false_eq_true, if_true]
    refine ⟨[first], ⟨hsmall, ?_, by rw [hback]⟩, (at_singleton buf first 0).mpr hfirst, rfl⟩
    intro hone
    rw [hone] at hback
    exact hne (by rw [← hback]; rfl)

/-- An accepted legacy or versioned message is written at the start of the
    buffer. -/
theorem decodeCompact_sound (buf : Bytes) (m : CompiledMessage) (k : Nat)
    (hhead : buf.head? ≠ some 0x81) (h : decodeCompact buf = .ok (m, k)) :
    ∃ w, CompactForm m w ∧ At buf 0 w ∧ k = w.length ∧ ∃ first, buf.head? = some first ∧
      m.version = if first &&& 0x80 ≠ 0 then some (first &&& 0x7f) else none := by
  simp only [decodeCompact, bind_eq_ok, pure_eq_ok, Except.ok.injEq, Prod.mk.injEq,
    Prod.exists] at h
  rcases h with ⟨first, hf, h3, hheader, na, sa, hna, accounts, oa, haccounts, token, htoken, ni,
    si, hni, instrs, oi, hinstrs, lookups, ol, hlookups, rfl, rfl⟩
  have hfirst := (at_singleton buf first 0).mp (byteAt_sound buf 0 first _ hf)
  have hne : first ≠ 0x81 := by
    rintro rfl
    exact hhead (by rw [List.head?_eq_getElem?, hfirst])
  rcases take_sound buf h3 _ 3 _ hheader with ⟨hath, hlenh⟩
  rcases versionForm_of_first buf h3 first hfirst hne hath hlenh with ⟨wv, hversion, hatv, hlenv⟩
  -- The version takes as many bytes as the decoder skips for it.
  rw [← hlenv] at hath hna haccounts
  rcases counted_sound AccountForm readAccount readAccount_sound buf _ na sa oa _ accounts hna
    haccounts with ⟨wa, hwa, hata, rfl⟩
  rcases take_sound buf token _ 32 _ htoken with ⟨hatt, hlent⟩
  rcases counted_sound InstructionForm readInstruction readInstruction_sound buf _ ni si oi _ instrs
    hni hinstrs with ⟨wi, hwi, hati, rfl⟩
  rcases readLookups_sound _ buf _ ol lookups (at_length buf wi _ hati) hlookups with
    ⟨wl, hwl, hatl, rfl⟩
  refine ⟨_, ⟨wv, wa, wi, wl, hversion, hwa, hlent, hwi, hwl, rfl⟩, ?_, ?_, first, ?_, rfl⟩
  · simp only [headerBytes_headerOf h3 hlenh, at_append, Nat.zero_add, hlenh, hlent]
    exact ⟨hatv, hath, hata, hatt, hati, hatl⟩
  · simp only [headerBytes_headerOf h3 hlenh, List.length_append, hlenh, hlent, hlenv,
      Nat.add_assoc]
  · rw [List.head?_eq_getElem?, hfirst]

/-- The headers an instruction region is cut into, written back. -/
def V1Header.bytes (h : V1Header) : Bytes :=
  [h.programIndex, h.numAccounts, h.dataLenLow, h.dataLenHigh]

/-- A region of four bytes a header is what its headers make up. -/
theorem headerChunks_bytes (n : Nat) : ∀ b : Bytes, b.length = 4 * n →
    (headerChunks b).length = n ∧ (headerChunks b).flatMap V1Header.bytes = b := by
  induction n with
  | zero =>
      intro b hb
      rw [List.length_eq_zero_iff.mp hb]
      exact ⟨rfl, rfl⟩
  | succ n ih =>
      intro b hb
      -- A region this long has the four bytes of its first header.
      rcases b with _ | ⟨a, _ | ⟨b, _ | ⟨c, _ | ⟨d, rest⟩⟩⟩⟩ <;>
        simp only [List.length_cons, List.length_nil] at hb <;> try omega
      rcases ih rest (by omega) with ⟨hlen, hflat⟩
      rw [headerChunks, List.length_cons, List.flatMap_cons, hlen, hflat]
      exact ⟨rfl, rfl⟩

/-- A number read from a field of the same width fits it, and is written back
    as the same bytes. -/
theorem leBytes_two (a b : UInt8) : leNat [a, b] < 65536 ∧ leBytes 2 (leNat [a, b]) = [a, b] := by
  have ha := a.toNat_lt
  have hb := b.toNat_lt
  refine ⟨?_, leBytes_leNat [a, b]⟩
  rw [leNat_cons, leNat_cons, leNat_nil]
  omega

/-- Walking the headers, the decoder takes a payload for each, one behind the
    other; and each header is the one its instruction would be given. -/
theorem readPayloads_sound (buf : Bytes) (hs : List V1Header) : ∀ (o o' : Nat)
    (ixs : List CompiledInstruction), o ≤ buf.length → readPayloads buf hs o = .ok (ixs, o') →
      ixs.length = hs.length ∧ (∀ ix ∈ ixs, FitsV1 ix) ∧
        ixs.flatMap v1Header = hs.flatMap V1Header.bytes ∧
        At buf o (ixs.flatMap v1Payload) ∧ o' = o + (ixs.flatMap v1Payload).length := by
  induction hs with
  | nil =>
      intro o o' ixs ho h
      simp only [readPayloads, Except.ok.injEq, Prod.mk.injEq] at h
      rcases h with ⟨rfl, rfl⟩
      exact ⟨rfl, fun ix hix => absurd hix List.not_mem_nil, rfl, at_nil buf o ho, rfl⟩
  | cons hd hs ih =>
      intro o o' ixs ho h
      simp only [readPayloads, bind_eq_ok, pure_eq_ok, Except.ok.injEq, Prod.mk.injEq,
        Prod.exists] at h
      rcases h with ⟨a, ha, d, hdat, rest, o'', hrest, rfl, rfl⟩
      -- The payload of the first header, then those of the others behind it.
      rcases take_sound buf a o _ _ ha with ⟨hata, hlena⟩
      rcases take_sound buf d _ _ _ hdat with ⟨hatd, hlend⟩
      have hinside := at_length buf d _ hatd
      rw [hlend] at hinside
      rcases ih _ o'' rest hinside hrest with ⟨hlen, hfit, hheaders, hatp, rfl⟩
      rcases leBytes_two hd.dataLenLow hd.dataLenHigh with ⟨hlt, hback⟩
      have hna := hd.numAccounts.toNat_lt
      refine ⟨by rw [List.length_cons, hlen, List.length_cons], ?_, ?_, ?_, ?_⟩
      · intro ix hix
        rcases List.mem_cons.mp hix with rfl | hix
        · exact ⟨by rw [hlena]; exact hna, by rw [hlend]; exact hlt⟩
        · exact hfit ix hix
      · rw [List.flatMap_cons, List.flatMap_cons, hheaders, v1Header, hlena, hlend, hback,
          UInt8.ofNat_toNat]
        rfl
      · rw [List.flatMap_cons, v1Payload]
        simp only [at_append, hlena, hlend, List.length_append, ← Nat.add_assoc] at hatp ⊢
        exact ⟨⟨hata, hatd⟩, hatp⟩
      · simp only [List.flatMap_cons, v1Payload, List.length_append, hlena, hlend, Nat.add_assoc]

/-- An accepted version-1 message is written at the start of the buffer. -/
theorem decodeV1_sound (buf : Bytes) (m : CompiledMessage) (k : Nat)
    (hhead : buf.head? = some 0x81) (h : decodeV1 buf = .ok (m, k)) :
    ∃ w, V1Form m w ∧ At buf 0 w ∧ k = w.length := by
  simp only [decodeV1, bind_eq_ok, pure_eq_ok, Except.ok.injEq, Prod.mk.injEq, Prod.exists] at h
  rcases h with ⟨h3, hheader, mask, hmask, token, htoken, ni, hni, nk, hnk, accounts, oa, haccounts,
    config, hconfig, headers, hheaders, instrs, oi, hinstrs, rfl, rfl⟩
  rcases take_sound buf h3 1 3 _ hheader with ⟨hath, hlenh⟩
  rcases take_sound buf mask 4 4 _ hmask with ⟨hatm, hlenm⟩
  rcases take_sound buf token 8 32 _ htoken with ⟨hatt, hlent⟩
  have hatni := byteAt_sound buf 40 ni _ hni
  have hatnk := byteAt_sound buf 41 nk _ hnk
  have hinside := at_length buf [nk] 41 hatnk
  rcases readMany_sound AccountForm readAccount readAccount_sound buf nk.toNat 42 accounts oa
    hinside haccounts with ⟨hcount, wa, hmany, hata, rfl⟩
  rcases take_sound buf config _ _ _ hconfig with ⟨hatc, hlenc⟩
  rcases take_sound buf headers _ _ _ hheaders with ⟨hatr, hlenr⟩
  have hends := at_length buf headers _ hatr
  rw [hlenr] at hends
  -- The header region, cut up, is what the instructions write there.
  rcases headerChunks_bytes ni.toNat headers hlenr with ⟨hchunks, hflat⟩
  rcases readPayloads_sound buf (headerChunks headers) _ oi instrs hends hinstrs with
    ⟨hnum, hfit, hregion, hatp, rfl⟩
  rw [hflat] at hregion
  rw [hchunks] at hnum
  have hnk' := nk.toNat_lt
  have hni' := ni.toNat_lt
  refine ⟨_, ⟨mask, wa, config, rfl, rfl, by rw [hcount]; exact hnk', by rw [hnum]; exact hni',
    hfit, hmany, hlent, hlenm, by rw [hlenc, configLen_eq], rfl⟩, ?_, ?_⟩
  · simp only [hcount, hnum, UInt8.ofNat_toNat, headerBytes_headerOf h3 hlenh, hregion, at_append,
      List.length_singleton, hlenh, hlenm, hlent, hlenc, hlenr, Nat.zero_add, Nat.reduceAdd]
    refine ⟨(at_singleton buf 0x81 0).mpr ?_, hath, hatm, hatt, hatni, hatnk, hata, hatc, hatr,
      hatp⟩
    rw [← List.head?_eq_getElem?, hhead]
  · simp only [headerBytes_headerOf h3 hlenh, hregion, List.length_append, List.length_singleton,
      hlenh, hlenm, hlent, hlenc, hlenr]
    omega

/-- Whatever is accepted is written at the start of the buffer, in the layout
    that its first byte selects. -/
theorem decodeMessage_sound (buf : Bytes) (m : CompiledMessage) (h : decodeMessage buf = .ok m) :
    ∃ w rest first, buf = w ++ rest ∧ buf.head? = some first ∧
      (first < 0x80 → m.version = none ∧ CompactForm m w) ∧
      (first = 0x81 → V1Form m w) ∧
      (0x80 ≤ first → first ≠ 0x81 → m.version = some (first &&& 0x7f) ∧ CompactForm m w) := by
  rcases map_fst_eq_ok (decodeAt buf) m h with ⟨k, hd⟩
  unfold decodeAt at hd
  by_cases hhead : buf.head? = some 0x81
  · rw [if_pos hhead] at hd
    rcases decodeV1_sound buf m k hhead hd with ⟨w, hform, hat, _⟩
    -- The marker is above 0x7f and is no other prefix byte.
    refine ⟨w, buf.drop w.length, 0x81, at_front buf w hat, hhead, ?_, fun _ => hform, ?_⟩
    · intro hlt
      exact absurd hlt (by decide)
    · intro _ hne
      exact absurd rfl hne
  · rw [if_neg hhead] at hd
    rcases decodeCompact_sound buf m k hhead hd with ⟨w, hform, hat, _, first, hfirst, hversion⟩
    -- A set top bit is a version prefix, a clear one a legacy header.
    have hlow := Varint.and_mark_eq_zero first
    refine ⟨w, buf.drop w.length, first, at_front buf w hat, hfirst, ?_, ?_, ?_⟩
    · intro hlt
      have hclear := hlow.mpr (UInt8.lt_iff_toNat_lt.mp hlt)
      rw [hversion, if_neg (by rw [hclear]; decide)]
      exact ⟨rfl, hform⟩
    · rintro rfl
      exact absurd hfirst hhead
    · intro hge _
      have hset : first &&& 0x80 ≠ 0 := by
        intro hclear
        exact absurd (UInt8.le_iff_toNat_le.mp hge) (Nat.not_le_of_lt (hlow.mp hclear))
      rw [hversion, if_pos hset]
      exact ⟨rfl, hform⟩

/-- A legacy message of one account and one instruction, with two of its
    lengths in two bytes, and bytes behind it. -/
def paddedLegacy : Bytes :=
  [1, 0, 0] ++ ([0x81, 0x00] ++ (List.replicate 32 7 ++ (List.replicate 32 9 ++
    [0x01, 4, 0x01, 0, 0x80, 0x00, 0xff, 0xff])))

def paddedLegacyMessage : CompiledMessage where
  version := none
  header := ⟨1, 0, 0⟩
  staticAccounts := [List.replicate 32 7]
  lifetimeToken := List.replicate 32 9
  instructions := [⟨4, [0], []⟩]
  addressTableLookups := []

set_option maxRecDepth 4000 in
/-- It is accepted, so it is written at the start of those bytes. -/
theorem paddedLegacy_sound :
    ∃ w rest first, paddedLegacy = w ++ rest ∧ paddedLegacy.head? = some first ∧
      (first < 0x80 → paddedLegacyMessage.version = none ∧ CompactForm paddedLegacyMessage w) ∧
      (first = 0x81 → V1Form paddedLegacyMessage w) ∧
      (0x80 ≤ first → first ≠ 0x81 → paddedLegacyMessage.version = some (first &&& 0x7f) ∧
        CompactForm paddedLegacyMessage w) :=
  decodeMessage_sound paddedLegacy paddedLegacyMessage rfl

end Message

end ShredStream
