import ShredStream.Theory.Message.Truncation

/-!
# The Program of an Instruction

An instruction names its program by an index into the static accounts, and a
consumer reads `static_accounts[ix.program_index]`. The decoder reads the
index and the accounts in different loops and compares neither with the
other, so the index is whatever byte stood there.

Which inputs are safe to walk can be told from their bytes. The program bytes
stand at fixed distances in the header region of a version-1 message. In the
other layouts they are found by walking over the lengths, which needs no
decoder: a length says how many bytes to skip and nothing else is looked at.
Every accepted input is walked that way, and the decoded indices are safe
exactly when the bytes are below the number of accounts announced.

## Main definitions

* `announcedAccounts`: The account count in the input.
* `programBytes`: The bytes in the input that name a program.
* `ProgramsInRange`: Each of them is below the count.

## Theorems

* `programBytes_compact`, `programBytes_v1`: The walk finds what is decoded.
* `programs_in_range_iff`: When the decoded indices are safe.
* `strayProgram_out_of_range`: An accepted message they are not safe in.
-/

namespace ShredStream

namespace Message

open Cursor

/-- What is behind the header of a legacy or versioned message. -/
def behindHeader (buf : Bytes) : Bytes :=
  buf.drop (if buf.getD 0 0 < 0x80 then 3 else 4)

/-- Skip a length and as many bytes as it says, `width` times. -/
def skipCounted (width : Nat) (b : Bytes) : Bytes :=
  (Varint.split b).2.drop (width * Varint.value (Varint.split b).1)

/-- What is behind the accounts and the lifetime token. -/
def behindToken (buf : Bytes) : Bytes :=
  (skipCounted 32 (behindHeader buf)).drop 32

/-- The number of accounts the input announces. -/
def announcedAccounts (buf : Bytes) : Nat :=
  if buf.head? = some 0x81 then (buf.getD 41 0).toNat
  else Varint.value (Varint.split (behindHeader buf)).1

/-- The first byte of each of `n` instructions: behind it the account indices
    and the data are skipped. -/
def walkPrograms : Nat → Bytes → Bytes
  | 0, _ => []
  | n + 1, b => b.headD 0 :: walkPrograms n (skipCounted 1 (skipCounted 1 b.tail))

/-- The first byte of each of `n` headers of four bytes. -/
def headerPrograms : Nat → Bytes → Bytes
  | 0, _ => []
  | n + 1, b => b.headD 0 :: headerPrograms n (b.drop 4)

/-- The bytes of the input that name a program. -/
def programBytes (buf : Bytes) : Bytes :=
  if buf.head? = some 0x81 then
    -- Byte 40 counts the instructions, byte 41 the accounts.
    headerPrograms (buf.getD 40 0).toNat
      (buf.drop (42 + 32 * (buf.getD 41 0).toNat + configWidth (leNat ((buf.drop 4).take 4))))
  else
    walkPrograms (Varint.value (Varint.split (behindToken buf)).1)
      (Varint.split (behindToken buf)).2

/-- Each byte that names a program is below the number of accounts
    announced. -/
def ProgramsInRange (buf : Bytes) : Prop :=
  ∀ p ∈ programBytes buf, p.toNat < announcedAccounts buf

instance (buf : Bytes) : Decidable (ProgramsInRange buf) :=
  inferInstanceAs (Decidable (∀ p ∈ programBytes buf, p.toNat < announcedAccounts buf))

/-- A length and what it announces are skipped as a whole. -/
theorem skipCounted_append (width n : Nat) (w items rest : Bytes) (hw : Length n w)
    (hitems : items.length = width * n) : skipCounted width (w ++ (items ++ rest)) = rest := by
  rw [skipCounted, Varint.split_append w (items ++ rest) hw.1, hw.2.2, List.drop_left' hitems]

theorem walkPrograms_many (ixs : List CompiledInstruction) (ws : Bytes)
    (h : Many InstructionForm ixs ws) : ∀ rest,
      walkPrograms ixs.length (ws ++ rest) = ixs.map (fun ix => ix.programIndex) := by
  induction h with
  | nil =>
      intro rest
      rfl
  | cons ix ixs w ws hix _ ih =>
      intro rest
      -- Its program byte is taken, and two lengths are skipped.
      rcases hix with ⟨wa, wd, hwa, hwd, rfl⟩
      simp only [List.append_assoc, List.cons_append, List.nil_append, List.length_cons,
        walkPrograms, List.headD_cons, List.tail_cons, List.map_cons]
      rw [skipCounted_append 1 _ wa _ _ hwa (Nat.one_mul _).symm,
        skipCounted_append 1 _ wd _ _ hwd (Nat.one_mul _).symm, ih rest]

theorem headerPrograms_flatMap (ixs : List CompiledInstruction) : ∀ rest,
    headerPrograms ixs.length (ixs.flatMap v1Header ++ rest)
      = ixs.map (fun ix => ix.programIndex) := by
  induction ixs with
  | nil =>
      intro rest
      rfl
  | cons ix ixs ih =>
      intro rest
      -- Four bytes a header, the program first.
      rw [List.flatMap_cons, List.append_assoc, List.length_cons, headerPrograms,
        List.drop_left' (length_v1Header ix), ih rest]
      rfl

/-- Accounts take 32 bytes each. -/
theorem length_accounts (accounts : List Bytes) (w : Bytes) (h : Many AccountForm accounts w) :
    w.length = 32 * accounts.length := by
  induction h with
  | nil => rfl
  | cons a as w ws ha _ ih =>
      rcases ha with ⟨hlen, rfl⟩
      rw [List.length_append, hlen, ih, List.length_cons]
      omega

/-- The header of a written message is skipped with what is in front of it. -/
theorem behindHeader_append (version : Option UInt8) (header : MessageHeader) (wv rest : Bytes)
    (h : VersionForm version header wv) :
    behindHeader (wv ++ (headerBytes header ++ rest)) = rest := by
  cases version with
  | none =>
      rcases h with ⟨hlt, rfl⟩
      rw [List.nil_append, behindHeader, headerBytes, List.cons_append, List.getD_cons_zero,
        if_pos (UInt8.lt_iff_toNat_lt.mpr hlt)]
      rfl
  | some v =>
      rcases h with ⟨hlt, _, rfl⟩
      have hmark := Varint.toNat_mark_or v hlt
      -- With a version in front the header is one byte further.
      have hge : ¬ (0x80 ||| v) < 0x80 := by
        rw [UInt8.lt_iff_toNat_lt, hmark]
        exact Nat.not_lt_of_le (Nat.le_add_right 128 _)
      rw [behindHeader, List.singleton_append, List.getD_cons_zero, if_neg hge]
      rfl

/-- A written legacy or versioned message is not taken for a version-1 one. -/
theorem head_append (version : Option UInt8) (header : MessageHeader) (wv rest : Bytes)
    (h : VersionForm version header wv) :
    (wv ++ (headerBytes header ++ rest)).head? ≠ some 0x81 := by
  have hat : At (wv ++ (headerBytes header ++ rest)) 0 (wv ++ (headerBytes header ++ rest)) :=
    ⟨[], [], by rw [List.append_nil]; rfl, rfl⟩
  rcases versionForm_first version header wv rest _ h hat with ⟨first, hfirst, hne, _⟩
  rw [List.head?_eq_getElem?, hfirst, ne_eq, Option.some.injEq]
  exact hne

/-- The walk over a written legacy or versioned message finds its accounts and
    its programs. -/
theorem programBytes_compact (buf w : Bytes) (m : CompiledMessage) (h : CompactForm m w)
    (hat : At buf 0 w) : announcedAccounts buf = m.staticAccounts.length ∧
      programBytes buf = m.instructions.map (fun ix => ix.programIndex) := by
  rcases h with ⟨wv, wa, wi, wl, hv, ⟨wna, was, hna, has, rfl⟩, ht, ⟨wni, wis, hni, his, rfl⟩, _,
    rfl⟩
  rw [at_front buf _ hat]
  simp only [List.append_assoc]
  have hhead := head_append m.version m.header wv
  -- Version, header, accounts and token are skipped, one by one.
  rw [announcedAccounts, if_neg (hhead _ hv), programBytes, if_neg (hhead _ hv), behindToken,
    behindHeader_append m.version m.header wv _ hv, skipCounted_append 32 _ wna was _ hna
      (length_accounts _ was has), List.drop_left' ht, Varint.split_append wna _ hna.1,
    Varint.split_append wni _ hni.1, hna.2.2, hni.2.2, walkPrograms_many m.instructions wis his]
  exact ⟨rfl, rfl⟩

/-- The headers of a written version-1 message hold its programs. -/
theorem programBytes_v1 (buf w : Bytes) (m : CompiledMessage) (h : V1Form m w)
    (hat : At buf 0 w) : announcedAccounts buf = m.staticAccounts.length ∧
      programBytes buf = m.instructions.map (fun ix => ix.programIndex) := by
  rcases h with ⟨mask, wa, config, _, _, hka, hki, _, ha, ht, hmask, hconfig, rfl⟩
  have hnk : (UInt8.ofNat m.staticAccounts.length).toNat = m.staticAccounts.length :=
    UInt8.toNat_ofNat_of_lt' hka
  have hni : (UInt8.ofNat m.instructions.length).toNat = m.instructions.length :=
    UInt8.toNat_ofNat_of_lt' hki
  have hlen : (headerBytes m.header).length = 3 := rfl
  have hwa := length_accounts _ wa ha
  -- The fields the walk looks at, each where it stands.
  simp only [at_append, List.length_singleton, hlen, ht, hmask, hwa, hconfig, Nat.zero_add,
    Nat.reduceAdd] at hat
  rcases hat with ⟨hmarker, _, hm, _, hci, hck, _, _, hheaders, _⟩
  rw [at_singleton] at hmarker hci hck
  have hhead : buf.head? = some 0x81 := by
    rw [List.head?_eq_getElem?, hmarker]
  have hmask' := at_slice buf mask 4 hm
  rw [hmask] at hmask'
  -- The header region starts behind the accounts and the config values.
  have hregion := at_front _ _ ((at_drop buf _ _ (by have := at_length buf _ _ hheaders; omega)).mpr
    hheaders)
  simp only [announcedAccounts, programBytes, hhead, if_true, List.getD_eq_getElem?_getD, hci, hck,
    Option.getD_some, hnk, hni, hmask']
  rw [hregion, headerPrograms_flatMap]
  exact ⟨trivial, rfl⟩

/-- The decoded program indices are safe exactly when the bytes of the input
    that name a program are below the account count in the input. -/
theorem programs_in_range_iff (buf : Bytes) (m : CompiledMessage)
    (h : decodeMessage buf = .ok m) :
    (∀ ix ∈ m.instructions, ix.programIndex.toNat < m.staticAccounts.length) ↔
      ProgramsInRange buf := by
  rcases map_fst_eq_ok (decodeAt buf) m h with ⟨k, hd⟩
  -- What is decoded is written at the start, so the walk finds it.
  have hfound : announcedAccounts buf = m.staticAccounts.length ∧
      programBytes buf = m.instructions.map (fun ix => ix.programIndex) := by
    rcases decodeAt_sound buf m k hd with ⟨w, hform | hform, hat, _⟩
    · exact programBytes_v1 buf w m hform hat
    · exact programBytes_compact buf w m hform hat
  rw [ProgramsInRange, hfound.1, hfound.2]
  simp only [List.mem_map, forall_exists_index, and_imp, forall_apply_eq_imp_iff₂]

/-- A message with no accounts and one instruction. -/
def strayProgram : Bytes := [1, 0, 0, 0] ++ (List.replicate 32 9 ++ [1, 0, 0, 0])

def strayProgramMessage : CompiledMessage where
  version := none
  header := ⟨1, 0, 0⟩
  staticAccounts := []
  lifetimeToken := List.replicate 32 9
  instructions := [⟨0, [], []⟩]
  addressTableLookups := []

set_option maxRecDepth 2000 in
/-- It is accepted, and its instruction names a program that is not there. -/
theorem strayProgram_out_of_range :
    decodeMessage strayProgram = .ok strayProgramMessage ∧
      ¬ (∀ ix ∈ strayProgramMessage.instructions,
        ix.programIndex.toNat < strayProgramMessage.staticAccounts.length) := by
  refine ⟨rfl, ?_⟩
  decide

set_option maxRecDepth 4000 in
/-- The instruction of the padded message names account 4 of one, and that can
    be read off the bytes. -/
theorem paddedLegacy_programs :
    decodeMessage paddedLegacy = .ok paddedLegacyMessage ∧ programBytes paddedLegacy = [4] ∧
      announcedAccounts paddedLegacy = 1 ∧ ¬ ProgramsInRange paddedLegacy := by
  refine ⟨rfl, rfl, rfl, fun hrange => ?_⟩
  have hall := (programs_in_range_iff paddedLegacy paddedLegacyMessage rfl).mpr hrange
  exact absurd (hall ⟨4, [0], []⟩ List.mem_cons_self) (by decide)

end Message

end ShredStream
