import ShredStream.Core.Checked
import ShredStream.Theory.Message.Sound

/-!
# The Message Decoder Does Not Panic

Every slice of a program is shorter than 2^63 bytes. On such a buffer no sum
of the decoder leaves the width of `usize`: an offset that has been read up to
lies inside the buffer, and what is added to it next is a constant, a length of
at most 28 bits, or a length that has just been found to fit. So the checked
decoder gives the result of the plain one.

## Theorems

* `shortvec_bound`, `take_bound`: What has been read bounds the next offset.
* `returns_shortvec`, `returns_take`: The two readers.
* `returns_take_add`: A slice, and the offset past it.
* `returns_readInstruction`, `returns_readLookup`: The rounds of the loops.
* `returns_decodeV1`, `returns_decodeCompact`: The two decoders.
* `returns_decodeMessage`, `returns_messageBytes`: What `parse` is made of.
-/

namespace ShredStream

namespace Checked

open MayPanic Cursor

section Buffer

variable (buf : Bytes)

/-! ### What has been read bounds the next offset -/

theorem take_bound (w : Bytes) (o n : Nat) (what : String)
    (h : Message.take buf o n what = .ok w) : o + n ≤ buf.length ∧ w.length = n := by
  rcases Message.take_sound buf w o n what h with ⟨hat, hlen⟩
  exact ⟨hlen ▸ at_length buf w o hat, hlen⟩

theorem byteAt_bound (o : Nat) (b : UInt8) (what : String)
    (h : Message.byteAt buf o what = .ok b) : o + 1 ≤ buf.length :=
  at_length buf [b] o (Message.byteAt_sound buf o b what h)

/-- A length has at most 28 bits, and stands inside the buffer. -/
theorem shortvec_bound (o n sz : Nat) (what : String)
    (h : Message.shortvec buf o what = .ok (n, sz)) : n < 2 ^ 28 ∧ o + sz ≤ buf.length := by
  rcases Message.shortvec_sound buf o n sz what h with ⟨w, ⟨_, hlen, rfl⟩, hat, rfl⟩
  refine ⟨?_, at_length buf w o hat⟩
  exact Nat.lt_of_lt_of_le (Varint.value_lt w) (Nat.pow_le_pow_right (by decide) hlen)

/-! ### Readers -/

/-- The groups of a varint are shifted within the width. -/
theorem group_lt (b : UInt8) (shift : Nat) (h : shift ≤ 57) :
    (b &&& 0x7f).toNat <<< shift < 2 ^ 64 := by
  have hb : (b &&& 0x7f).toNat < 2 ^ 7 := by
    rw [Varint.toNat_and_group]
    exact Nat.mod_lt _ (by decide)
  rw [Nat.shiftLeft_eq]
  calc (b &&& 0x7f).toNat * 2 ^ shift < 2 ^ 7 * 2 ^ shift :=
        Nat.mul_lt_mul_of_pos_right hb (Nat.two_pow_pos shift)
    _ = 2 ^ (7 + shift) := (Nat.pow_add 2 7 shift).symm
    _ ≤ 2 ^ 64 := Nat.pow_le_pow_right (by decide) (by omega)

/-- The loop has as many rounds left as groups fit in 28 bits. -/
theorem returns_shortvecLoop (what : String) (start rounds : Nat) (hfit : buf.length < 2 ^ 63) :
    ∀ value shift o, shift + 7 * rounds = 28 → start ≤ o → 0 < rounds →
      Returns (shortvecLoop buf what start rounds value shift o)
        (Message.shortvecLoop buf what start rounds value shift o) := by
  induction rounds with
  | zero =>
      intro value shift o _ _ hpos
      exact absurd hpos (Nat.lt_irrefl 0)
  | succ rounds ih =>
      intro value shift o hshift hstart _
      rw [shortvecLoop, Message.shortvecLoop]
      rcases hget : buf[o]? with _ | b
      · exact returns_throw _
      have ho : o < buf.length := (List.getElem?_eq_some_iff.mp hget).1
      refine returns_step _ _ _ _ (add_ok o 1 (by omega)) ?_
      refine returns_step _ _ _ _ (shl_ok _ shift (by omega) (group_lt b shift (by omega))) ?_
      by_cases hlast : b &&& 0x80 = 0
      · simp only [if_pos hlast]
        exact returns_step _ _ _ _ (sub_ok (o + 1) start (by omega)) (returns_pure _)
      · simp only [if_neg hlast]
        refine returns_step _ _ _ _ (addU32_ok shift 7 (by omega)) ?_
        by_cases hover : shift + 7 > 21
        · simp only [if_pos hover]
          exact returns_throw _
        · simp only [if_neg hover]
          exact ih _ _ _ (by omega) (by omega) (by omega)

theorem returns_shortvec (o : Nat) (what : String) (hfit : buf.length < 2 ^ 63) :
    Returns (shortvec buf o what) (Message.shortvec buf o what) :=
  returns_shortvecLoop buf what o 4 hfit 0 0 o rfl (Nat.le_refl o) (by decide)

theorem returns_take (o len : Nat) (what : String) (h : o + len < 2 ^ 64) :
    Returns (take buf o len what) (Message.take buf o len what) := by
  refine returns_step _ _ _ _ (add_ok o len h) ?_
  rw [get_window, Message.take]
  by_cases hfit : o + len ≤ buf.length
  · rw [if_pos hfit, if_pos hfit]
    exact returns_pure _
  · rw [if_neg hfit, if_neg hfit]
    exact returns_throw _

/-- A slice is taken, and the offset moves past it. -/
theorem returns_take_add {β : Type} (o len : Nat) (what : String) (h : o + len < 2 ^ 64)
    (f : Bytes → Nat → Result β) (g : Bytes → Except MessageDecodeError β)
    (hf : ∀ w, o + len ≤ buf.length → Returns (f w (o + len)) (g w)) :
    Returns (take buf o len what >>= fun w => liftM (add o len) >>= f w)
      (Message.take buf o len what >>= g) := by
  refine returns_bind _ _ _ _ (returns_take buf o len what h) (fun w hw => ?_)
  exact returns_step _ _ _ _ (add_ok o len h) (hf w (take_bound buf w o len what hw).1)

theorem returns_byteAt (o : Nat) (what : String) :
    Returns (byteAt buf o what) (Message.byteAt buf o what) := by
  unfold byteAt Message.byteAt
  cases buf[o]? with
  | none => exact returns_throw _
  | some b => exact returns_pure _

/-- An index below the length, with the byte it finds. -/
theorem byte_ok (xs : Bytes) (i : Nat) (h : i < xs.length) : byte xs i = .ok (xs.getD i 0) := by
  refine index_ok xs i _ ?_
  rw [List.getD_eq_getElem?_getD, List.getElem?_eq_getElem h, Option.getD_some]

theorem headerOf_ok (h : Bytes) (hlen : h.length = 3) : headerOf h = .ok (Message.headerOf h) := by
  refine ok_step _ _ _ _ (byte_ok h 0 (by omega)) ?_
  refine ok_step _ _ _ _ (byte_ok h 1 (by omega)) ?_
  exact ok_step _ _ _ _ (byte_ok h 2 (by omega)) rfl

/-! ### Loops -/

theorem returns_readAccount (hfit : buf.length < 2 ^ 63) (o : Nat) (ho : o ≤ buf.length) :
    Returns (readAccount buf o) (Message.readAccount buf o) :=
  returns_take_add buf o 32 _ (by omega) _ _ (fun _ _ => returns_pure _)

theorem returns_readInstruction (hfit : buf.length < 2 ^ 63) (o : Nat) :
    Returns (readInstruction buf o) (Message.readInstruction buf o) := by
  refine returns_bind _ _ _ _ (returns_byteAt buf o _) (fun p hp => ?_)
  have h0 := byteAt_bound buf o p _ hp
  refine returns_step _ _ _ _ (add_ok o 1 (by omega)) ?_
  refine returns_bind _ _ _ _ (returns_shortvec buf _ _ hfit) ?_
  rintro ⟨na, sa⟩ hna
  -- 28 bits on top of an offset inside the buffer stay in the width.
  rcases shortvec_bound buf _ na sa _ hna with ⟨hna28, h1⟩
  refine returns_step _ _ _ _ (add_ok (o + 1) sa (by omega)) ?_
  refine returns_take_add buf (o + 1 + sa) na _ (by omega) _ _ (fun a h2 => ?_)
  refine returns_bind _ _ _ _ (returns_shortvec buf _ _ hfit) ?_
  rintro ⟨nd, sd⟩ hnd
  rcases shortvec_bound buf _ nd sd _ hnd with ⟨hnd28, h3⟩
  refine returns_step _ _ _ _ (add_ok (o + 1 + sa + na) sd (by omega)) ?_
  exact returns_take_add buf _ nd _ (by omega) _ _ (fun _ _ => returns_pure _)

theorem returns_readLookup (hfit : buf.length < 2 ^ 63) (o : Nat) (ho : o ≤ buf.length) :
    Returns (readLookup buf o) (Message.readLookup buf o) := by
  refine returns_take_add buf o 32 _ (by omega) _ _ (fun t h0 => ?_)
  refine returns_bind _ _ _ _ (returns_shortvec buf _ _ hfit) ?_
  rintro ⟨nw, sw⟩ hnw
  rcases shortvec_bound buf _ nw sw _ hnw with ⟨hnw28, h1⟩
  refine returns_step _ _ _ _ (add_ok (o + 32) sw (by omega)) ?_
  refine returns_take_add buf (o + 32 + sw) nw _ (by omega) _ _ (fun w h2 => ?_)
  refine returns_bind _ _ _ _ (returns_shortvec buf _ _ hfit) ?_
  rintro ⟨nr, sr⟩ hnr
  rcases shortvec_bound buf _ nr sr _ hnr with ⟨hnr28, h3⟩
  refine returns_step _ _ _ _ (add_ok (o + 32 + sw + nw) sr (by omega)) ?_
  exact returns_take_add buf _ nr _ (by omega) _ _ (fun _ _ => returns_pure _)

/-- A counted loop, from its length on. -/
theorem returns_counted {α : Type} (hfit : buf.length < 2 ^ 63)
    (r : Bytes → Nat → Result (α × Nat)) (p : Reader UInt8 MessageDecodeError α)
    (G : α → Bytes → Prop) (hp : Sound G p)
    (h : ∀ o, o ≤ buf.length → Returns (r buf o) (p buf o)) (size : Nat) (hsize : size ≤ 2 ^ 30)
    (o n sz : Nat) (what : String) (hn : Message.shortvec buf o what = .ok (n, sz)) :
    add o sz = .ok (o + sz) ∧ reserve n size = .ok () ∧
      Returns (many r n buf (o + sz)) (readMany p n buf (o + sz)) := by
  rcases shortvec_bound buf o n sz what hn with ⟨hn28, hbound⟩
  refine ⟨add_ok o sz (by omega), reserve_ok n size ?_, returns_many r p G hp buf h n _ hbound⟩
  calc n * size ≤ 2 ^ 28 * 2 ^ 30 := Nat.mul_le_mul (Nat.le_of_lt hn28) hsize
    _ < 2 ^ 63 := by decide

theorem returns_readLookups (hfit : buf.length < 2 ^ 63) (version : Option UInt8) (o : Nat) :
    Returns (readLookups version buf o) (Message.readLookups version buf o) := by
  unfold readLookups Message.readLookups
  cases version with
  | none => exact returns_pure _
  | some v =>
      refine returns_bind _ _ _ _ (returns_shortvec buf o _ hfit) ?_
      rintro ⟨n, sz⟩ hn
      rcases returns_counted buf hfit readLookup Message.readLookup _ Message.readLookup_sound
        (returns_readLookup buf hfit) 48 (by decide) o n sz _ hn with ⟨hadd, hroom, hmany⟩
      exact returns_step _ _ _ _ hadd (returns_step _ _ _ _ hroom hmany)

/-! ### The two layouts -/

theorem returns_decodeCompact (hfit : buf.length < 2 ^ 63) :
    Returns (decodeCompact buf) (Message.decodeCompact buf) := by
  refine returns_bind _ _ _ _ (returns_byteAt buf 0 _) (fun first _ => ?_)
  -- The header starts behind the version byte, if there is one.
  have hstart : (if first &&& 0x80 ≠ 0 then 1 else 0) ≤ 1 := by split <;> decide
  generalize (if first &&& 0x80 ≠ 0 then 1 else 0) = o at hstart ⊢
  refine returns_bind _ _ _ _ (returns_take buf o 3 _ (by omega)) (fun h hh => ?_)
  rcases take_bound buf h o 3 _ hh with ⟨h0, hlen⟩
  refine returns_step _ _ _ _ (headerOf_ok h hlen) ?_
  refine returns_step _ _ _ _ (add_ok o 3 (by omega)) ?_
  refine returns_bind _ _ _ _ (returns_shortvec buf _ _ hfit) ?_
  rintro ⟨na, sa⟩ hna
  rcases returns_counted buf hfit readAccount Message.readAccount _ Message.readAccount_sound
    (returns_readAccount buf hfit) 16 (by decide) _ na sa _ hna with ⟨hadd, hroom, hmany⟩
  refine returns_step _ _ _ _ hadd (returns_step _ _ _ _ hroom ?_)
  refine returns_bind _ _ _ _ hmany ?_
  rintro ⟨accounts, o'⟩ haccounts
  rcases Message.counted_sound _ _ Message.readAccount_sound buf _ na sa o' _ accounts hna haccounts
    with ⟨wa, _, hata, ho'⟩
  have h1 := at_length buf wa _ hata
  refine returns_take_add buf o' 32 _ (by omega) _ _ (fun t h2 => ?_)
  refine returns_bind _ _ _ _ (returns_shortvec buf _ _ hfit) ?_
  rintro ⟨ni, si⟩ hni
  rcases returns_counted buf hfit readInstruction Message.readInstruction _
    Message.readInstruction_sound (fun o _ => returns_readInstruction buf hfit o) 40 (by decide)
    _ ni si _ hni with ⟨hadd, hroom, hmany⟩
  refine returns_step _ _ _ _ hadd (returns_step _ _ _ _ hroom ?_)
  refine returns_bind _ _ _ _ hmany ?_
  rintro ⟨instructions, o''⟩ _
  refine returns_bind _ _ _ _ (returns_readLookups buf hfit _ o'') ?_
  rintro ⟨lookups, o'''⟩ _
  exact returns_pure _

/-- The config values take at most 20 bytes. -/
theorem configLen_ok (mask : Nat) : configLen mask = .ok (Message.configLen mask) ∧
    Message.configLen mask ≤ 20 := by
  have hbit : ∀ k, (mask >>> k) &&& 1 ≤ 1 := fun k => Nat.and_le_right
  have h2 := hbit 2
  have h3 := hbit 3
  have h4 := hbit 4
  unfold configLen Message.configLen
  -- Eight bytes and three times four.
  have hprice : (if mask &&& 0b11 = 0b11 then 8 else 0) ≤ 8 := by split <;> decide
  generalize (if mask &&& 0b11 = 0b11 then 8 else 0) = price at hprice ⊢
  refine ⟨?_, by omega⟩
  refine ok_step _ _ _ _ (mul_ok 4 _ (by omega)) ?_
  refine ok_step _ _ _ _ (add_ok price _ (by omega)) ?_
  refine ok_step _ _ _ _ (mul_ok 4 _ (by omega)) ?_
  refine ok_step _ _ _ _ (add_ok _ _ (by omega)) ?_
  refine ok_step _ _ _ _ (mul_ok 4 _ (by omega)) ?_
  exact add_ok _ _ (by omega)

/-- The chunks of four bytes are the headers. -/
theorem chunksExact_headers (n : Nat) : ∀ b : Bytes, b.length = 4 * n →
    chunksExact 4 b = (Message.headerChunks b).map Message.V1Header.bytes := by
  induction n with
  | zero =>
      intro b hb
      rw [List.length_eq_zero_iff.mp hb]
      rfl
  | succ n ih =>
      intro b hb
      rcases b with _ | ⟨a, _ | ⟨b, _ | ⟨c, _ | ⟨d, rest⟩⟩⟩⟩ <;>
        simp only [List.length_cons, List.length_nil] at hb <;> try omega
      rw [Message.headerChunks, List.map_cons, ← ih rest (by omega)]
      exact chunksExact_append 4 (by decide) [a, b, c, d] rest rfl

theorem returns_readPayloads (hfit : buf.length < 2 ^ 63) (hs : List Message.V1Header) :
    ∀ o, o ≤ buf.length → Returns (readPayloads buf (hs.map Message.V1Header.bytes) o)
      (Message.readPayloads buf hs o) := by
  induction hs with
  | nil =>
      intro o _
      exact returns_pure _
  | cons h hs ih =>
      intro o ho
      have hbytes := h.numAccounts.toNat_lt
      have hwords := (Message.leBytes_two h.dataLenLow h.dataLenHigh).1
      rw [List.map_cons, readPayloads, Message.readPayloads]
      refine returns_step _ _ _ _ (byte_ok h.bytes 1 (Nat.le_of_ble_eq_true rfl)) ?_
      refine returns_step _ _ _ _ (byte_ok h.bytes 2 (Nat.le_of_ble_eq_true rfl)) ?_
      refine returns_step _ _ _ _ (byte_ok h.bytes 3 (Nat.le_of_ble_eq_true rfl)) ?_
      refine returns_take_add buf o h.numAccounts.toNat _ (by omega) _ _ (fun a h0 => ?_)
      refine returns_take_add buf _ (leNat [h.dataLenLow, h.dataLenHigh]) _ (by omega) _ _
        (fun d h1 => ?_)
      refine returns_step _ _ _ _ (byte_ok h.bytes 0 (Nat.le_of_ble_eq_true rfl)) ?_
      refine returns_bind _ _ _ _ (ih _ h1) ?_
      rintro ⟨instructions, o'⟩ _
      exact returns_pure _

theorem returns_decodeV1 (hfit : buf.length < 2 ^ 63) :
    Returns (decodeV1 buf) (Message.decodeV1 buf) := by
  refine returns_bind _ _ _ _ (returns_take buf 1 3 _ (by decide)) (fun h hh => ?_)
  refine returns_step _ _ _ _ (headerOf_ok h (take_bound buf h 1 3 _ hh).2) ?_
  refine returns_bind _ _ _ _ (returns_take buf 4 4 _ (by decide)) (fun mask hmask => ?_)
  refine returns_step _ _ _ _ (tryInto_ok 4 mask (take_bound buf mask 4 4 _ hmask).2) ?_
  refine returns_bind _ _ _ _ (returns_take buf 8 32 _ (by decide)) (fun t _ => ?_)
  refine returns_bind _ _ _ _ (returns_byteAt buf 40 _) (fun ni _ => ?_)
  refine returns_bind _ _ _ _ (returns_byteAt buf 41 _) (fun nk hnk => ?_)
  have h0 := byteAt_bound buf 41 nk _ hnk
  have hni := ni.toNat_lt
  have hnk := nk.toNat_lt
  refine returns_step _ _ _ _ (reserve_ok nk.toNat 16 (by omega)) ?_
  refine returns_bind _ _ _ _ (returns_many readAccount _ _ Message.readAccount_sound buf
    (returns_readAccount buf hfit) nk.toNat 42 h0) ?_
  rintro ⟨accounts, o⟩ haccounts
  -- The loop ends inside the buffer, where its last account ends.
  rcases readMany_sound _ _ Message.readAccount_sound buf nk.toNat 42 accounts o h0 haccounts
    with ⟨_, w, _, hat, ho⟩
  have h1 := at_length buf w 42 hat
  rcases configLen_ok (leNat mask) with ⟨hcfg, hsmall⟩
  refine returns_step _ _ _ _ hcfg ?_
  refine returns_take_add buf o _ _ (by omega) _ _ (fun v h2 => ?_)
  refine returns_step _ _ _ _ (mul_ok 4 ni.toNat (by omega)) ?_
  refine returns_bind _ _ _ _ (returns_take buf _ _ _ (by omega)) (fun headers hheaders => ?_)
  rcases take_bound buf headers _ _ _ hheaders with ⟨h3, hlen⟩
  refine returns_step _ _ _ _ (mul_ok 4 ni.toNat (by omega)) ?_
  refine returns_step _ _ _ _ (add_ok _ _ (by omega)) ?_
  refine returns_step _ _ _ _ (reserve_ok ni.toNat 40 (by omega)) ?_
  rw [chunksExact_headers ni.toNat headers hlen]
  refine returns_bind _ _ _ _ (returns_readPayloads buf hfit _ _ h3) ?_
  rintro ⟨instructions, o'⟩ _
  exact returns_pure _

theorem returns_decodeMessage (hfit : buf.length < 2 ^ 63) :
    Returns (decodeMessage buf) (Message.decodeMessage buf) := by
  have hat : Returns (decodeAt buf) (Message.decodeAt buf) := by
    unfold decodeAt Message.decodeAt
    split
    · exact returns_decodeV1 buf hfit
    · exact returns_decodeCompact buf hfit
  have hmap : Message.decodeMessage buf = (Message.decodeAt buf >>= fun r => pure r.1) := by
    unfold Message.decodeMessage
    cases Message.decodeAt buf <;> rfl
  rw [hmap]
  refine returns_bind _ _ _ _ hat ?_
  rintro ⟨message, o⟩ _
  exact returns_pure _

theorem returns_messageBytes (hfit : buf.length < 2 ^ 63) :
    Returns (messageBytes buf) (Message.messageBytes buf) := by
  unfold messageBytes Message.messageBytes
  -- The slice of a version-1 container ends where `checked_sub` says.
  by_cases hfirst : buf.head? = some 0x81
  · rw [if_pos hfirst, if_pos hfirst]
    refine returns_bind _ _ _ _ (returns_byteAt buf 1 _) (fun n _ => ?_)
    have hn := n.toNat_lt
    refine returns_step _ _ _ _ (mul_ok 64 n.toNat (by omega)) ?_
    rcases hend : (Message.checkedSub buf.length (64 * n.toNat)).filter (fun e => 42 ≤ e)
      with _ | e
    · rw [hend]
      exact returns_throw _
    have hle : e ≤ buf.length := by
      have hsub := (Option.filter_eq_some_iff.mp hend).1
      unfold Message.checkedSub at hsub
      split at hsub
      · rw [← Option.some.inj hsub]
        exact Nat.sub_le _ _
      · cases hsub
    rw [hend]
    exact returns_lift _ _ (slice_ok buf 0 e (Nat.zero_le e) hle)
  · rw [if_neg hfirst, if_neg hfirst]
    refine returns_bind _ _ _ _ (returns_shortvec buf 0 _ hfit) ?_
    rintro ⟨n, sz⟩ hn
    rcases shortvec_bound buf 0 n sz _ hn with ⟨hn28, h0⟩
    refine returns_step _ _ _ _ (mul_ok n 64 (by omega)) ?_
    refine returns_step _ _ _ _ (add_ok sz (n * 64) (by omega)) ?_
    rw [MayPanic.get]
    by_cases hlong : sz + n * 64 ≤ buf.length
    · simp only [hlong, Nat.le_refl, and_self, if_true]
      rw [← List.length_drop, List.take_length]
      exact returns_pure _
    · simp only [hlong, false_and, if_false]
      exact returns_throw _

end Buffer

end Checked

end ShredStream
