import ShredStream.Core.Reserve
import ShredStream.Theory.Message.Sound

/-!
# Announced Counts

A vector gets its room when its count has been read. The fixed-offset layout
writes its counts in a byte, so nothing large can be asked for there. In the
other layouts a count is a varint of up to 28 bits, and the decoder asks for
what it says before it looks for the first element.

So the counts asked for are those the buffer announces where the decoder
comes to read one: behind the header, behind the accounts and the token, and
behind the instructions of a versioned message. They are bounded exactly when
what is announced is.

## Main definitions

* `Front`: What stands in front of the account count.
* `Announces`: The counts a buffer announces.
* `Modest`: No count is larger than the message or a byte.

## Theorems

* `decodeMessage_result`: The decoder is the one of `Core/Message.lean`.
* `mem_compact_iff`: The counts it asks room for are those announced.
* `modest_iff`: When they are modest.
* `hugeAccounts_immodest`: Seven bytes that ask for 2^28 accounts.
-/

namespace ShredStream

namespace Reserve

open Message Cursor Recorded

/-- What stands in front of the account count: the version byte, if there is
    one, and the header. The first byte is not that of the version-1 layout. -/
def Front (versioned : Prop) (front : Bytes) : Prop :=
  ∃ first, front.head? = some first ∧ first ≠ 0x81 ∧ (versioned ↔ first &&& 0x80 ≠ 0) ∧
    front.length = (if first &&& 0x80 ≠ 0 then 1 else 0) + 3

/-- The buffer announces `n` elements: it is well formed up to a count, and
    the count is `n`. -/
inductive Announces (buf : Bytes) : Nat → Prop where
  | accounts (n : Nat) (versioned : Prop) (front w rest : Bytes) (hfront : Front versioned front)
      (hn : Length n w) (hbuf : buf = front ++ (w ++ rest)) : Announces buf n
  | instructions (n : Nat) (versioned : Prop) (front wa token w rest : Bytes)
      (accounts : List Bytes) (hfront : Front versioned front)
      (haccounts : Counted AccountForm accounts wa) (htoken : token.length = 32)
      (hn : Length n w) (hbuf : buf = front ++ (wa ++ (token ++ (w ++ rest)))) : Announces buf n
  | lookups (n : Nat) (front wa token wi w rest : Bytes) (accounts : List Bytes)
      (instructions : List CompiledInstruction) (hfront : Front True front)
      (haccounts : Counted AccountForm accounts wa) (htoken : token.length = 32)
      (hinstructions : Counted InstructionForm instructions wi) (hn : Length n w)
      (hbuf : buf = front ++ (wa ++ (token ++ (wi ++ (w ++ rest))))) : Announces buf n

/-- The counts that room is asked for while the buffer is decoded. -/
def reserved (buf : Bytes) : List Nat := (decodeMessage buf).log

/-- Every one of them is at most the length of the buffer, or fits in a
    byte. -/
def Modest (buf : Bytes) : Prop := ∀ n ∈ reserved buf, n ≤ max buf.length 255

/-! ### The same decoder -/

theorem readLookups_result (version : Option UInt8) (buf : Bytes) (o : Nat) :
    (readLookups version buf o).result = Message.readLookups version buf o := by
  unfold readLookups Message.readLookups
  split
  · simp only [result_bind, result_lift]
    rfl
  · rfl

theorem decodeCompact_result (buf : Bytes) :
    (decodeCompact buf).result = Message.decodeCompact buf := by
  simp only [decodeCompact, Message.decodeCompact, result_bind, result_lift, reserve, result_record,
    readLookups_result, ok_bind]
  rfl

theorem decodeV1_result (buf : Bytes) : (decodeV1 buf).result = Message.decodeV1 buf := by
  simp only [decodeV1, Message.decodeV1, result_bind, result_lift, reserve, result_record, ok_bind]
  rfl

/-- What is decoded does not depend on the record. -/
theorem decodeMessage_result (buf : Bytes) :
    (decodeMessage buf).result = Message.decodeMessage buf := by
  rw [decodeMessage, result_bind, Message.decodeMessage]
  unfold decodeAt Message.decodeAt
  split
  · rw [decodeV1_result]
    cases Message.decodeV1 buf <;> rfl
  · rw [decodeCompact_result]
    cases Message.decodeCompact buf <;> rfl

theorem mem_reserved_iff (buf : Bytes) (n : Nat) : n ∈ reserved buf ↔
    n ∈ (if buf.head? = some 0x81 then decodeV1 buf else decodeCompact buf).log := by
  rw [reserved, decodeMessage, mem_log_bind, decodeAt]
  refine or_iff_left ?_
  rintro ⟨_, _, hpure⟩
  exact not_mem_log_pure _ n hpure

/-! ### The fixed-offset layout -/

/-- Its two counts are bytes. -/
theorem v1_small (buf : Bytes) (n : Nat) (h : n ∈ (decodeV1 buf).log) : n ≤ 255 := by
  simp only [decodeV1, reserve, mem_log_lift_bind, mem_log_record_bind, not_mem_log_pure, or_false,
    and_false, exists_false] at h
  rcases h with ⟨_, _, _, _, _, _, ni, _, nk, _, rfl | ⟨_, _, _, _, _, _, rfl⟩⟩
  · exact Nat.le_of_lt_succ nk.toNat_lt
  · exact Nat.le_of_lt_succ ni.toNat_lt

/-! ### The other layouts -/

/-- The front is read: its first byte, and the header behind the version. -/
theorem front_reads (buf front : Bytes) (versioned : Prop) (h : Front versioned front)
    (hat : At buf 0 front) : ∃ first header, byteAt buf 0 "empty message" = .ok first ∧
      take buf (if first &&& 0x80 ≠ 0 then 1 else 0) 3 "header" = .ok header ∧
      (if first &&& 0x80 ≠ 0 then 1 else 0) + 3 = front.length ∧
      (versioned ↔ first &&& 0x80 ≠ 0) := by
  rcases h with ⟨first, hfirst, _, hversion, hlen⟩
  have hinside := at_length buf front 0 hat
  refine ⟨first, (buf.drop (if first &&& 0x80 ≠ 0 then 1 else 0)).take 3, ?_, ?_, hlen.symm,
    hversion⟩
  · refine byteAt_complete buf 0 first _ ((at_singleton buf first 0).mpr ?_)
    rw [at_front buf front hat, ← List.head?_eq_getElem?, List.head?_append, hfirst, Option.some_or]
  · rw [take, if_pos (by omega)]

/-- What is read there is a front. -/
theorem front_of_reads (buf header : Bytes) (first : UInt8) (hhead : buf.head? ≠ some 0x81)
    (hfirst : byteAt buf 0 "empty message" = .ok first)
    (hheader : take buf (if first &&& 0x80 ≠ 0 then 1 else 0) 3 "header" = .ok header) :
    ∃ front, Front (first &&& 0x80 ≠ 0) front ∧ At buf 0 front ∧
      front.length = (if first &&& 0x80 ≠ 0 then 1 else 0) + 3 := by
  have hget := (at_singleton buf first 0).mp (byteAt_sound buf 0 first _ hfirst)
  rw [← List.head?_eq_getElem?] at hget
  rcases take_sound buf header _ 3 _ hheader with ⟨hat, hlen⟩
  have hinside := at_length buf header _ hat
  rw [hlen] at hinside
  have hfront := length_window buf 0 ((if first &&& 0x80 ≠ 0 then 1 else 0) + 3)
    (by rw [Nat.zero_add]; exact hinside)
  have hat' := at_window buf 0 ((if first &&& 0x80 ≠ 0 then 1 else 0) + 3)
    (by rw [Nat.zero_add]; exact hinside)
  refine ⟨_, ⟨first, ?_, ?_, Iff.rfl, hfront⟩, hat', hfront⟩
  · rw [List.drop_zero, List.head?_take, if_neg (Nat.succ_ne_zero _), hget]
  · rintro rfl
    exact hhead hget

/-- A count and its elements are read. -/
theorem counted_reads {α : Type} (G : α → Bytes → Prop) (r : Reader UInt8 MessageDecodeError α)
    (hr : Complete G r) (buf w : Bytes) (o : Nat) (what : String) (as : List α) (h : Counted G as w)
    (hat : At buf o w) : ∃ sz, shortvec buf o what = .ok (as.length, sz) ∧
      readMany r as.length buf (o + sz) = .ok (as, o + w.length) := by
  rcases h with ⟨wn, ws, hn, hmany, rfl⟩
  rw [at_append] at hat
  refine ⟨wn.length, shortvec_complete buf wn o _ what hn hat.1, ?_⟩
  rw [readMany_complete G r hr buf as ws hmany _ hat.2, List.length_append, Nat.add_assoc]

/-- Room for lookups is asked for when there is a version. -/
theorem mem_lookups (version : Option UInt8) (buf : Bytes) (o n : Nat) :
    n ∈ (readLookups version buf o).log ↔
      version.isSome = true ∧ ∃ sz, shortvec buf o "lookup count" = .ok (n, sz) := by
  unfold readLookups
  by_cases hversion : version.isSome = true
  · rw [if_pos hversion, and_iff_right hversion]
    simp only [reserve, mem_log_lift_bind, mem_log_record_bind, not_mem_log_lift, or_false,
      Prod.exists]
    exact ⟨fun ⟨_, sz, hn, heq⟩ => ⟨sz, by rw [hn, heq]⟩, fun ⟨sz, hn⟩ => ⟨n, sz, hn, rfl⟩⟩
  · rw [if_neg hversion]
    exact iff_of_false (not_mem_log_pure _ n) (fun h => hversion h.1)

theorem isSome_version_iff (first : UInt8) :
    (if first &&& 0x80 ≠ 0 then some (first &&& 0x7f) else none).isSome = true ↔
      first &&& 0x80 ≠ 0 := by
  split
  · next hmark => exact iff_of_true rfl hmark
  · next hmark => exact iff_of_false Bool.false_ne_true hmark

/-- A count asked for is announced: the buffer is well formed up to where the
    count was read. -/
theorem announces_of_mem (buf : Bytes) (n : Nat) (hhead : buf.head? ≠ some 0x81) :
    n ∈ (decodeCompact buf).log → Announces buf n := by
  simp only [decodeCompact, reserve, mem_log_lift_bind, mem_log_record_bind, Prod.exists]
  simp only [mem_log_bind, mem_lookups, not_mem_log_pure, and_false, exists_false, or_false,
    isSome_version_iff]
  rintro ⟨first, hf, header, hh, na, sa, hna, hrest⟩
  rcases front_of_reads buf header first hhead hf hh with ⟨front, hfront, hatf, hlenf⟩
  rw [← hlenf] at hna hrest
  rcases hrest with rfl | ⟨accounts, oa, haccounts, token, htoken, ni, si, hni, hrest⟩
  · rcases shortvec_sound buf _ n sa _ hna with ⟨w, hw, hatw, _⟩
    have hat : At buf 0 (front ++ w) := by
      simp only [at_append, Nat.zero_add]
      exact ⟨hatf, hatw⟩
    have hbuf := at_front buf _ hat
    rw [List.append_assoc] at hbuf
    exact Announces.accounts n _ front w _ hfront hw hbuf
  -- Past the first count the buffer holds the accounts and the token.
  rcases counted_sound AccountForm readAccount readAccount_sound buf _ na sa oa _ accounts hna
    haccounts with ⟨wa, hwa, hata, rfl⟩
  rcases take_sound buf token _ 32 _ htoken with ⟨hatt, hlent⟩
  rcases hrest with rfl | ⟨instrs, oi, hinstrs, hmark, sl, hnl⟩
  · rcases shortvec_sound buf _ n si _ hni with ⟨w, hw, hatw, _⟩
    have hat : At buf 0 (front ++ (wa ++ (token ++ w))) := by
      simp only [at_append, Nat.zero_add, hlent]
      exact ⟨hatf, hata, hatt, hatw⟩
    have hbuf := at_front buf _ hat
    simp only [List.append_assoc] at hbuf
    exact Announces.instructions n _ front wa token w _ accounts hfront hwa hlent hw hbuf
  -- Past the second, the instructions too.
  rcases counted_sound InstructionForm readInstruction readInstruction_sound buf _ ni si oi _
    instrs hni hinstrs with ⟨wi, hwi, hati, rfl⟩
  rcases shortvec_sound buf _ n sl _ hnl with ⟨w, hw, hatw, _⟩
  have hat : At buf 0 (front ++ (wa ++ (token ++ (wi ++ w)))) := by
    simp only [at_append, Nat.zero_add, hlent]
    exact ⟨hatf, hata, hatt, hati, hatw⟩
  have hbuf := at_front buf _ hat
  simp only [List.append_assoc] at hbuf
  rw [eq_true hmark] at hfront
  exact Announces.lookups n front wa token wi w _ accounts instrs hfront hwa hlent hwi hw hbuf

/-- A count announced is asked for: the reads in front of it all succeed. -/
theorem mem_of_announces (buf : Bytes) (n : Nat) (h : Announces buf n) :
    n ∈ (decodeCompact buf).log := by
  simp only [decodeCompact, reserve, mem_log_lift_bind, mem_log_record_bind, Prod.exists]
  simp only [mem_log_bind, mem_lookups, not_mem_log_pure, and_false, exists_false, or_false,
    isSome_version_iff]
  cases h with
  | accounts versioned front w rest hfront hn hbuf =>
      rw [← List.append_assoc] at hbuf
      have hat := at_zero (front ++ w) rest
      rw [← hbuf, at_append, Nat.zero_add] at hat
      rcases front_reads buf front versioned hfront hat.1 with ⟨first, header, hf, hh, hlen, _⟩
      rw [← hlen] at hat
      exact ⟨first, hf, header, hh, n, _, shortvec_complete buf w _ n _ hn hat.2, Or.inl rfl⟩
  | instructions versioned front wa token w rest accounts hfront haccounts htoken hn hbuf =>
      have hat := at_zero (front ++ (wa ++ (token ++ w))) rest
      simp only [List.append_assoc, ← hbuf, at_append, Nat.zero_add, htoken] at hat
      rcases hat with ⟨hatf, hata, hatt, hatw⟩
      rcases front_reads buf front versioned hfront hatf with ⟨first, header, hf, hh, hlen, _⟩
      rcases counted_reads AccountForm readAccount readAccount_complete buf wa _ "account count"
        accounts haccounts hata with ⟨sa, hna, hmany⟩
      rw [← hlen] at hna hmany hatt hatw
      exact ⟨first, hf, header, hh, _, sa, hna, Or.inr ⟨accounts, _, hmany, token,
        take_complete buf token _ 32 _ hatt htoken, n, _, shortvec_complete buf w _ n _ hn hatw,
        Or.inl rfl⟩⟩
  | lookups front wa token wi w rest accounts instructions hfront haccounts htoken hinstructions
      hn hbuf =>
      have hat := at_zero (front ++ (wa ++ (token ++ (wi ++ w)))) rest
      simp only [List.append_assoc, ← hbuf, at_append, Nat.zero_add, htoken] at hat
      rcases hat with ⟨hatf, hata, hatt, hati, hatw⟩
      rcases front_reads buf front True hfront hatf with ⟨first, header, hf, hh, hlen, hmark⟩
      rcases counted_reads AccountForm readAccount readAccount_complete buf wa _ "account count"
        accounts haccounts hata with ⟨sa, hna, hmany⟩
      rcases counted_reads InstructionForm readInstruction readInstruction_complete buf wi _
        "instruction count" instructions hinstructions hati with ⟨si, hni, hmany'⟩
      rw [← hlen] at hna hmany hatt hni hmany' hatw
      exact ⟨first, hf, header, hh, _, sa, hna, Or.inr ⟨accounts, _, hmany, token,
        take_complete buf token _ 32 _ hatt htoken, _, si, hni, Or.inr ⟨instructions, _, hmany',
          hmark.mp trivial, _, shortvec_complete buf w _ n _ hn hatw⟩⟩⟩

/-- The counts asked for are those the buffer announces. -/
theorem mem_compact_iff (buf : Bytes) (n : Nat) (hhead : buf.head? ≠ some 0x81) :
    n ∈ (decodeCompact buf).log ↔ Announces buf n :=
  ⟨announces_of_mem buf n hhead, mem_of_announces buf n⟩

/-- A buffer of the fixed-offset layout announces nothing. -/
theorem announces_head (buf : Bytes) (n : Nat) (h : Announces buf n) : buf.head? ≠ some 0x81 := by
  have hfront : ∀ versioned front rest, Front versioned front → buf = front ++ rest →
      buf.head? ≠ some 0x81 := by
    rintro versioned front rest ⟨first, hfirst, hne, _⟩ rfl hhead
    rw [List.head?_append, hfirst, Option.some_or, Option.some.injEq] at hhead
    exact hne hhead
  cases h with
  | accounts versioned front w rest h _ hbuf => exact hfront versioned front _ h hbuf
  | instructions versioned front _ _ _ _ _ h _ _ _ hbuf => exact hfront versioned front _ h hbuf
  | lookups front _ _ _ _ _ _ _ h _ _ _ _ hbuf => exact hfront True front _ h hbuf

/-- The counts asked for are modest exactly when the counts announced are. -/
theorem modest_iff (buf : Bytes) :
    Modest buf ↔ ∀ n, Announces buf n → n ≤ max buf.length 255 := by
  unfold Modest
  simp only [mem_reserved_iff]
  by_cases hhead : buf.head? = some 0x81
  · simp only [if_pos hhead]
    refine iff_of_true (fun n hn => ?_) (fun n hn => absurd hhead (announces_head buf n hn))
    exact (v1_small buf n hn).trans (Nat.le_max_right _ _)
  · simp only [if_neg hhead, mem_compact_iff buf _ hhead]

/-- A legacy header and an account count, and nothing more. -/
def hugeAccounts : Bytes := [1, 0, 0, 0xff, 0xff, 0xff, 0x7f]

/-- Room for 2^28 - 1 accounts is asked for. -/
theorem hugeAccounts_immodest :
    2 ^ 28 - 1 ∈ reserved hugeAccounts ∧ ¬ Modest hugeAccounts := by
  have hannounced : Announces hugeAccounts (2 ^ 28 - 1) := by
    refine Announces.accounts _ False [1, 0, 0] [0xff, 0xff, 0xff, 0x7f] [] ?_ ?_ rfl
    · exact ⟨1, rfl, by decide, by decide, rfl⟩
    · exact ⟨by decide, by decide, rfl⟩
  have hreserved : 2 ^ 28 - 1 ∈ reserved hugeAccounts := by
    rw [mem_reserved_iff, if_neg (by decide)]
    exact (mem_compact_iff hugeAccounts _ (by decide)).mpr hannounced
  refine ⟨hreserved, fun h => ?_⟩
  have hle := h _ hreserved
  revert hle
  decide

end Reserve

end ShredStream
