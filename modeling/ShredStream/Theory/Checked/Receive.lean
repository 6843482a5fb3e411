import ShredStream.Theory.Checked.Update
import ShredStream.Theory.Frame.Step

/-!
# The Receive Path Does Not Panic

Datagrams come from anyone. The header is looked at only after its length, and
the payload only after the header. What is left to show concerns the state a
push finds: that neither the index of the next fragment nor the buffer can
outgrow its type.

A set has at most 255 fragments, since its count is a byte, and the fragment
that is taken has an index below the count; so adding one to it stays inside
a byte. And the buffer holds at most as many payloads as the index says. Both
are one invariant, `Within`, that every push keeps. It bounds the updates that
come out, and with them everything their accessors do.

## Main definitions

* `Within`: The buffer holds at most as many payloads as fragments were taken.
* `Safe`: No accessor of the update panics.
* `yielded`: The updates a sequence of datagrams gives.

## Theorems

* `returns_parseHeader`: The header is read without a panic.
* `push_ok`: So is a whole push, from a state within the bounds.
* `within_push`: A push stays within the bounds, and so does its update.
* `receive_ok`: No sequence of datagrams makes the receive path panic.
-/

namespace ShredStream

namespace Checked

open MayPanic Codec StreamDecoder

/-- The buffer holds at most as many payloads as fragments have been taken. -/
def Within (d : StreamDecoder) : Prop :=
  d.reasm.buf.length ≤ d.reasm.expectIndex.toNat * 2 ^ 48

/-! ### The header -/

/-- Eight bytes inside the slice are a word. -/
theorem u64At_ok (xs : Bytes) (a : Nat) (h : a + 8 ≤ xs.length) :
    u64At xs a (a + 8) = .ok (u64OfLe ((xs.drop a).take 8)) := by
  refine ok_step _ _ _ _ (slice_ok xs a (a + 8) (Nat.le_add_right a 8) h) ?_
  have hlen := Cursor.length_window xs a 8 h
  rw [Nat.add_sub_cancel_left]
  exact ok_step _ _ _ _ (tryInto_ok 8 _ hlen) rfl

/-- The first two bytes, indexed one by one. -/
theorem take_two (buf : Bytes) (h : 2 ≤ buf.length) :
    [buf.getD 0 0, buf.getD 1 0] = buf.take 2 := by
  rcases buf with _ | ⟨a, _ | ⟨b, rest⟩⟩ <;> simp only [List.length_cons, List.length_nil] at h
  · omega
  · omega
  · rfl

theorem returns_parseHeader (buf : Bytes) : Returns (parseHeader buf) (Codec.parseHeader buf) := by
  unfold parseHeader Codec.parseHeader
  by_cases hshort : buf.length < frameHeaderLen
  · rw [if_pos hshort, if_pos hshort]
    exact returns_throw _
  rw [if_neg hshort, if_neg hshort]
  -- Every index and slice below is inside these sixteen bytes.
  have hlen : 16 ≤ buf.length := Nat.le_of_not_lt hshort
  refine returns_step _ _ _ _ (byte_ok buf 0 (by omega)) ?_
  refine returns_step _ _ _ _ (byte_ok buf 1 (by omega)) ?_
  rw [take_two buf (by omega)]
  by_cases hmagic : leNat (buf.take 2) ≠ frameMagic
  · rw [if_pos hmagic, if_pos hmagic]
    exact returns_throw _
  rw [if_neg hmagic, if_neg hmagic]
  refine returns_step _ _ _ _ (byte_ok buf 2 (by omega)) ?_
  by_cases hversion : buf.getD 2 0 ≠ frameVersion
  · rw [if_pos hversion, if_pos hversion]
    exact returns_throw _
  rw [if_neg hversion, if_neg hversion]
  refine returns_step _ _ _ _ (byte_ok buf 2 (by omega)) ?_
  refine returns_step _ _ _ _ (byte_ok buf 3 (by omega)) ?_
  refine returns_step _ _ _ _ (byte_ok buf 4 (by omega)) ?_
  refine returns_step _ _ _ _ (byte_ok buf 5 (by omega)) ?_
  refine returns_step _ _ _ _ (byte_ok buf 6 (by omega)) ?_
  exact returns_step _ _ _ _ (u64At_ok buf 8 (by omega)) (returns_pure _)

/-- A datagram with a header has room for it. -/
theorem parseHeader_bound (buf : Bytes) (header : FrameHeader)
    (h : Codec.parseHeader buf = .ok header) : frameHeaderLen ≤ buf.length := by
  unfold Codec.parseHeader at h
  by_cases hshort : buf.length < frameHeaderLen
  · rw [if_pos hshort] at h
    cases h
  · exact Nat.le_of_not_lt hshort

/-! ### A push -/

theorem complete_ok (d : StreamDecoder) (now : SystemTime) (payload : Bytes) :
    complete d now payload = .ok (d.complete now payload) := by
  unfold complete StreamDecoder.complete
  by_cases hshort : payload.length < 8
  · rw [if_pos hshort, if_pos hshort]
    rfl
  rw [if_neg hshort, if_neg hshort]
  have hlen : 8 ≤ payload.length := Nat.le_of_not_lt hshort
  refine ok_step _ _ _ _ (u64At_ok payload 0 (by omega)) ?_
  refine ok_step _ _ _ _ (slice_ok payload 8 payload.length hlen (Nat.le_refl _)) ?_
  rw [← List.length_drop, List.take_length]
  rfl

/-- What a push does with a transaction fragment. -/
theorem pushFragment_ok (d : StreamDecoder) (now : SystemTime) (b : Bytes) (header : FrameHeader)
    (hd : Within d) (hb : b.length < 2 ^ 48) (hheader : Codec.parseHeader b = .ok header)
    (htype : ¬ header.msgType ≠ msgTransaction) :
    pushFragment (d.counted b) now header (b.drop frameHeaderLen) = .ok (d.push now b) := by
  have hpayload : (b.drop frameHeaderLen).length < 2 ^ 48 := by
    rw [List.length_drop]
    omega
  simp only [StreamDecoder.push, hheader]
  rw [if_neg htype]
  unfold pushFragment counted
  -- The branches of the source, in its order.
  by_cases hlone : header.fragCount = 1
  · rw [if_pos hlone, if_pos hlone]
    exact complete_ok _ now _
  rw [if_neg hlone, if_neg hlone]
  by_cases hmisfit : header.fragCount = 0 ∨ header.fragIndex ≥ header.fragCount
  · rw [if_pos hmisfit, if_pos hmisfit]
    rfl
  rw [if_neg hmisfit, if_neg hmisfit]
  by_cases hfirst : header.fragIndex = 0
  · rw [if_pos hfirst, if_pos hfirst]
    exact ok_step _ _ _ _ (reserve_ok _ 1 (by omega)) rfl
  rw [if_neg hfirst, if_neg hfirst]
  by_cases hbroken : d.reasm.active = false ∨ d.reasm.fragCount ≠ header.fragCount ∨
      header.fragIndex ≠ d.reasm.expectIndex ∨ header.seq ≠ d.reasm.lastSeq + 1
  · rw [if_pos hbroken, if_pos hbroken]
    rfl
  rw [if_neg hbroken, if_neg hbroken]
  -- The fragment continues the set, so the next index is that of the header.
  have hcontinues := ((unbroken_iff d.reasm header).mp hbroken).2.2.1
  have hindex := next_index header hmisfit
  have hexpect : d.reasm.expectIndex.toNat + 1 < 256 := hcontinues ▸ hindex
  -- At most 256 payloads, each below 2^48 bytes, are far below 2^63.
  have hroom : (d.reasm.buf.length + (b.drop frameHeaderLen).length) * 1 < 2 ^ 63 := by
    rw [Within] at hd
    omega
  refine ok_step _ _ _ _ (reserve_ok _ 1 hroom) ?_
  refine ok_step _ _ _ _ (addU8_ok _ 1 hexpect) ?_
  refine ok_step _ _ _ _ (addU8_ok _ 1 hindex) ?_
  by_cases hlast : header.fragIndex + 1 = header.fragCount
  · rw [if_pos hlast, if_pos hlast]
    exact complete_ok _ now _
  · rw [if_neg hlast, if_neg hlast]
    rfl

theorem push_ok (d : StreamDecoder) (now : SystemTime) (b : Bytes) (hd : Within d)
    (hb : b.length < 2 ^ 48) : push d now b = .ok (d.push now b) := by
  unfold push
  refine ok_step _ _ _ _ (returns_parseHeader b) ?_
  rcases hheader : Codec.parseHeader b with e | header
  · simp only [StreamDecoder.push, hheader]
    rfl
  simp only
  by_cases htype : header.msgType ≠ msgTransaction
  · simp only [StreamDecoder.push, hheader]
    rw [if_pos htype, if_pos htype]
    rfl
  rw [if_neg htype]
  have hlen := parseHeader_bound b header hheader
  refine ok_step _ _ _ _ (slice_ok b frameHeaderLen b.length hlen (Nat.le_refl _)) ?_
  rw [← List.length_drop, List.take_length]
  exact pushFragment_ok d now b header hd hb hheader htype

/-! ### The invariant -/

theorem within_new : Within .new := Nat.zero_le _

/-- What comes out is shorter than what went in. -/
theorem updateOf_bound (now : SystemTime) (whole : Bytes) :
    (updateOf now whole).bytes.length ≤ whole.length := by
  rw [updateOf, List.length_drop]
  exact Nat.sub_le _ _

/-- Completing resets the set, and yields no more than the payload. -/
theorem within_complete (d : StreamDecoder) (now : SystemTime) (whole : Bytes)
    (hwhole : whole.length < 2 ^ 63) :
    Within (({ d with reasm := .reset } : StreamDecoder).complete now whole).decoder ∧
      ∀ u, (({ d with reasm := .reset } : StreamDecoder).complete now whole).result = .update u →
        u.bytes.length < 2 ^ 63 := by
  refine ⟨?_, fun u hu => ?_⟩
  · rw [Within, complete_reasm]
    exact Nat.zero_le _
  · rcases (complete_result _ now whole u).mp hu with ⟨_, rfl⟩
    exact Nat.lt_of_le_of_lt (updateOf_bound now whole) hwhole

/-- A push stays within the bounds, and the update it yields is a slice a
    program can hold. -/
theorem within_push (d : StreamDecoder) (now : SystemTime) (b : Bytes) (hd : Within d)
    (hb : b.length < 2 ^ 48) : Within (d.push now b).decoder ∧
      ∀ u, (d.push now b).result = .update u → u.bytes.length < 2 ^ 63 := by
  have hpayload : (payload b).length < 2 ^ 48 := by
    rw [payload, List.length_drop]
    omega
  have hgrown : (d.reasm.buf ++ payload b).length
      < d.reasm.expectIndex.toNat * 2 ^ 48 + 2 ^ 48 := by
    rw [Within] at hd
    rw [List.length_append]
    omega
  have hp := push_pushes d now b
  generalize d.push now b = r at hp ⊢
  cases hp with
  | rejected | other | misfit => exact ⟨hd, nofun⟩
  -- A completed set leaves an empty buffer behind.
  | lone => exact within_complete (d.counted b) now (payload b) (by omega)
  | first =>
      refine ⟨?_, nofun⟩
      rw [Within]
      show (payload b).length ≤ 1 * 2 ^ 48
      omega
  | broken => exact ⟨Nat.zero_le _, nofun⟩
  -- All fragments together: 255 indices and one payload more.
  | last =>
      have hexpect := d.reasm.expectIndex.toNat_lt
      exact within_complete (d.counted b) now (d.reasm.buf ++ payload b) (by omega)
  | more header _ _ _ hfit _ hb =>
      refine ⟨?_, nofun⟩
      -- One more payload, and one more index.
      have hnext := toNat_succ_of_lt _ _ (lt_of_fit hfit)
      rw [((unbroken_iff d.reasm header).mp hb).2.2.1] at hnext
      rw [Within]
      show (d.reasm.buf ++ payload b).length ≤ (d.reasm.expectIndex + 1).toNat * 2 ^ 48
      omega

/-! ### A whole run -/

/-- The accessors of an update do not panic. -/
def Safe (u : TransactionUpdate) : Prop :=
  signature u = .ok u.signature ∧ signatures u = .ok u.signatures ∧ Returns (parse u) u.parse

theorem safe_of_bound (u : TransactionUpdate) (h : u.bytes.length < 2 ^ 63) : Safe u :=
  ⟨signature_ok u h, signatures_ok u h, parse_ok u h⟩

/-- The updates the plain decoder yields. -/
def yielded : StreamDecoder → List Arrival → List TransactionUpdate
  | _, [] => []
  | d, a :: arrivals =>
    let p := d.push a.now a.datagram
    match p.result with
    | .update u => u :: yielded p.decoder arrivals
    | _ => yielded p.decoder arrivals

theorem receive_within (arrivals : List Arrival) : ∀ d, Within d →
    (∀ a ∈ arrivals, a.datagram.length < 2 ^ 48) →
      receive d arrivals = .ok (d.pushAll arrivals, yielded d arrivals) ∧
        ∀ u ∈ yielded d arrivals, Safe u := by
  induction arrivals with
  | nil =>
      intro d _ _
      exact ⟨rfl, nofun⟩
  | cons a arrivals ih =>
      intro d hd h
      rcases List.forall_mem_cons.mp h with ⟨ha, hrest⟩
      -- The bounds carry over to the state the next datagram finds.
      rcases within_push d a.now a.datagram hd ha with ⟨hd', hbound⟩
      rcases ih (d.push a.now a.datagram).decoder hd' hrest with ⟨hrun, hsafe⟩
      rw [receive, push_ok d a.now a.datagram hd ha, Message.ok_bind, hrun, Message.ok_bind,
        yielded]
      rcases hresult : (d.push a.now a.datagram).result with u | _ | e
      · exact ⟨rfl, List.forall_mem_cons.mpr ⟨safe_of_bound u (hbound u hresult), hsafe⟩⟩
      · exact ⟨rfl, hsafe⟩
      · exact ⟨rfl, hsafe⟩

/-- Whatever datagrams arrive, no push panics, and no accessor of an update
    that comes out does. -/
theorem receive_ok (arrivals : List Arrival) (h : ∀ a ∈ arrivals, a.datagram.length < 2 ^ 48) :
    receive .new arrivals = .ok (StreamDecoder.new.pushAll arrivals, yielded .new arrivals) ∧
      ∀ u ∈ yielded .new arrivals, Safe u :=
  receive_within arrivals .new within_new h

/-- A transaction in two fragments, whose message is the lone byte 0x81, and a
    datagram that is too short. -/
def splitArrivals : List Arrival :=
  [⟨5, [0xE7, 0x5A, 2, 2, 0, 0, 2, 0, 1, 0, 0, 0, 0, 0, 0, 0, 9, 0, 0, 0, 0, 0, 0, 0]⟩,
    ⟨6, [0xE7, 0x5A, 2, 2, 0, 1, 2, 0, 2, 0, 0, 0, 0, 0, 0, 0, 0x81]⟩, ⟨7, [0xE7]⟩]

/-- One update comes out of them. -/
theorem splitArrivals_receive : (yielded .new splitArrivals).length = 1 ∧
    receive .new splitArrivals
      = .ok (StreamDecoder.new.pushAll splitArrivals, yielded .new splitArrivals) ∧
    ∀ u ∈ yielded .new splitArrivals, Safe u :=
  ⟨rfl, receive_ok splitArrivals (by decide)⟩

end Checked

end ShredStream
