import ShredStream.Lib.Reassembly
import ShredStream.Theory.Frame.Step

/-!
# What the Decoder Delivers

The reassembler of `StreamDecoder` is the in-order receiver of
`Lib/Reassembly.lean`. A datagram is either noise, which leaves the
reassembler alone and delivers nothing, or it is a piece of a transaction,
and then `push` does to the reassembler what `feed` does to the message in
progress (`push_piece_view`).

The arithmetic of the source is on bytes and on 64-bit words. Neither byte
addition wraps: a fragment index that is below a fragment count is below 255.
The sequence number may wrap, and `succ` is addition on the words.

`push_update_iff` is the result: what a push returns is decided by the
datagrams, noise left out, that the input ends in.

## Main definitions

* `Noise`: A datagram that is no piece of a transaction.
* `pieceOf`: The piece that a datagram is.
* `Reassembler.view`: The message in progress.
* `Carries`: The fragment fields of a datagram.
* `Delivers`: A whole payload is among the fragments received last.

## Theorems

* `push_piece_view`: `push` refines `feed`.
* `push_update_iff`: Which pushes return which update.
-/

namespace ShredStream

namespace Codec

open Reassembly

/-- Rejected by `parse_header`, not a transaction frame, without fragments, or
    with an index its count does not admit. -/
def Noise (datagram : Bytes) : Prop :=
  ∀ header, parseHeader datagram = .ok header →
    header.msgType ≠ msgTransaction ∨ header.fragCount = 0 ∨
      2 ≤ header.fragCount ∧ header.fragIndex ≥ header.fragCount

instance (datagram : Bytes) : Decidable (Noise datagram) :=
  match h : parseHeader datagram with
  | .error e => isTrue (fun header hh => by rw [h] at hh; cases hh)
  | .ok header =>
      decidable_of_iff (header.msgType ≠ msgTransaction ∨ header.fragCount = 0 ∨
          2 ≤ header.fragCount ∧ header.fragIndex ≥ header.fragCount)
        ⟨fun hn header' hh => by rw [h] at hh; cases hh; exact hn, fun hn => hn header h⟩

/-- The datagram is a frame that carries this fragment count, fragment index
    and sequence number. -/
def Carries (datagram : Bytes) (count index : Nat) (seq : UInt64) : Prop :=
  ∃ header, parseHeader datagram = .ok header ∧ header.fragCount.toNat = count ∧
    header.fragIndex.toNat = index ∧ header.seq = seq

/-- A frame's header as a piece; only read where there is a header. -/
def pieceOf (datagram : Bytes) : Piece UInt64 UInt8 :=
  match parseHeader datagram with
  | .error _ => ⟨0, 0, 0, []⟩
  | .ok header => ⟨header.fragIndex.toNat, header.fragCount.toNat, header.seq, payload datagram⟩

/-- The datagrams that are pieces of transactions, in order of arrival. -/
def fragments (datagrams : List Bytes) : List Bytes :=
  datagrams.filter (fun d => ¬ Noise d)

/-- The fragment set the reassembler holds. -/
def Reassembler.view (r : Reassembler) : Option (Partial UInt64 UInt8) :=
  if r.active then some ⟨r.fragCount.toNat, r.expectIndex.toNat, r.lastSeq, r.buf⟩ else none

/-- With `datagram` received after `before`, a whole payload is there: the
    datagram is an unfragmented transaction, or the fragments received last are
    those of one transaction, in order and with consecutive sequence numbers. -/
def Delivers (before : List Bytes) (datagram whole : Bytes) : Prop :=
  ((∃ index seq, Carries datagram 1 index seq) ∧ whole = payload datagram) ∨
    ∃ (older set : List Bytes) (s : UInt64), fragments (before ++ [datagram]) = older ++ set ∧
      2 ≤ set.length ∧ (∀ (i : Nat) (d : Bytes), set[i]? = some d →
        Carries d set.length i (s + UInt64.ofNat i)) ∧ whole = set.flatMap payload

/-- The fragment fields that a datagram has been found to carry. -/
theorem carries_iff (d : Bytes) (header : FrameHeader) (h : parseHeader d = .ok header)
    (count index : Nat) (seq : UInt64) : Carries d count index seq ↔
      (pieceOf d).count = count ∧ (pieceOf d).index = index ∧ (pieceOf d).seq = seq := by
  constructor
  · rintro ⟨header', h', hc⟩
    rw [h] at h'
    cases h'
    simpa only [pieceOf, h] using hc
  · intro hc
    exact ⟨header, h, by simpa only [pieceOf, h] using hc⟩

theorem noise_iff (b : Bytes) (header : FrameHeader) (h : parseHeader b = .ok header) :
    Noise b ↔ header.msgType ≠ msgTransaction ∨ header.fragCount = 0 ∨
      2 ≤ header.fragCount ∧ header.fragIndex ≥ header.fragCount := by
  refine ⟨fun hn => hn header h, fun hn header' h' => ?_⟩
  rw [h] at h'
  cases h'
  exact hn

theorem two_le_iff (n : UInt8) : 2 ≤ n ↔ n ≠ 0 ∧ n ≠ 1 := by
  simp only [UInt8.le_iff_toNat_le, ne_eq, ← UInt8.toNat_inj, UInt8.toNat_ofNat]
  omega

/-- Past the test for a single fragment, noise is what fails the source's test
    of the index. -/
theorem noise_of_misfit (b : Bytes) (header : FrameHeader) (h : parseHeader b = .ok header)
    (h1 : header.fragCount ≠ 1)
    (hbad : header.fragCount = 0 ∨ header.fragIndex ≥ header.fragCount) : Noise b := by
  rw [noise_iff b header h, two_le_iff]
  by_cases h0 : header.fragCount = 0
  · exact Or.inr (Or.inl h0)
  · exact Or.inr (Or.inr ⟨⟨h0, h1⟩, hbad.resolve_left h0⟩)

theorem pieceOf_eq (b : Bytes) (header : FrameHeader) (h : parseHeader b = .ok header) :
    pieceOf b = ⟨header.fragIndex.toNat, header.fragCount.toNat, header.seq, payload b⟩ := by
  rw [pieceOf, h]

/-- A datagram that is not noise has a header. -/
theorem header_of_not_noise (b : Bytes) (h : ¬ Noise b) :
    ∃ header, parseHeader b = .ok header := by
  rcases hh : parseHeader b with e | header
  · refine absurd (fun header' h' => ?_) h
    rw [hh] at h'
    cases h'
  · exact ⟨header, rfl⟩

theorem pieceOf_valid (b : Bytes) (h : ¬ Noise b) : (pieceOf b).Valid := by
  rcases header_of_not_noise b h with ⟨header, hh⟩
  rw [noise_iff b header hh, two_le_iff] at h
  rw [pieceOf_eq b header hh]
  by_cases h1 : header.fragCount = 1
  · left
    simp only [h1, UInt8.toNat_one]
  · right
    have h0 : header.fragCount ≠ 0 := fun h0 => h (Or.inr (Or.inl h0))
    have hlt : header.fragIndex < header.fragCount := by
      rw [← UInt8.not_le]
      exact fun hge => h (Or.inr (Or.inr ⟨⟨h0, h1⟩, hge⟩))
    exact ⟨UInt8.lt_iff_toNat_lt.mp hlt, UInt8.le_iff_toNat_le.mp ((two_le_iff _).mpr ⟨h0, h1⟩)⟩

theorem toNat_ne {a b : UInt8} (h : a ≠ b) : a.toNat ≠ b.toNat :=
  fun heq => h (UInt8.toNat_inj.mp heq)

theorem iterate_succ_seq (s : UInt64) (n : Nat) :
    (fun x : UInt64 => x + 1)^[n] s = s + UInt64.ofNat n := by
  induction n with
  | zero => exact (UInt64.add_zero s).symm
  | succ n ih =>
      rw [Function.iterate_succ_apply', ih, UInt64.ofNat_add, ← UInt64.add_assoc]
      rfl

namespace StreamDecoder

@[simp] theorem view_reset : Reassembler.reset.view = none := rfl

/-- Noise delivers nothing and leaves the fragment set as it is. -/
theorem push_noise (d : StreamDecoder) (now : SystemTime) (b : Bytes) (h : Noise b) :
    (d.push now b).decoder.reasm = d.reasm ∧
      ∀ u, (d.push now b).result ≠ .update u := by
  have hp := push_pushes d now b
  generalize d.push now b = r at hp ⊢
  -- Past the header and the type, noise has an index its count does not admit.
  have hfits : ∀ header, parseHeader b = .ok header → header.msgType = msgTransaction →
      header.fragCount ≠ 1 ∧ (header.fragCount = 0 ∨ header.fragIndex ≥ header.fragCount) := by
    intro header hh hm
    have hn := ((noise_iff b header hh).mp h).resolve_left (fun hne => hne hm)
    refine ⟨fun h1 => ?_, hn.imp id And.right⟩
    rw [h1, two_le_iff] at hn
    rcases hn with h0 | ⟨⟨_, h1⟩, _⟩
    · exact absurd h0 (by decide)
    · exact h1 rfl
  cases hp with
  | rejected | other | misfit => exact ⟨rfl, fun u hu => by cases hu⟩
  | lone header hh hm h1 => exact absurd h1 (hfits header hh hm).1
  | first header hh hm _ hfit | broken header hh hm _ hfit | last header hh hm _ hfit
  | more header hh hm _ hfit => exact absurd (hfits header hh hm).2 hfit

theorem view_eq_some_iff (r : Reassembler) (q : Partial UInt64 UInt8) :
    r.view = some q ↔ r.active = true ∧
      q = ⟨r.fragCount.toNat, r.expectIndex.toNat, r.lastSeq, r.buf⟩ := by
  unfold Reassembler.view
  by_cases h : r.active = true
  · simp only [h, if_true, Option.some.injEq, true_and, eq_comm]
  · simp only [h, if_false, reduceCtorEq, false_and]

/-- A fragment breaks the set exactly when there is none that it continues. -/
theorem broken_iff (r : Reassembler) (header : FrameHeader) (body : Bytes) :
    Broken r header ↔ ¬ ∃ q, r.view = some q ∧
      Continues (· + 1) q ⟨header.fragIndex.toNat, header.fragCount.toNat, header.seq, body⟩ := by
  unfold Broken Reassembler.view
  cases r.active with
  | false => simp only [true_or, Bool.false_eq_true, if_false, reduceCtorEq, false_and,
      exists_false, not_false_eq_true]
  | true => simp only [Bool.true_eq_false, false_or, ne_eq, if_true, Option.some.injEq,
      exists_eq_left', Continues, UInt8.toNat_inj, not_and_or]

/-- A later fragment that breaks nothing continues the set: it completes it if
    it is the last, as the source's byte arithmetic decides. -/
theorem feed_unbroken (r : Reassembler) (b : Bytes) (header : FrameHeader)
    (hh : parseHeader b = .ok header) (h1 : header.fragCount ≠ 1)
    (hfit : ¬ (header.fragCount = 0 ∨ header.fragIndex ≥ header.fragCount))
    (h0 : header.fragIndex ≠ 0) (hb : ¬ Broken r header) :
    r.active = true ∧ header.fragIndex = r.expectIndex ∧
      feed (· + 1) r.view (pieceOf b) =
        if header.fragIndex + 1 = header.fragCount then (none, some (r.buf ++ payload b))
        else (some ⟨r.fragCount.toNat, r.expectIndex.toNat + 1, header.seq, r.buf ++ payload b⟩,
          none) := by
  rw [broken_iff r header (payload b), not_not] at hb
  rcases hb with ⟨q, hview, hcont⟩
  rcases (view_eq_some_iff r q).mp hview with ⟨hactive, rfl⟩
  refine ⟨hactive, UInt8.toNat_inj.mp hcont.2.1, ?_⟩
  have hf := feed_continued (· + 1) _ _ (toNat_ne h1) (toNat_ne h0) hcont
  rw [hview, pieceOf_eq b header hh, hf]
  -- The index is below the count, so incrementing it does not wrap.
  have hlast : header.fragIndex.toNat + 1 = header.fragCount.toNat ↔
      header.fragIndex + 1 = header.fragCount := by
    rw [← UInt8.toNat_inj, toNat_succ_of_lt _ _ (lt_of_fit hfit)]
  simp only [hlast, Partial.extend]

/-- On a piece, `push` does to the fragment set what `feed` does, and returns
    what `feed` delivers. -/
theorem push_piece_view (d : StreamDecoder) (now : SystemTime) (b : Bytes) (h : ¬ Noise b) :
    (d.push now b).decoder.reasm.view = (feed (· + 1) d.reasm.view (pieceOf b)).1 ∧
      ∀ u, (d.push now b).result = .update u ↔
        ∃ whole, (feed (· + 1) d.reasm.view (pieceOf b)).2 = some whole ∧
          8 ≤ whole.length ∧ u = updateOf now whole := by
  have hp := push_pushes d now b
  generalize d.push now b = r at hp ⊢
  cases hp with
  -- The first three ways are for noise.
  | rejected e he =>
      rcases header_of_not_noise b h with ⟨header, hh⟩
      rw [he] at hh
      cases hh
  | other header hh hm => exact absurd ((noise_iff b header hh).mpr (Or.inl hm)) h
  | misfit header hh hm h1 hbad => exact absurd (noise_of_misfit b header hh h1 hbad) h
  | lone header hh hm h1 =>
      have hf : feed (· + 1) d.reasm.view (pieceOf b) = (none, some (payload b)) := by
        simp only [feed, pieceOf_eq b header hh, h1, UInt8.toNat_one, if_true]
      simp only [hf, complete_reasm, view_reset, complete_result, Option.some.injEq,
        exists_eq_left', implies_true, and_self]
  | first header hh hm h1 hfit h0 =>
      have hf : feed (· + 1) d.reasm.view (pieceOf b) = (some (start (pieceOf b)), none) := by
        have hcount : header.fragCount.toNat ≠ 1 := toNat_ne h1
        simp only [feed, pieceOf_eq b header hh, hcount, h0, UInt8.toNat_zero, if_true, if_false]
      rw [hf]
      refine ⟨?_, fun u => ?_⟩
      · simp only [Reassembler.view, if_true, start, pieceOf_eq b header hh, UInt8.toNat_one]
      · simp only [reduceCtorEq, false_and, exists_false]
  | broken header hh hm h1 hfit h0 hb =>
      -- The set is given up, and this fragment with it.
      have hf := feed_broken (· + 1) d.reasm.view (pieceOf b)
        (by rw [pieceOf_eq b header hh]; exact toNat_ne h1)
        (by rw [pieceOf_eq b header hh]; exact toNat_ne h0)
        (by rw [pieceOf_eq b header hh]; exact (broken_iff d.reasm header (payload b)).mp hb)
      rw [hf]
      exact ⟨rfl, fun u => by simp only [reject_result, reduceCtorEq, false_and, exists_false]⟩
  | last header hh hm h1 hfit h0 hb hl =>
      rcases feed_unbroken d.reasm b header hh h1 hfit h0 hb with ⟨_, _, hf⟩
      rw [hf, if_pos hl]
      refine ⟨?_, fun u => ?_⟩
      · rw [complete_reasm, view_reset]
      · simp only [complete_result, Option.some.injEq, exists_eq_left']
  | more header hh hm h1 hfit h0 hb hl =>
      rcases feed_unbroken d.reasm b header hh h1 hfit h0 hb with ⟨hactive, hnext, hf⟩
      rw [hf, if_neg hl]
      refine ⟨?_, fun u => ?_⟩
      · -- The expected index is this fragment's, so it does not wrap either.
        have hsucc := toNat_succ_of_lt _ _ (lt_of_fit hfit)
        rw [hnext] at hsucc
        simp only [Reassembler.view, hactive, if_true, hsucc]
      · simp only [reduceCtorEq, false_and, exists_false]

/-- The fragment set after any datagrams is what the pieces among them leave
    in progress. -/
theorem pushAll_view (arrivals : List Arrival) :
    (new.pushAll arrivals).reasm.view
      = after (· + 1) ((fragments (arrivals.map (fun a => a.datagram))).map pieceOf) := by
  induction arrivals using List.reverseRecOn with
  | nil => rfl
  | append_singleton arrivals a ih =>
      have hpush : new.pushAll (arrivals ++ [a])
          = ((new.pushAll arrivals).push a.now a.datagram).decoder := by
        simp only [pushAll, List.foldl_append, List.foldl_cons, List.foldl_nil]
      rw [hpush, List.map_append, fragments, List.filter_append, List.map_append]
      by_cases hn : Noise a.datagram
      · -- Noise is not among the fragments.
        rw [(push_noise _ a.now a.datagram hn).1, ih]
        simp only [fragments, List.map_cons, List.map_nil, hn, decide_false,
          not_true_eq_false, Bool.false_eq_true, not_false_eq_true, List.filter_cons_of_neg,
          List.filter_nil, List.append_nil]
      · rw [(push_piece_view _ a.now a.datagram hn).1, ih]
        simp only [fragments, List.map_cons, List.map_nil, hn, not_false_eq_true, decide_true,
          List.filter_cons_of_pos, List.filter_nil, after_append_singleton]

end StreamDecoder

theorem mem_fragments (datagrams : List Bytes) (d : Bytes) :
    d ∈ fragments datagrams ↔ d ∈ datagrams ∧ ¬ Noise d := by
  simp only [fragments, List.mem_filter, decide_eq_true_eq]

theorem fragments_snoc (before : List Bytes) (d : Bytes) (h : ¬ Noise d) :
    fragments (before ++ [d]) = fragments before ++ [d] := by
  simp only [fragments, List.filter_append, h, not_false_eq_true, decide_true,
    List.filter_cons_of_pos, List.filter_nil]

theorem carries_iff_of_not_noise (d : Bytes) (h : ¬ Noise d) (count index : Nat)
    (seq : UInt64) : Carries d count index seq ↔
      (pieceOf d).count = count ∧ (pieceOf d).index = index ∧ (pieceOf d).seq = seq := by
  rcases header_of_not_noise d h with ⟨header, hh⟩
  exact carries_iff d header hh count index seq

/-- The pieces' bodies are the datagrams' payloads. -/
theorem join_pieces (set : List Bytes) (h : ∀ d ∈ set, ¬ Noise d) :
    join (set.map pieceOf) = set.flatMap payload := by
  rw [join, List.flatMap_map]
  refine List.flatMap_congr (fun d hd => ?_)
  rcases header_of_not_noise d (h d hd) with ⟨header, hh⟩
  rw [pieceOf_eq d header hh]

/-- Datagrams are fragments of one transaction in order exactly when their
    pieces are in order. -/
theorem inOrder_pieces_iff (set : List Bytes) (h : ∀ d ∈ set, ¬ Noise d) (n : Nat) (s : UInt64) :
    InOrder (· + 1) n s (set.map pieceOf) ↔ ∀ (i : Nat) (d : Bytes), set[i]? = some d →
      Carries d n i (s + UInt64.ofNat i) := by
  constructor
  · intro hord i d hd
    rw [carries_iff_of_not_noise d (h d (List.mem_of_getElem? hd)), ← iterate_succ_seq]
    exact hord i (pieceOf d) (by rw [List.getElem?_map, hd, Option.map_some])
  · intro hc i p hp
    rw [List.getElem?_map, Option.map_eq_some_iff] at hp
    rcases hp with ⟨d, hd, rfl⟩
    have hd' := hc i d hd
    rwa [carries_iff_of_not_noise d (h d (List.mem_of_getElem? hd)), ← iterate_succ_seq] at hd'

/-- No fragment is noise. -/
theorem not_noise_of_split (datagrams older set : List Bytes)
    (h : fragments datagrams = older ++ set) : ∀ d ∈ set, ¬ Noise d := by
  intro d hd
  refine ((mem_fragments datagrams d).mp ?_).2
  rw [h]
  exact List.mem_append_right older hd

/-- A payload is there exactly when the pieces received end in a whole one. -/
theorem delivers_iff_whole (before : List Bytes) (d whole : Bytes) (h : ¬ Noise d) :
    Delivers before d whole ↔
      Whole (· + 1) ((fragments (before ++ [d])).map pieceOf) whole := by
  have hsnoc := fragments_snoc before d h
  constructor
  · rintro (⟨⟨index, seq, hc⟩, rfl⟩ | ⟨older, set, s, hsplit, h2, hc, rfl⟩)
    · -- An unfragmented transaction is a piece that is the whole message.
      refine ⟨(fragments before).map pieceOf, [pieceOf d], ?_, ?_, Or.inl ⟨pieceOf d, rfl, ?_⟩⟩
      · rw [hsnoc, List.map_append, List.map_singleton]
      · rw [← List.map_singleton, join_pieces [d] (by simpa only [List.mem_singleton, forall_eq]),
          List.flatMap_singleton]
      · exact ((carries_iff_of_not_noise d h 1 index seq).mp hc).1
    · have hset := not_noise_of_split _ older set hsplit
      refine ⟨older.map pieceOf, set.map pieceOf, ?_, (join_pieces set hset).symm,
        Or.inr ⟨?_, s, ?_⟩⟩
      · rw [hsplit, List.map_append]
      · rwa [List.length_map]
      · rw [List.length_map]
        exact (inOrder_pieces_iff set hset _ s).mpr hc
  · rintro ⟨older', ps, hsplit, rfl, hwhole⟩
    rcases List.map_eq_append_iff.mp hsplit with ⟨older, set, heq, rfl, rfl⟩
    have hset := not_noise_of_split _ older set heq
    rw [join_pieces set hset]
    rcases hwhole with ⟨p, hp, hcount⟩ | ⟨h2, s, hord⟩
    · left
      rcases List.map_eq_singleton_iff.mp hp with ⟨x, rfl, rfl⟩
      rw [hsnoc] at heq
      obtain rfl := List.singleton_inj.mp (List.append_inj' heq rfl).2
      refine ⟨⟨_, _, (carries_iff_of_not_noise d h 1 _ _).mpr ⟨hcount, rfl, rfl⟩⟩, ?_⟩
      rw [List.flatMap_singleton]
    · right
      rw [List.length_map] at h2 hord
      exact ⟨older, set, s, heq, h2, (inOrder_pieces_iff set hset _ s).mp hord, rfl⟩

/-- A push returns an update exactly when its datagram is a piece and the
    pieces so far end in a whole payload with room for the slot. -/
theorem push_whole_iff (arrivals : List StreamDecoder.Arrival) (now : SystemTime)
    (datagram : Bytes) (u : TransactionUpdate) :
    ((StreamDecoder.new.pushAll arrivals).push now datagram).result = .update u ↔
      ¬ Noise datagram ∧ ∃ whole,
        Whole (· + 1)
          ((fragments (arrivals.map (fun a => a.datagram) ++ [datagram])).map pieceOf) whole ∧
        8 ≤ whole.length ∧ u = updateOf now whole := by
  by_cases h : Noise datagram
  · simp only [h, not_true_eq_false, false_and, iff_false]
    exact (StreamDecoder.push_noise _ now datagram h).2 u
  · have hvalid : ∀ p ∈ (fragments (arrivals.map (fun a => a.datagram))).map pieceOf, p.Valid := by
      intro p hp
      rcases List.mem_map.mp hp with ⟨d, hd, rfl⟩
      exact pieceOf_valid d ((mem_fragments _ d).mp hd).2
    simp only [h, not_false_eq_true, true_and]
    rw [(StreamDecoder.push_piece_view _ now datagram h).2 u, StreamDecoder.pushAll_view,
      fragments_snoc _ datagram h, List.map_append, List.map_singleton]
    exact exists_congr (fun whole =>
      and_congr_left (fun _ => feed_delivers_iff (· + 1) _ hvalid _ whole))

/-- A push returns the update `u` exactly when its datagram is not noise, the
    datagrams so far deliver a payload that has room for the slot, and `u` is
    made of it. -/
theorem push_update_iff (arrivals : List StreamDecoder.Arrival) (now : SystemTime)
    (datagram : Bytes) (u : TransactionUpdate) :
    ((StreamDecoder.new.pushAll arrivals).push now datagram).result = .update u ↔
      ¬ Noise datagram ∧ ∃ whole, Delivers (arrivals.map (fun a => a.datagram)) datagram whole ∧
        8 ≤ whole.length ∧ u = updateOf now whole := by
  rw [push_whole_iff]
  refine and_congr_right (fun h => exists_congr (fun whole => and_congr_left (fun _ => ?_)))
  rw [delivers_iff_whole _ datagram whole h]

end Codec

end ShredStream
