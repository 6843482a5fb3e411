import ShredStream.Theory.Frame.Lossy
import ShredStream.Theory.Frame.Malformed

/-!
# Starting Over

A decoder remembers the fragment set in progress and nothing else. A frame at
the boundary of a set — an unfragmented transaction, the first fragment of a
set or the last one — makes it forget that too: whatever was in progress is
complete, given up or replaced. No other datagram does.

So decoders with different pasts agree from the first boundary on, and before
it they can differ in one update, the one whose set is in progress. A receiver
that joins a stream late, or is restarted, misses at most that one and never
returns anything that the others do not.

Nothing is assumed about who sends the datagrams, or that they are frames.

## Main definitions

* `Boundary`: A frame that starts or ends a set, or is the whole of it.
* `restart`: The fragment set behind a boundary.

## Theorems

* `push_boundary`: Behind a boundary the past does not matter.
* `push_inner`: Away from the boundaries nothing is returned.
* `update_of_idle`: What a decoder without a set returns, every one does.
* `updates_converge`: What decoders with different pasts return.
* `resync`: Decoders with different pasts.
* `boundary_iff`: No other datagram makes a decoder forget.
-/

namespace ShredStream

namespace Codec

namespace StreamDecoder

open Reassembly

/-- A transaction frame that is the whole of a set, its first fragment or its
    last. -/
def Boundary (b : Bytes) : Prop :=
  ∃ header, parseHeader b = .ok header ∧ header.msgType = msgTransaction ∧
    (header.fragCount = 1 ∨ header.fragIndex < header.fragCount ∧
      (header.fragIndex = 0 ∨ header.fragIndex + 1 = header.fragCount))

/-- The fragment set behind a boundary: none, or the one it starts. -/
def restart (b : Bytes) : Reassembler :=
  match parseHeader b with
  | .error _ => .reset
  | .ok header =>
    if header.fragCount ≠ 1 ∧ header.fragIndex = 0 then
      { buf := payload b, fragCount := header.fragCount, expectIndex := 1,
        lastSeq := header.seq, active := true }
    else .reset

/-- Behind a boundary the fragment set is the same, whatever it was before. -/
theorem push_boundary (d : StreamDecoder) (now : SystemTime) (b : Bytes) (h : Boundary b) :
    (d.push now b).decoder.reasm = restart b := by
  rcases h with ⟨header, hh, hm, hb⟩
  have hsame : ∀ header', parseHeader b = .ok header' → header' = header := by
    intro header' hh'
    rw [hh] at hh'
    exact (Except.ok.inj hh').symm
  rw [restart, hh]
  have hp := push_pushes d now b
  generalize d.push now b = r at hp ⊢
  cases hp with
  | rejected e he =>
      rw [hh] at he
      cases he
  | other header' hh' hm' =>
      obtain rfl := hsame header' hh'
      exact absurd hm hm'
  | lone header' hh' _ h1 =>
      obtain rfl := hsame header' hh'
      rw [complete_reasm]
      exact (if_neg (fun hand => hand.1 h1)).symm
  | misfit header' hh' _ h1 hbad =>
      obtain rfl := hsame header' hh'
      have hlt := (hb.resolve_left h1).1
      rcases hbad with h0 | hge
      · rw [h0] at hlt
        exact absurd hlt (UInt8.not_lt_zero)
      · exact absurd hge (UInt8.not_le.mpr hlt)
  | first header' hh' _ h1 _ h0 =>
      obtain rfl := hsame header' hh'
      exact (if_pos ⟨h1, h0⟩).symm
  | broken header' hh' _ _ _ h0 =>
      obtain rfl := hsame header' hh'
      exact (if_neg (fun hand => h0 hand.2)).symm
  | last header' hh' _ _ _ h0 =>
      obtain rfl := hsame header' hh'
      rw [complete_reasm]
      exact (if_neg (fun hand => h0 hand.2)).symm
  | more header' hh' _ h1 _ h0 _ hl =>
      obtain rfl := hsame header' hh'
      rcases (hb.resolve_left h1).2 with hfirst | hlast
      · exact absurd hfirst h0
      · exact absurd hlast hl

/-- Away from the boundaries nothing is returned, and no set is started. -/
theorem push_inner (d : StreamDecoder) (now : SystemTime) (b : Bytes) (h : ¬ Boundary b) :
    updatesOf [d.push now b] = [] ∧
      (d.reasm.active = false → (d.push now b).decoder.reasm.active = false) := by
  have hp := push_pushes d now b
  rw [updatesOf_singleton]
  generalize d.push now b = r at hp ⊢
  cases hp with
  | rejected | other | misfit => exact ⟨rfl, id⟩
  | lone header hh hm h1 => exact absurd ⟨header, hh, hm, Or.inl h1⟩ h
  | first header hh hm _ hfit h0 =>
      exact absurd ⟨header, hh, hm, Or.inr ⟨lt_of_fit hfit, Or.inl h0⟩⟩ h
  | broken => exact ⟨rfl, fun _ => rfl⟩
  | last header hh hm _ hfit _ _ hl =>
      exact absurd ⟨header, hh, hm, Or.inr ⟨lt_of_fit hfit, Or.inr hl⟩⟩ h
  | more header _ _ _ _ _ hb =>
      -- It continues a set, so there is one.
      refine ⟨rfl, fun hidle => ?_⟩
      rw [((unbroken_iff _ _).mp hb).1] at hidle
      cases hidle

/-- What a decoder without a set returns, every decoder returns: it can only
    be an unfragmented transaction. -/
theorem update_of_idle (d d' : StreamDecoder) (now : SystemTime) (b : Bytes)
    (hidle : d'.reasm.active = false) (u : TransactionUpdate)
    (h : (d'.push now b).result = .update u) : (d.push now b).result = .update u := by
  have hp := push_pushes d' now b
  generalize d'.push now b = r' at hp h
  cases hp with
  | rejected | other | misfit | first | broken | more => cases h
  | last header hh hm h1 hfit h0 hb hl =>
      rw [((unbroken_iff _ _).mp hb).1] at hidle
      cases hidle
  | lone header hh hm h1 =>
      rw [complete_result] at h
      simp only [push, hh, hm, h1, ne_eq, not_true_eq_false, if_false, if_true]
      exact (complete_result _ now _ u).mpr h

/-- The updates are among the results. -/
theorem updatesOf_of_results (ps : List Pushed) : ∀ qs : List Pushed,
    ps.map (fun p => p.result) = qs.map (fun p => p.result) → updatesOf ps = updatesOf qs := by
  induction ps with
  | nil =>
      intro qs h
      rw [List.map_eq_nil_iff.mp h.symm]
  | cons p ps ih =>
      intro qs h
      rcases qs with _ | ⟨q, qs⟩
      · cases h
      rw [List.map_cons, List.map_cons, List.cons.injEq] at h
      rw [updatesOf_cons p ps, updatesOf_cons q qs, ih qs h.2, updatesOf_singleton,
        updatesOf_singleton, h.1]

/-- Decoders with the same fragment set go on to return the same updates. -/
theorem updatesOf_congr (d d' : StreamDecoder) (arrivals : List Arrival)
    (h : d.reasm = d'.reasm) : updatesOf (d.pushes arrivals) = updatesOf (d'.pushes arrivals) :=
  updatesOf_of_results _ _ (results_congr arrivals d d' h)

theorem length_updatesOf_singleton (r : Pushed) : (updatesOf [r]).length ≤ 1 := by
  rw [updatesOf_singleton]
  split
  · exact Nat.le_refl 1
  · exact Nat.zero_le 1

/-- A decoder without a set returns an update only if every other does. -/
theorem updatesOf_of_idle (d d' : StreamDecoder) (now : SystemTime) (b : Bytes)
    (hidle : d'.reasm.active = false) (h : (d.push now b).result ≠ (d'.push now b).result) :
    updatesOf [d'.push now b] = [] := by
  rw [updatesOf_singleton]
  split
  · rename_i u hu
    exact absurd ((update_of_idle d d' now b hidle u hu).trans hu.symm) h
  · rfl

/-- Two decoders with any pasts return the same updates from some point on,
    and at most one each before it; the one that has no set in progress has
    none before it. -/
theorem updates_converge (arrivals : List Arrival) : ∀ d d' : StreamDecoder,
    ∃ extra extra' common, updatesOf (d.pushes arrivals) = extra ++ common ∧
      updatesOf (d'.pushes arrivals) = extra' ++ common ∧ extra.length ≤ 1 ∧ extra'.length ≤ 1 ∧
      (d.reasm.active = false → extra = []) ∧ (d'.reasm.active = false → extra' = []) := by
  induction arrivals with
  | nil =>
      intro d d'
      exact ⟨[], [], [], rfl, rfl, Nat.zero_le 1, Nat.zero_le 1, fun _ => rfl, fun _ => rfl⟩
  | cons a arrivals ih =>
      intro d d'
      rw [pushes, pushes, updatesOf_cons, updatesOf_cons (d'.push a.now a.datagram)]
      by_cases hb : Boundary a.datagram
      · -- Both forget here, so what follows is common.
        have hreasm := (push_boundary d a.now a.datagram hb).trans
          (push_boundary d' a.now a.datagram hb).symm
        rw [updatesOf_congr _ _ arrivals hreasm]
        by_cases hsame : (d.push a.now a.datagram).result = (d'.push a.now a.datagram).result
        · refine ⟨[], [], _, rfl, ?_, Nat.zero_le 1, Nat.zero_le 1, fun _ => rfl, fun _ => rfl⟩
          rw [updatesOf_singleton, updatesOf_singleton, hsame]
          rfl
        · exact ⟨_, _, _, rfl, rfl, length_updatesOf_singleton _, length_updatesOf_singleton _,
            fun hidle => updatesOf_of_idle d' d a.now a.datagram hidle (Ne.symm hsame),
            fun hidle => updatesOf_of_idle d d' a.now a.datagram hidle hsame⟩
      · -- Neither returns anything.
        rcases push_inner d a.now a.datagram hb with ⟨hnone, hidle⟩
        rcases push_inner d' a.now a.datagram hb with ⟨hnone', hidle'⟩
        rcases ih (d.push a.now a.datagram).decoder (d'.push a.now a.datagram).decoder with
          ⟨extra, extra', common, h, h', hlen, hlen', hextra, hextra'⟩
        rw [hnone, hnone', h, h']
        exact ⟨extra, extra', common, rfl, rfl, hlen, hlen', fun hi => hextra (hidle hi),
          fun hi => hextra' (hidle' hi)⟩

/-- Once a boundary has been pushed the fragment sets are the same. -/
theorem reasm_converge (arrivals : List Arrival) (h : ∃ a ∈ arrivals, Boundary a.datagram) :
    ∀ d d' : StreamDecoder, (d.pushAll arrivals).reasm = (d'.pushAll arrivals).reasm := by
  induction arrivals using List.reverseRecOn with
  | nil =>
      rcases h with ⟨a, ha, _⟩
      exact absurd ha List.not_mem_nil
  | append_singleton arrivals a ih =>
      intro d d'
      rw [pushAll_append_singleton, pushAll_append_singleton]
      by_cases hb : Boundary a.datagram
      · rw [push_boundary _ _ _ hb, push_boundary _ _ _ hb]
      · -- It came earlier, and equal sets stay equal.
        refine (push_congr _ _ a.now a.datagram (ih ?_ d d')).2
        rcases h with ⟨a', ha', hb'⟩
        rcases List.mem_append.mp ha' with ha' | ha'
        · exact ⟨a', ha', hb'⟩
        · rw [List.mem_singleton.mp ha'] at hb'
          exact absurd hb' hb

/-- Decoders with different pasts that are fed the same: what they return
    differs in at most one update each, before everything else; and once a
    boundary has come they return the same for ever, errors included. -/
theorem resync (d d' : StreamDecoder) (arrivals : List Arrival) :
    (∃ extra extra' common, updatesOf (d.pushes arrivals) = extra ++ common ∧
      updatesOf (d'.pushes arrivals) = extra' ++ common ∧
      extra.length ≤ 1 ∧ extra'.length ≤ 1 ∧ (d'.reasm.active = false → extra' = [])) ∧
    ((∃ a ∈ arrivals, Boundary a.datagram) →
      ∀ later, (d.pushAll arrivals).results later = (d'.pushAll arrivals).results later) := by
  refine ⟨?_, fun h later => results_congr later _ _ (reasm_converge arrivals h d d')⟩
  rcases updates_converge arrivals d d' with
    ⟨extra, extra', common, h, h', hlen, hlen', _, hextra'⟩
  exact ⟨extra, extra', common, h, h', hlen, hlen', hextra'⟩

/-! ### No other datagram does it -/

/-- The first fragments of a set, as a sender writes them. -/
def leading (count : UInt8) (seq : UInt64) (n : Nat) : List Arrival :=
  (List.range n).map (fun i =>
    ⟨0, frame msgTransaction (UInt8.ofNat i) count (seq + UInt64.ofNat i) []⟩)

theorem leading_succ (count : UInt8) (seq : UInt64) (n : Nat) :
    leading count seq (n + 1) = leading count seq n ++
      [⟨0, frame msgTransaction (UInt8.ofNat n) count (seq + UInt64.ofNat n) []⟩] := by
  rw [leading, List.range_succ, List.map_append]
  rfl

/-- A fragment whose index fits its count is not noise. -/
theorem fragment_piece (count : UInt8) (seq : UInt64) (n : Nat) (h : n < count.toNat) :
    ¬ Noise (frame msgTransaction (UInt8.ofNat n) count seq []) ∧
      pieceOf (frame msgTransaction (UInt8.ofNat n) count seq []) = ⟨n, count.toNat, seq, []⟩ := by
  have hcount := count.toNat_lt
  have hindex : (UInt8.ofNat n).toNat = n := UInt8.toNat_ofNat_of_lt' (show n < 256 by omega)
  rcases parseHeader_frame msgTransaction (UInt8.ofNat n) count seq [] with ⟨hh, hbody⟩
  refine ⟨?_, ?_⟩
  · rw [noise_iff _ _ hh]
    rintro (htype | hzero | ⟨_, hge⟩)
    · exact htype rfl
    · simp only at hzero
      rw [hzero, UInt8.toNat_zero] at h
      exact absurd h (Nat.not_lt_zero n)
    · rw [ge_iff_le, UInt8.le_iff_toNat_le, hindex] at hge
      exact absurd h (Nat.not_lt.mpr hge)
  · rw [pieceOf_eq _ _ hh, hbody, hindex]

/-- After the first fragments of a set that has more, they are in progress. -/
theorem leading_view (count : UInt8) (seq : UInt64) (n : Nat) (h : n + 1 < count.toNat) :
    (new.pushAll (leading count seq (n + 1))).reasm.view
      = some ⟨count.toNat, n + 1, seq + UInt64.ofNat n, []⟩ := by
  have hone : count.toNat ≠ 1 := by omega
  induction n with
  | zero =>
      rcases fragment_piece count (seq + UInt64.ofNat 0) 0 (by omega) with ⟨hn, hpiece⟩
      rw [leading_succ, pushAll_append_singleton, (push_piece_view _ _ _ hn).1, hpiece]
      simp only [feed, hone, if_false, if_true, start]
  | succ n ih =>
      rcases fragment_piece count (seq + UInt64.ofNat (n + 1)) (n + 1) (by omega) with ⟨hn, hpiece⟩
      rw [leading_succ, pushAll_append_singleton, (push_piece_view _ _ _ hn).1, hpiece,
        ih (by omega)]
      have hnext : seq + UInt64.ofNat (n + 1) = seq + UInt64.ofNat n + 1 := by
        rw [UInt64.ofNat_add, ← UInt64.add_assoc]
        rfl
      have hmore : n + 1 + 1 ≠ count.toNat := by omega
      have hcontinues : Continues (· + 1) ⟨count.toNat, n + 1, seq + UInt64.ofNat n, []⟩
          (⟨n + 1, count.toNat, seq + UInt64.ofNat (n + 1), []⟩ : Piece UInt64 UInt8) :=
        ⟨rfl, rfl, hnext⟩
      simp only [feed, hone, Nat.add_one_ne_zero, if_false, hcontinues, if_true, hmore,
        Partial.extend, List.append_nil]

/-- A fragment that is not at a boundary is neither the first nor the last of
    its set. -/
theorem inner_fields (b : Bytes) (hb : ¬ Boundary b) (hn : ¬ Noise b) :
    ∃ header, parseHeader b = .ok header ∧ header.fragCount.toNat ≠ 1 ∧
      ∃ n, header.fragIndex.toNat = n + 1 ∧ n + 2 < header.fragCount.toNat := by
  rcases header_of_not_noise b hn with ⟨header, hh⟩
  rw [noise_iff b header hh, two_le_iff] at hn
  simp only [not_or, not_and, ne_eq, not_not, ge_iff_le, UInt8.not_le] at hn
  rcases hn with ⟨hm, hzero, hfits⟩
  have hone : header.fragCount ≠ 1 := fun h1 => hb ⟨header, hh, hm, Or.inl h1⟩
  have hlt := hfits ⟨hzero, hone⟩
  have hfirst : header.fragIndex ≠ 0 := fun h0 => hb ⟨header, hh, hm, Or.inr ⟨hlt, Or.inl h0⟩⟩
  have hlast : header.fragIndex + 1 ≠ header.fragCount :=
    fun hl => hb ⟨header, hh, hm, Or.inr ⟨hlt, Or.inr hl⟩⟩
  rcases Nat.exists_eq_succ_of_ne_zero (toNat_ne hfirst) with ⟨n, hindex⟩
  have hroom := toNat_ne hlast
  rw [toNat_succ_of_lt _ _ hlt] at hroom
  have hbelow := UInt8.lt_iff_toNat_lt.mp hlt
  exact ⟨header, hh, toNat_ne hone, n, hindex, by omega⟩

/-- A fragment in the middle of a set: one decoder waits for it, and keeps
    it; one without a set does not. -/
theorem inner_told_apart (b : Bytes) (hb : ¬ Boundary b) (hn : ¬ Noise b) :
    ∃ before, ((new.pushAll before).push 0 b).decoder.reasm ≠ (new.push 0 b).decoder.reasm := by
  rcases inner_fields b hb hn with ⟨header, hh, hone, n, hindex, hroom⟩
  have hview := leading_view header.fragCount (header.seq - UInt64.ofNat (n + 1)) n (by omega)
  refine ⟨leading header.fragCount (header.seq - UInt64.ofNat (n + 1)) (n + 1), fun hsame => ?_⟩
  have hsame := congrArg Reassembler.view hsame
  rw [(push_piece_view _ 0 b hn).1, (push_piece_view _ 0 b hn).1, hview, pieceOf_eq b header hh]
    at hsame
  have hnext : header.seq = header.seq - UInt64.ofNat (n + 1) + UInt64.ofNat n + 1 := by
    have hsucc : UInt64.ofNat (n + 1) = UInt64.ofNat n + 1 := UInt64.ofNat_add n 1
    rw [UInt64.add_assoc, ← hsucc, UInt64.sub_add_cancel]
  have hcontinues : Continues (· + 1)
      ⟨header.fragCount.toNat, n + 1, header.seq - UInt64.ofNat (n + 1) + UInt64.ofNat n, []⟩
      (⟨header.fragIndex.toNat, header.fragCount.toNat, header.seq, payload b⟩ :
        Piece UInt64 UInt8) := ⟨rfl, hindex, hnext⟩
  have hfirst : header.fragIndex.toNat ≠ 0 := by omega
  have hmore : header.fragIndex.toNat + 1 ≠ header.fragCount.toNat := by omega
  simp only [feed, hone, hfirst, hcontinues, hmore, if_false, if_true] at hsame
  cases hsame

/-- A datagram makes every decoder forget its past exactly when it is at a
    boundary: behind any other datagram two pasts can still be told apart. -/
theorem boundary_iff (b : Bytes) : Boundary b ↔ ∀ before before' now,
    ((new.pushAll before).push now b).decoder.reasm
      = ((new.pushAll before').push now b).decoder.reasm := by
  refine ⟨fun h before before' now => ?_, fun h => ?_⟩
  · rw [push_boundary _ now b h, push_boundary _ now b h]
  by_contra hb
  by_cases hn : Noise b
  · -- Noise leaves the set that one of them has in progress.
    have hsame := h [] (leading 2 0 1) 0
    rw [(push_noise _ 0 b hn).1, (push_noise _ 0 b hn).1] at hsame
    have hview := leading_view 2 0 0 (by decide)
    rw [← hsame] at hview
    cases hview
  · rcases inner_told_apart b hb hn with ⟨before, hne⟩
    exact hne (h before [] 0)

end StreamDecoder

end Codec

end ShredStream
