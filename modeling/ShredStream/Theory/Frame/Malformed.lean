import ShredStream.Theory.Frame.Accounting

/-!
# Malformed Fragment Fields

A fragment index has to be below the fragment count, and a count of zero
admits no index. `push` tests that, and a frame that fails the test is an
error which leaves the fragment set in progress alone.

The test comes after the one for a single fragment, though. A frame that says
it is the only fragment is taken for a whole transaction whatever its index
is, and it takes the set in progress with it. Nothing else escapes the test,
so a malformed frame does no harm exactly when its count is not one.

## Main definitions

* `Malformed`: A transaction frame whose index its count does not admit.
* `Harmless`: It is refused, and as if it had not come.

## Theorems

* `push_congr`: What a push does depends on the reassembler only.
* `malformed_iff`: Which malformed frames do no harm.
* `strayIndex_harmful`: One that does.
-/

namespace ShredStream

namespace Codec

namespace StreamDecoder

/-- A transaction frame without fragments, or whose index is not below its
    count. -/
def Malformed (b : Bytes) : Prop :=
  ∃ header, parseHeader b = .ok header ∧ header.msgType = msgTransaction ∧
    (header.fragCount = 0 ∨ header.fragIndex ≥ header.fragCount)

/-- The results of pushing datagrams one after the other. -/
def results (d : StreamDecoder) (arrivals : List Arrival) : List Push :=
  (d.pushes arrivals).map (fun p => p.result)

/-- The push is an error that is counted once and leaves the fragment set as
    it is, so that everything after it comes out as it would have. -/
structure Harmless (d : StreamDecoder) (r : Pushed) : Prop where
  result : r.result = .error .badFragment
  counted : r.decoder.stats.decodeErrors = d.stats.decodeErrors + 1
  kept : r.decoder.reasm = d.reasm
  later : ∀ arrivals, r.decoder.results arrivals = d.results arrivals

theorem complete_congr (d d' : StreamDecoder) (now : SystemTime) (whole : Bytes)
    (h : d.reasm = d'.reasm) : (d.complete now whole).result = (d'.complete now whole).result ∧
      (d.complete now whole).decoder.reasm = (d'.complete now whole).decoder.reasm := by
  refine ⟨?_, ?_⟩
  · unfold complete
    by_cases hshort : whole.length < 8
    · rw [if_pos hshort, if_pos hshort]
      rfl
    · rw [if_neg hshort, if_neg hshort]
  · rw [complete_reasm, complete_reasm, h]

/-- Decoders with the same fragment set return the same and keep the same set;
    the counters play no part. -/
theorem push_congr (d d' : StreamDecoder) (now : SystemTime) (b : Bytes)
    (h : d.reasm = d'.reasm) : (d.push now b).result = (d'.push now b).result ∧
      (d.push now b).decoder.reasm = (d'.push now b).decoder.reasm := by
  unfold push
  rcases parseHeader b with e | header
  · exact ⟨rfl, h⟩
  simp only
  -- The same tests on both sides, one after the other.
  by_cases htype : header.msgType ≠ msgTransaction
  · rw [if_pos htype, if_pos htype]
    exact ⟨rfl, h⟩
  rw [if_neg htype, if_neg htype]
  by_cases hlone : header.fragCount = 1
  · rw [if_pos hlone, if_pos hlone]
    exact complete_congr _ _ now _ rfl
  rw [if_neg hlone, if_neg hlone]
  by_cases hmisfit : header.fragCount = 0 ∨ header.fragIndex ≥ header.fragCount
  · rw [if_pos hmisfit, if_pos hmisfit]
    exact ⟨rfl, h⟩
  rw [if_neg hmisfit, if_neg hmisfit]
  by_cases hfirst : header.fragIndex = 0
  · rw [if_pos hfirst, if_pos hfirst]
    exact ⟨rfl, rfl⟩
  rw [if_neg hfirst, if_neg hfirst, h]
  by_cases hbroken : d'.reasm.active = false ∨ d'.reasm.fragCount ≠ header.fragCount ∨
      header.fragIndex ≠ d'.reasm.expectIndex ∨ header.seq ≠ d'.reasm.lastSeq + 1
  · rw [if_pos hbroken, if_pos hbroken]
    exact ⟨rfl, rfl⟩
  rw [if_neg hbroken, if_neg hbroken]
  by_cases hlast : header.fragIndex + 1 = header.fragCount
  · rw [if_pos hlast, if_pos hlast]
    exact complete_congr _ _ now _ rfl
  · rw [if_neg hlast, if_neg hlast]
    exact ⟨rfl, rfl⟩

/-- Decoders with the same fragment set go on the same. -/
theorem results_congr (arrivals : List Arrival) : ∀ d d' : StreamDecoder, d.reasm = d'.reasm →
    d.results arrivals = d'.results arrivals := by
  induction arrivals with
  | nil =>
      intro d d' _
      rfl
  | cons a arrivals ih =>
      intro d d' h
      rcases push_congr d d' a.now a.datagram h with ⟨hresult, hreasm⟩
      have hrest := ih _ _ hreasm
      rw [results, results] at hrest ⊢
      rw [pushes, pushes, List.map_cons, List.map_cons, hresult, hrest]

/-- The fragment count of a frame is its byte 6. -/
theorem fragCount_eq (b : Bytes) (header : FrameHeader) (h : parseHeader b = .ok header) :
    header.fragCount = b.getD 6 0 := by
  unfold parseHeader at h
  repeat' split at h
  all_goals cases h
  rfl

/-- Completing a payload yields an update, or an error of another kind. -/
theorem complete_not_badFragment (d : StreamDecoder) (now : SystemTime) (whole : Bytes) :
    (d.complete now whole).result ≠ .error .badFragment := by
  unfold complete
  by_cases hshort : whole.length < 8
  · rw [if_pos hshort]
    nofun
  · rw [if_neg hshort]
    nofun

/-- A malformed frame does no harm exactly when its count is not one. -/
theorem malformed_iff (d : StreamDecoder) (now : SystemTime) (b : Bytes) (h : Malformed b) :
    Harmless d (d.push now b) ↔ b.getD 6 0 ≠ 1 := by
  rcases h with ⟨header, hh, hm, hbad⟩
  rw [← fragCount_eq b header hh]
  have hp := push_pushes d now b
  generalize d.push now b = r at hp ⊢
  -- Whichever way it went, the header is the same one.
  have hsame : ∀ header', parseHeader b = .ok header' → header' = header := by
    intro header' h'
    rw [hh] at h'
    exact (Except.ok.inj h').symm
  cases hp with
  | rejected e he =>
      rw [hh] at he
      cases he
  | other header' h' hm' => exact absurd (hsame header' h' ▸ hm) hm'
  | lone header' h' _ h1 =>
      -- The early exit: a whole payload, whatever the index is.
      obtain rfl := hsame header' h'
      refine ⟨fun hharmless => ?_, fun hne => absurd h1 hne⟩
      exact absurd hharmless.result (complete_not_badFragment _ now _)
  | misfit header' h' _ h1 =>
      obtain rfl := hsame header' h'
      refine ⟨fun _ => h1, fun _ => ⟨rfl, rfl, rfl, fun arrivals => ?_⟩⟩
      exact results_congr arrivals _ d rfl
  | first header' h' _ _ hfit | broken header' h' _ _ hfit | last header' h' _ _ hfit
  | more header' h' _ _ hfit =>
      obtain rfl := hsame header' h'
      exact absurd hbad hfit

/-- The first of two fragments has arrived. -/
def halfReceived : StreamDecoder :=
  new.pushAll [⟨1, frame msgTransaction 0 2 10 [7, 0, 0, 0, 0, 0, 0, 0]⟩]

/-- Fragment 5 of one. -/
def strayIndex : Bytes := frame msgTransaction 5 1 11 [9, 0, 0, 0, 0, 0, 0, 0]

/-- It is taken for a transaction, and the second fragment of the set comes
    too late. -/
theorem strayIndex_harmful :
    Malformed strayIndex ∧ ¬ Harmless halfReceived (halfReceived.push 2 strayIndex) ∧
      (∃ u, (halfReceived.push 2 strayIndex).result = .update u) ∧
      (halfReceived.push 2 strayIndex).decoder.results [⟨3, frame msgTransaction 1 2 11 [42]⟩]
        = [.error .badFragment] := by
  refine ⟨⟨_, rfl, rfl, by decide⟩, fun h => ?_, ⟨_, rfl⟩, rfl⟩
  cases h.result

/-- A frame without fragments is refused and counted, and the set is
    completed. -/
theorem noFragments_harmless :
    Harmless halfReceived (halfReceived.push 2 (frame msgTransaction 0 0 11 [])) ∧
      (halfReceived.push 2 (frame msgTransaction 0 0 11 [])).result = .error .badFragment ∧
      (halfReceived.push 2 (frame msgTransaction 0 0 11 [])).decoder.stats.decodeErrors = 1 ∧
      (halfReceived.push 2 (frame msgTransaction 0 0 11 [])).decoder.results
        [⟨3, frame msgTransaction 1 2 11 [42]⟩] = [.update ⟨7, [42], [], [], none, 3⟩] :=
  ⟨(malformed_iff halfReceived 2 _ ⟨_, rfl, rfl, by decide⟩).mpr (by decide), rfl, rfl, rfl⟩

end StreamDecoder

end Codec

end ShredStream
