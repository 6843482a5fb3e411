import ShredStream.Theory.Frame.Sender

/-!
# The Counters of the Decoder

Every push ends in one of four ways: it yields an update, it is an error, its
datagram is a frame of another type, or it keeps a fragment that does not
complete its set. The last two return the same thing, so only the datagram
tells them apart. A whole transaction is never one of these: the last fragment
of a set, or a lone one, is an update or an error.

`Effect` says what one push adds to the counters and to what its caller sees,
and it is the same whichever of the eight ways the push went. Over a run the
effects add up.

## Main definitions

* `pushes`: What each push of a sequence leaves, returns and fires.
* `updatesOf`, `errorsOf`, `noticesOf`: What the caller sees of it.
* `isNonFinal`: A fragment that does not complete its set.
* `othersOf`, `fragmentsOf`: The two reasons for returning nothing.
* `Effect`: What one push adds.
* `Exact`: The counters after a sequence of datagrams.

## Theorems

* `push_effect`: Each push has that effect.
* `exact_push`: It keeps the account.
* `decoder_exact`: The counters of a fresh decoder are exact.
-/

namespace ShredStream

namespace Codec

namespace StreamDecoder

/-- What each push of a sequence leaves behind, returns and fires. -/
def pushes (d : StreamDecoder) : List Arrival → List Pushed
  | [] => []
  | a :: arrivals =>
    d.push a.now a.datagram :: pushes (d.push a.now a.datagram).decoder arrivals

/-- The updates returned. -/
def updatesOf (ps : List Pushed) : List TransactionUpdate :=
  ps.filterMap (fun p => match p.result with
    | .update u => some u
    | _ => none)

/-- The number of errors returned. -/
def errorsOf (ps : List Pushed) : Nat :=
  ps.countP (fun p => match p.result with
    | .error _ => true
    | _ => false)

/-- The notices fired. -/
def noticesOf (ps : List Pushed) : List Notice := ps.flatMap (fun p => p.notices)

/-- A frame of another message type. -/
def isOther (datagram : Bytes) : Bool :=
  match parseHeader datagram with
  | .error _ => false
  | .ok header => header.msgType != msgTransaction

/-- The number of frames of another type among the datagrams. -/
def othersOf (arrivals : List Arrival) : Nat := arrivals.countP (fun a => isOther a.datagram)

/-- A fragment of a transaction that is cut in two or more, and not the last. -/
def isNonFinal (datagram : Bytes) : Bool :=
  match parseHeader datagram with
  | .error _ => false
  | .ok header => header.msgType == msgTransaction &&
      decide (2 ≤ header.fragCount.toNat ∧ header.fragIndex.toNat + 1 < header.fragCount.toNat)

/-- The number of non-final fragments that were accepted: nothing was returned
    for them, and no error. -/
def fragmentsOf (arrivals : List Arrival) (ps : List Pushed) : Nat :=
  (arrivals.zip ps).countP (fun x => isNonFinal x.1.datagram && x.2.result == .skipped)

/-- The counters after pushing the arrivals, and what was returned and fired
    on the way. -/
structure Exact (arrivals : List Arrival) (ps : List Pushed) (s : Stats) : Prop where
  datagrams : s.datagrams = UInt64.ofNat arrivals.length
  bytes : s.bytes = UInt64.ofNat (arrivals.map (fun a => a.datagram.length)).sum
  messages : s.messages = UInt64.ofNat (updatesOf ps).length
  decodeErrors : s.decodeErrors = UInt64.ofNat (errorsOf ps)
  noticed : (noticesOf ps).count .decodeError = errorsOf ps
  skippedMsgType : s.skippedMsgType = UInt64.ofNat (othersOf arrivals)
  conserved : s.datagrams = s.messages + s.decodeErrors + s.skippedMsgType
    + UInt64.ofNat (fragmentsOf arrivals ps)
  lastSlot : s.lastSlot = ((updatesOf ps).getLast?.map (fun u => u.slot)).getD 0

/-- What the push of one datagram adds: it ends in one of four ways, and is
    counted as that. -/
structure Effect (d : StreamDecoder) (a : Arrival) (r : Pushed) : Prop where
  datagrams : r.decoder.stats.datagrams = d.stats.datagrams + 1
  bytes : r.decoder.stats.bytes = d.stats.bytes + UInt64.ofNat a.datagram.length
  messages : r.decoder.stats.messages = d.stats.messages + UInt64.ofNat (updatesOf [r]).length
  decodeErrors : r.decoder.stats.decodeErrors
    = d.stats.decodeErrors + UInt64.ofNat (errorsOf [r])
  noticed : (noticesOf [r]).count .decodeError = errorsOf [r]
  skippedMsgType : r.decoder.stats.skippedMsgType
    = d.stats.skippedMsgType + UInt64.ofNat (othersOf [a])
  one : (updatesOf [r]).length + errorsOf [r] + othersOf [a] + fragmentsOf [a] [r] = 1
  lastSlot : r.decoder.stats.lastSlot
    = ((updatesOf [r]).getLast?.map (fun u => u.slot)).getD d.stats.lastSlot

@[simp] theorem updatesOf_append (ps qs : List Pushed) :
    updatesOf (ps ++ qs) = updatesOf ps ++ updatesOf qs := List.filterMap_append

@[simp] theorem errorsOf_append (ps qs : List Pushed) :
    errorsOf (ps ++ qs) = errorsOf ps + errorsOf qs := List.countP_append

@[simp] theorem noticesOf_append (ps qs : List Pushed) :
    noticesOf (ps ++ qs) = noticesOf ps ++ noticesOf qs := List.flatMap_append

@[simp] theorem othersOf_append (as bs : List Arrival) :
    othersOf (as ++ bs) = othersOf as + othersOf bs := List.countP_append

theorem fragmentsOf_append (as bs : List Arrival) (ps qs : List Pushed)
    (h : as.length = ps.length) :
    fragmentsOf (as ++ bs) (ps ++ qs) = fragmentsOf as ps + fragmentsOf bs qs := by
  rw [fragmentsOf, List.zip_append h, List.countP_append]
  rfl

theorem othersOf_singleton (a : Arrival) (h : isOther a.datagram = false) : othersOf [a] = 0 := by
  rw [othersOf, List.countP_singleton, h]
  rfl

/-- A push whose result is an update or an error keeps no fragment. -/
theorem fragmentsOf_singleton (a : Arrival) (r : Pushed) (h : r.result ≠ .skipped) :
    fragmentsOf [a] [r] = 0 := by
  simp only [fragmentsOf, List.zip_cons_cons, List.zip_nil_right, List.countP_singleton,
    beq_eq_false_iff_ne.mpr h, Bool.and_false, Bool.false_eq_true, if_false]

@[simp] theorem length_pushes (arrivals : List Arrival) :
    ∀ d : StreamDecoder, (d.pushes arrivals).length = arrivals.length := by
  induction arrivals with
  | nil =>
      intro d
      rfl
  | cons a arrivals ih =>
      intro d
      rw [pushes, List.length_cons, ih, List.length_cons]

theorem pushAll_append_singleton (d : StreamDecoder) (arrivals : List Arrival) (a : Arrival) :
    d.pushAll (arrivals ++ [a]) = ((d.pushAll arrivals).push a.now a.datagram).decoder := by
  simp only [pushAll, List.foldl_append, List.foldl_cons, List.foldl_nil]

theorem pushes_append_singleton (arrivals : List Arrival) (a : Arrival) :
    ∀ d : StreamDecoder, d.pushes (arrivals ++ [a])
      = d.pushes arrivals ++ [(d.pushAll arrivals).push a.now a.datagram] := by
  induction arrivals with
  | nil =>
      intro d
      rfl
  | cons b arrivals ih =>
      intro d
      rw [List.cons_append, pushes, ih, pushes, List.cons_append]
      rfl

/-! ### One push -/

section Effects

variable (d : StreamDecoder) (a : Arrival)

/-- An error is counted, and announced. -/
theorem effect_reject (d' : StreamDecoder) (e : FrameError)
    (hstats : d'.stats = (d.counted a.datagram).stats) (hother : isOther a.datagram = false) :
    Effect d a (d'.reject e) := by
  have hnone := othersOf_singleton a hother
  have hkept := fragmentsOf_singleton a (d'.reject e) Push.noConfusion
  refine ⟨?_, ?_, ?_, ?_, rfl, ?_, ?_, ?_⟩
  · simp only [reject, hstats, counted]
  · simp only [reject, hstats, counted]
  · simp only [reject, hstats, counted]
    exact (UInt64.add_zero _).symm
  · simp only [reject, hstats, counted]
    rfl
  · simp only [reject, hstats, counted, hnone]
    exact (UInt64.add_zero _).symm
  · rw [hnone, hkept]
    rfl
  · simp only [reject, hstats, counted]
    rfl

/-- A whole payload is an update, or an error. -/
theorem effect_complete (d' : StreamDecoder) (whole : Bytes)
    (hstats : d'.stats = (d.counted a.datagram).stats) (hother : isOther a.datagram = false) :
    Effect d a (d'.complete a.now whole) := by
  unfold complete
  by_cases hshort : whole.length < 8
  · rw [if_pos hshort]
    exact effect_reject d a d' .truncated hstats hother
  rw [if_neg hshort]
  have hnone := othersOf_singleton a hother
  have hadd : ∀ x : UInt64, x = x + UInt64.ofNat 0 := fun x => (UInt64.add_zero x).symm
  refine ⟨?_, ?_, ?_, ?_, rfl, ?_, ?_, rfl⟩
  · simp only [hstats, counted]
  · simp only [hstats, counted]
  · simp only [hstats, counted]
    rfl
  · simp only [hstats, counted]
    exact hadd _
  · simp only [hstats, counted, hnone]
    exact hadd _
  · rw [hnone, fragmentsOf_singleton a _ Push.noConfusion]
    rfl

/-- A frame of another type, or a fragment that is kept, returns nothing. -/
theorem effect_skipped (r : Pushed) (other : Nat) (hresult : r.result = .skipped)
    (hnotices : r.notices = []) (hothers : othersOf [a] = other)
    (hone : other + (if isNonFinal a.datagram then 1 else 0) = 1)
    (hstats : r.decoder.stats = { (d.counted a.datagram).stats with
      skippedMsgType := d.stats.skippedMsgType + UInt64.ofNat other }) : Effect d a r := by
  have hnone : updatesOf [r] = [] := by
    simp only [updatesOf, List.filterMap_cons, hresult, List.filterMap_nil]
  have hzero : errorsOf [r] = 0 := by
    simp only [errorsOf, List.countP_singleton, hresult, Bool.false_eq_true, if_false]
  have hkept : fragmentsOf [a] [r] = if isNonFinal a.datagram then 1 else 0 := by
    simp only [fragmentsOf, List.zip_cons_cons, List.zip_nil_right, List.countP_singleton,
      hresult, beq_self_eq_true, Bool.and_true]
  have hadd : ∀ x : UInt64, x = x + UInt64.ofNat 0 := fun x => (UInt64.add_zero x).symm
  refine ⟨?_, ?_, ?_, ?_, ?_, ?_, ?_, ?_⟩
  · rw [hstats]
    rfl
  · rw [hstats]
    rfl
  · rw [hstats, hnone]
    exact hadd _
  · rw [hstats, hzero]
    exact hadd _
  · rw [hzero, noticesOf, List.flatMap_singleton, hnotices, List.count_nil]
  · rw [hstats, hothers]
  · rw [hnone, hzero, hothers, hkept]
    simpa only [List.length_nil, Nat.zero_add] using hone
  · rw [hstats, hnone]
    rfl

/-- Each push has that effect, whichever way it went. -/
theorem push_effect : Effect d a (d.push a.now a.datagram) := by
  have hp := push_pushes d a.now a.datagram
  generalize d.push a.now a.datagram = r at hp ⊢
  -- A transaction frame is of no other type.
  have hown : ∀ header, parseHeader a.datagram = .ok header → header.msgType = msgTransaction →
      isOther a.datagram = false := by
    intro header hh hm
    simp only [isOther, hh, hm, bne_self_eq_false]
  -- One that is kept is neither a set of its own nor the last of one.
  have hkept : ∀ header, parseHeader a.datagram = .ok header → header.msgType = msgTransaction →
      header.fragIndex.toNat + 1 < header.fragCount.toNat →
      othersOf [a] = 0 ∧ 0 + (if isNonFinal a.datagram then 1 else 0) = 1 := by
    intro header hh hm hlt
    have hnonfinal : isNonFinal a.datagram = true := by
      have htwo : 2 ≤ header.fragCount.toNat := by omega
      simp only [isNonFinal, hh, hm, beq_self_eq_true, htwo, hlt, and_self, decide_true,
        Bool.and_self]
    rw [othersOf_singleton a (hown header hh hm), hnonfinal]
    exact ⟨rfl, rfl⟩
  have hadd : ∀ x : UInt64, x = x + UInt64.ofNat 0 := fun x => (UInt64.add_zero x).symm
  cases hp with
  | rejected e he =>
      refine effect_reject d a _ e rfl ?_
      rw [isOther, he]
  | other header hh hm =>
      refine effect_skipped d a _ 1 rfl rfl ?_ ?_ rfl
      · simp only [othersOf, List.countP_singleton, isOther, hh, bne_iff_ne, ne_eq, hm,
          not_false_eq_true, if_true]
      · simp only [isNonFinal, hh, beq_eq_false_iff_ne.mpr hm, Bool.false_and, Bool.false_eq_true,
          if_false]
  | lone header hh hm => exact effect_complete d a _ _ rfl (hown header hh hm)
  | misfit header hh hm | broken header hh hm =>
      exact effect_reject d a _ _ rfl (hown header hh hm)
  | last header hh hm => exact effect_complete d a _ _ rfl (hown header hh hm)
  | first header hh hm h1 hfit h0 =>
      have hlt : header.fragIndex.toNat + 1 < header.fragCount.toNat := by
        have hfits := UInt8.lt_iff_toNat_lt.mp (lt_of_fit hfit)
        have hne : header.fragCount.toNat ≠ 1 := fun heq => h1 (UInt8.toNat_inj.mp heq)
        rw [h0, UInt8.toNat_zero] at hfits ⊢
        omega
      rcases hkept header hh hm hlt with ⟨hothers, hone⟩
      refine effect_skipped d a _ 0 rfl rfl hothers hone ?_
      simp only [← hadd]
      rfl
  | more header hh hm _ hfit _ _ hl =>
      have hlt : header.fragIndex.toNat + 1 < header.fragCount.toNat := by
        have hfits := UInt8.lt_iff_toNat_lt.mp (lt_of_fit hfit)
        have hne : header.fragIndex.toNat + 1 ≠ header.fragCount.toNat := by
          rw [← toNat_succ_of_lt _ _ (lt_of_fit hfit)]
          exact fun heq => hl (UInt8.toNat_inj.mp heq)
        omega
      rcases hkept header hh hm hlt with ⟨hothers, hone⟩
      refine effect_skipped d a _ 0 rfl rfl hothers hone ?_
      simp only [← hadd]
      rfl

end Effects

/-! ### A run -/

/-- One more push keeps the account. -/
theorem exact_push (arrivals : List Arrival) (ps : List Pushed) (d : StreamDecoder) (a : Arrival)
    (r : Pushed) (hlen : arrivals.length = ps.length) (h : Exact arrivals ps d.stats)
    (he : Effect d a r) : Exact (arrivals ++ [a]) (ps ++ [r]) r.decoder.stats := by
  refine ⟨?_, ?_, ?_, ?_, ?_, ?_, ?_, ?_⟩
  · rw [he.datagrams, h.datagrams, List.length_append, UInt64.ofNat_add]
    rfl
  · rw [he.bytes, h.bytes, List.map_append, List.sum_append, UInt64.ofNat_add, List.map_singleton,
      List.sum_singleton]
  · rw [he.messages, h.messages, updatesOf_append, List.length_append, UInt64.ofNat_add]
  · rw [he.decodeErrors, h.decodeErrors, errorsOf_append, UInt64.ofNat_add]
  · rw [noticesOf_append, List.count_append, h.noticed, he.noticed, errorsOf_append]
  · rw [he.skippedMsgType, h.skippedMsgType, othersOf_append, UInt64.ofNat_add]
  · -- The four classes grow by one between them, and so do the datagrams.
    rw [he.datagrams, he.messages, he.decodeErrors, he.skippedMsgType, h.conserved,
      fragmentsOf_append arrivals [a] ps [r] hlen, UInt64.ofNat_add]
    have hone : UInt64.ofNat (updatesOf [r]).length + UInt64.ofNat (errorsOf [r])
        + UInt64.ofNat (othersOf [a]) + UInt64.ofNat (fragmentsOf [a] [r]) = 1 := by
      rw [← UInt64.ofNat_add, ← UInt64.ofNat_add, ← UInt64.ofNat_add, he.one]
      rfl
    rw [← hone]
    ac_rfl
  · rw [he.lastSlot, h.lastSlot, updatesOf_append, List.getLast?_append]
    cases (updatesOf [r]).getLast? <;> rfl

/-- The counters of a fresh decoder are exact after any datagrams. -/
theorem decoder_exact (arrivals : List Arrival) :
    Exact arrivals (new.pushes arrivals) (new.pushAll arrivals).stats := by
  induction arrivals using List.reverseRecOn with
  | nil => exact ⟨rfl, rfl, rfl, rfl, rfl, rfl, rfl, rfl⟩
  | append_singleton arrivals a ih =>
      rw [pushes_append_singleton, pushAll_append_singleton]
      exact exact_push arrivals _ _ a _ (length_pushes arrivals new).symm ih (push_effect _ a)

end StreamDecoder

end Codec

end ShredStream
