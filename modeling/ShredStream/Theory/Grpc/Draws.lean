import Mathlib.Data.List.Prime
import Mathlib.Tactic.NormNum.Prime
import ShredStream.Lib.FullPeriod
import ShredStream.Theory.Grpc.Announce
import ShredStream.Theory.Grpc.Backoff
import ShredStream.Theory.Grpc.Jitter

/-!
# The Delays of a Client

A delay is the bound of its attempt times a number that the generator draws,
rounded to whole nanoseconds, and nothing else draws from the generator. So the
delays a client announces, over all its connections, use up the numbers one
after the other, and what is known of the generator is known of them. The
policies are those for which the rationals say what `f64` does, see
`Core/Config.lean`: the initial delay is positive and the factor at least one.

The generator has the longest period there can be: from every seed it goes
through all words but zero before it comes back. The numbers it draws are then
spread as evenly as can be. Over one period each multiple of `2⁻⁵³` below one
is drawn equally often, and only zero once less, since the word zero is never
reached.

## Main definitions

* `stepBits`: One step, on the bits of the state.
* `modulus`: How the words that follow a start depend on each other.
* `period`: The number of words but zero.
* `Fair`: What a full period means for what is drawn.
* `Draws`, `Drawn`: The delays of a step, and of a run.
* `Near`: What a delay is made from.

## Theorems

* `minimalPeriod_advance`: The period of the generator.
* `fair_of_ne_zero`: What is drawn over one period.
* `draws_step`: A step draws once and announces the delay, or does neither.
* `delays_fair`: The delays of every run.
* `lossyRun_fair`: The delays of a client that loses its connection.
-/

namespace ShredStream

open Function Xorshift FullPeriod

namespace Jitter

/-- One step, on the bits of the state. -/
def stepBits : BitVec 64 → BitVec 64 :=
  mix (fun x => x <<< 17) ∘ mix (fun x => x >>> 7) ∘ mix (fun x => x <<< 13)

/-- The polynomial of the first 65 words, which depend on each other. -/
def modulus : Nat := 0x1013ed4a358913201

/-- The number of words but zero. -/
def period : Nat := 2 ^ 64 - 1

/-- Its prime factors. -/
def factors : List Nat := [3, 5, 17, 257, 641, 65537, 6700417]

/-- From here the generator goes through all states but zero before it comes
    back, and on the way it draws every multiple of `2⁻⁵³` below one equally
    often, and only zero once less. -/
structure Fair (j : Jitter) : Prop where
  repeats : ∀ m n, drawn j m = drawn j n ↔ m % period = n % period
  visits : ∀ x, x ≠ 0 → ∃ n < period, (drawn j n).state = x
  even : ∀ u : Nat, u < 2 ^ 53 →
    Nat.count (fun n => (drawn j n).next.2 = (u : ℚ) / 2 ^ 53) period
      = if u = 0 then 2 ^ 11 - 1 else 2 ^ 11

/-! ### The period -/

theorem xorLinear_stepBits : XorLinear stepBits := by
  have hleft : ∀ k, 1 ≤ k → XorLinear (mix (fun x : BitVec 64 => x <<< k)) :=
    fun k hk => XorLinear.mix _ (vanishing_shiftLeft k hk).xor
  have hright : XorLinear (mix (fun x : BitVec 64 => x >>> 7)) :=
    XorLinear.mix _ (vanishing_ushiftRight 7 (by decide)).xor
  exact XorLinear.comp _ (hleft 17 (by decide)) _ (XorLinear.comp _ hright _ (hleft 13 (by decide)))

theorem toBitVec_iterate (x : UInt64) (n : Nat) :
    (advance^[n] x).toBitVec = stepBits^[n] x.toBitVec := by
  induction n with
  | zero => rfl
  | succ n ih => rw [iterate_succ_apply', iterate_succ_apply', ← ih, toBitVec_advance]; rfl

/-- Many steps at once. -/
theorem combine_power (e : Nat) (he : e < 2 ^ 64) :
    combine stepBits 1#64 64 (powMod modulus 64 64 e) = stepBits^[e] 1#64 :=
  combine_powMod stepBits xorLinear_stepBits 1#64 modulus 64 (by decide +kernel) (by decide) 64 e he

theorem prime_of_dvd_period (p : Nat) (hp : p.Prime) (h : p ∣ period) : p ∈ factors := by
  have hprod : period = factors.prod := by decide
  have hall : ∀ q ∈ factors, q.Prime := by
    unfold factors
    simp only [List.forall_mem_cons, List.not_mem_nil, false_imp_iff, implies_true, and_true]
    norm_num
  rw [hprod] at h
  rcases (Prime.dvd_prod_iff hp.prime).mp h with ⟨q, hq, hdvd⟩
  rwa [(Nat.prime_dvd_prime_iff_eq hp (hall q hq)).mp hdvd]

/-- From the word one the generator comes back after all others. -/
theorem minimalPeriod_one : minimalPeriod advance 1 = period := by
  have hlt : period < 2 ^ 64 := by decide
  have hback : combine stepBits 1#64 64 (powMod modulus 64 64 period) = 1#64 := by decide +kernel
  have hsooner : ∀ p ∈ factors,
      combine stepBits 1#64 64 (powMod modulus 64 64 (period / p)) ≠ 1#64 := by decide +kernel
  refine minimalPeriod_of_primes advance 1 period ?_ (fun p hp hdvd h => ?_)
  · apply UInt64.toBitVec_inj.mp
    rw [toBitVec_iterate]
    exact (combine_power period hlt).symm.trans hback
  · apply hsooner p (prime_of_dvd_period p hp hdvd)
    rw [combine_power _ ((Nat.div_le_self period p).trans_lt hlt)]
    exact (toBitVec_iterate 1 _).symm.trans (congrArg UInt64.toBitVec h)

theorem toNat_injective : Injective UInt64.toNat := fun _ _ h => UInt64.toNat_inj.mp h

theorem range_iff (x : UInt64) : 1 ≤ x.toNat ∧ x.toNat ≤ period ↔ x ≠ 0 := by
  have hlt := x.toNat_lt
  have hzero : x.toNat = 0 ↔ x = 0 := UInt64.toNat_inj (b := 0)
  rw [ne_eq, ← hzero, period]
  omega

theorem range_iterate (x : UInt64) (hx : x ≠ 0) (n : Nat) :
    1 ≤ (advance^[n] x).toNat ∧ (advance^[n] x).toNat ≤ period :=
  (range_iff _).mpr (iterate_ne_of_fixed advance advance_injective 0 advance_zero x hx n)

/-- So it does from every word but zero. -/
theorem minimalPeriod_advance (x : UInt64) (hx : x ≠ 0) : minimalPeriod advance x = period :=
  minimalPeriod_eq advance 1 period UInt64.toNat toNat_injective (range_iterate 1 (by decide))
    minimalPeriod_one x ((range_iff x).mpr hx)

/-! ### What is drawn -/

/-- The words whose upper 53 bits are the given ones. -/
theorem card_upper (u : Nat) (hu : u < 2 ^ 53) :
    ((Finset.Icc 1 period).filter (fun c => c / 2 ^ 11 = u)).card
      = if u = 0 then 2 ^ 11 - 1 else 2 ^ 11 := by
  have hbucket : (Finset.Icc 1 period).filter (fun c => c / 2 ^ 11 = u)
      = Finset.Ico (max 1 (2 ^ 11 * u)) (2 ^ 11 * (u + 1)) := by
    ext c
    rw [Finset.mem_filter, Finset.mem_Icc, Finset.mem_Ico, period]
    omega
  rw [hbucket, Nat.card_Ico]
  by_cases h : u = 0
  · rw [if_pos h, h]
    rfl
  · rw [if_neg h]
    omega

theorem next_drawn (j : Jitter) (n : Nat) : (drawn j n).next.2
    = (((advance^[n] (advance j.state)).toNat / 2 ^ 11 : Nat) : ℚ) / 2 ^ 53 := by
  have hnext : (drawn j n).next.2
      = ((advance (drawn j n).state >>> 11).toNat : ℚ) / 2 ^ 53 := rfl
  rw [hnext, state_drawn, ← iterate_succ_apply' advance, iterate_succ_apply,
    UInt64.toNat_shiftRight, Nat.shiftRight_eq_div_pow]
  rfl

theorem drawn_eq_iff (j : Jitter) (m n : Nat) :
    drawn j m = drawn j n ↔ advance^[m] j.state = advance^[n] j.state := by
  have hstate : ∀ a b : Jitter, a.state = b.state → a = b := by
    rintro ⟨x⟩ ⟨y⟩ h
    exact congrArg Jitter.mk h
  rw [← state_drawn, ← state_drawn]
  exact ⟨fun h => congrArg Jitter.state h, hstate _ _⟩

/-- A generator that does not stand at zero is fair. -/
theorem fair_of_ne_zero (j : Jitter) (hj : j.state ≠ 0) : Fair j := by
  have hperiod := minimalPeriod_advance j.state hj
  have hpos : 0 < period := by decide
  refine ⟨fun m n => ?_, fun x hx => ?_, fun u hu => ?_⟩
  · have hmod : ∀ n, n % period < minimalPeriod advance j.state := by
      intro n
      rw [hperiod]
      exact Nat.mod_lt n hpos
    have hreduce : ∀ n, advance^[n] j.state = advance^[n % period] j.state := by
      intro n
      rw [← hperiod]
      exact iterate_mod_minimalPeriod_eq.symm
    rw [drawn_eq_iff, hreduce m, hreduce n]
    exact iterate_eq_iterate_iff_of_lt_minimalPeriod (hmod m) (hmod n)
  · rcases exists_iterate_eq advance j.state period UInt64.toNat toNat_injective
      (range_iterate j.state hj) hperiod x ((range_iff x).mpr hx) with ⟨n, hn, heq⟩
    exact ⟨n, hn, (state_drawn j n).trans heq⟩
  · -- A number is drawn when the upper bits of the next state are.
    have hnext : advance j.state ≠ 0 := fun h =>
      hj (advance_injective (h.trans advance_zero.symm))
    have hiff : ∀ n, (drawn j n).next.2 = (u : ℚ) / 2 ^ 53 ↔
        (advance^[n] (advance j.state)).toNat / 2 ^ 11 = u := by
      intro n
      rw [next_drawn, div_left_inj' (by positivity), Nat.cast_inj]
    have hcount := count_iterate advance (advance j.state) period UInt64.toNat toNat_injective
      (range_iterate _ hnext) (minimalPeriod_advance _ hnext) (fun c => c / 2 ^ 11 = u)
    simp only [hiff]
    rw [hcount, card_upper u hu]

end Jitter

/-! ### The delays of a run -/

namespace Grpc

open GrpcClient Jitter

/-- From this generator a client draws nothing and announces nothing, or draws
    once and announces the bound of the attempt times what it draws, in whole
    nanoseconds. -/
def Draws (policy : ReconnectPolicy) (j : Jitter) (v : GrpcClient) (new : List Output) : Prop :=
  v.reconnect = policy ∧ sleepsOf new = (announcementsOf new).map (fun a => a.2) ∧
    (v.jitter = j ∧ announcementsOf new = [] ∨
      v.jitter = j.next.1 ∧ ∃ attempt,
        announcementsOf new
          = [(attempt, Duration.fromSecsF64 (backoffBound policy attempt * j.next.2))])

/-- The top of the loop draws when it backs off. -/
theorem enter_draws (c : GrpcClient) (now : Instant) :
    Draws c.reconnect c.jitter (settle (c.enter now)).1.client (settle (c.enter now)).2 := by
  have hentered := entered_enter c now
  generalize settle (c.enter now) = q at hentered ⊢
  cases hentered with
  | disconnected => exact ⟨rfl, rfl, Or.inr ⟨rfl, _, rfl⟩⟩
  | finished | terminal | connected => exact ⟨rfl, rfl, Or.inl ⟨rfl, rfl⟩⟩

theorem afterConnect_draws (c : GrpcClient) (site : Site) (r : Except Status Unit) (now : Instant) :
    Draws c.reconnect c.jitter (settle (c.afterConnect site r now)).1.client
      (settle (c.afterConnect site r now)).2 := by
  cases site <;> cases r
  case dataLoss.error e => exact enter_draws { c with state := .disconnected } now
  all_goals exact enter_draws c now

/-- So does every step. -/
theorem draws_step (D : Deps) (u : Config) (i : Input) (r : Config × List Output)
    (hm : Moves D u i r) : Draws u.client.reconnect u.client.jitter r.1.client r.2 := by
  cases hm with
  | nextUpdate c now => exact enter_draws c now
  | updateFilters c filters sent =>
      rcases updateFilters_cases D c filters sent with ⟨e, _, heq⟩ |
        ⟨_, stream, reqTx, since, _, heq⟩ | ⟨_, _, heq⟩ <;> rw [heq]
      · exact ⟨rfl, rfl, Or.inl ⟨rfl, rfl⟩⟩
      · by_cases hsent : sent = .dropped
        · rw [if_pos hsent]
          exact ⟨rfl, rfl, Or.inl ⟨rfl, rfl⟩⟩
        · rw [if_neg hsent]
          exact ⟨rfl, rfl, Or.inl ⟨rfl, rfl⟩⟩
      · exact ⟨rfl, rfl, Or.inl ⟨rfl, rfl⟩⟩
  | channel c site r now =>
      cases r with
      | ok u => exact ⟨rfl, rfl, Or.inl ⟨rfl, rfl⟩⟩
      | error e => exact afterConnect_draws c site _ now
  | response c site reqTx r clock =>
      cases r with
      | error status => exact afterConnect_draws c site _ clock.second
      | ok stream =>
          -- The notice that it is connected again is of another kind.
          have hsilent : announcementsOf (c.subscribed stream reqTx clock.first).2 = [] ∧
              sleepsOf (c.subscribed stream reqTx clock.first).2 = [] := by
            unfold subscribed
            cases c.everConnected <;> exact ⟨rfl, rfl⟩
          rw [onResponse_ok]
          have henter := enter_draws (c.subscribed stream reqTx clock.first).1 clock.second
          simp only [Draws, announcementsOf_append, sleepsOf_append, hsilent.1, hsilent.2,
            List.nil_append]
          exact henter
  | message c stable r clock receivedAt =>
      have hheard := heard_onMessage c stable r clock receivedAt
      generalize settle (c.onMessage stable r clock receivedAt) = q at hheard ⊢
      cases hheard with
      | terminal | recoverable | ended | recent | skipped => exact enter_draws _ _
      | immediate | returned => exact ⟨rfl, rfl, Or.inl ⟨rfl, rfl⟩⟩
  | close | slept | dropCall => exact ⟨rfl, rfl, Or.inl ⟨rfl, rfl⟩⟩

/-- The delays of a run, and where they leave the generator. -/
structure Drawn (policy : ReconnectPolicy) (j : Jitter) (u : GrpcClient) (os : List Output) :
    Prop where
  reconnect : u.reconnect = policy
  jitter : u.jitter = drawn j (announcementsOf os).length
  slept : sleepsOf os = (announcementsOf os).map (fun a => a.2)
  delays : ∀ n attempt delay, (announcementsOf os)[n]? = some (attempt, delay) →
    delay = Duration.fromSecsF64 (backoffBound policy attempt * (drawn j n).next.2)

theorem drawn_step (policy : ReconnectPolicy) (j : Jitter) (u v : GrpcClient)
    (os new : List Output) (hu : Drawn policy j u os)
    (hd : Draws u.reconnect u.jitter v new) : Drawn policy j v (os ++ new) := by
  rcases hd with ⟨hreconnect, hslept, hdraw⟩
  have hsleeps : sleepsOf (os ++ new) = (announcementsOf (os ++ new)).map (fun a => a.2) := by
    rw [sleepsOf_append, announcementsOf_append, List.map_append, hu.slept, hslept]
  rcases hdraw with ⟨hjitter, hnone⟩ | ⟨hjitter, attempt, hone⟩
  · have hsame : announcementsOf (os ++ new) = announcementsOf os := by
      rw [announcementsOf_append, hnone, List.append_nil]
    exact ⟨hreconnect.trans hu.reconnect, by rw [hjitter, hu.jitter, hsame], hsleeps,
      by rw [hsame]; exact hu.delays⟩
  · have hmore : announcementsOf (os ++ new) = announcementsOf os
        ++ [(attempt, Duration.fromSecsF64
          (backoffBound u.reconnect attempt * u.jitter.next.2))] := by
      rw [announcementsOf_append, hone]
    refine ⟨hreconnect.trans hu.reconnect, ?_, hsleeps, fun n attempt' delay h => ?_⟩
    · rw [hjitter, hu.jitter, hmore, List.length_append, List.length_singleton, drawn, drawn,
        Function.iterate_succ_apply']
    · rw [hmore, List.getElem?_append] at h
      by_cases hn : n < (announcementsOf os).length
      · rw [if_pos hn] at h
        exact hu.delays n attempt' delay h
      · -- The last delay is the one that is drawn now.
        rw [if_neg hn, List.getElem?_singleton] at h
        split at h
        · cases h
          have heq : n = (announcementsOf os).length := by omega
          rw [hu.reconnect, hu.jitter, heq]
        · cases h

theorem drawn_run (D : Deps) (s t : Config) (inputs : List Input) (os : List Output)
    (h : (grpc D).run s inputs = some (t, os)) :
    Drawn s.client.reconnect s.client.jitter t.client os :=
  run_moves D (fun _ u os => Drawn s.client.reconnect s.client.jitter u.client os)
    (fun _ u os i r hu hm => drawn_step _ _ u.client r.1.client os r.2 hu (draws_step D u i r hm))
    s t inputs os ⟨rfl, rfl, rfl, fun n attempt delay h => by cases h⟩ h

/-- What a delay is made from, as it is before it is rounded. -/
structure Near (policy : ReconnectPolicy) (draw secs : ℚ) (delay : Duration) : Prop where
  nonneg : 0 ≤ secs
  near : |secs * 10 ^ 9 - delay| ≤ 1 / 2
  zero : secs = 0 → draw = 0 ∨ policy.max = 0

theorem near_delay (policy : ReconnectPolicy) (attempt : UInt32) (j : Jitter)
    (hinitial : 0 < policy.initial) (hmultiplier : 1 ≤ policy.multiplier) :
    Near policy j.next.2 (backoffBound policy attempt * j.next.2)
      (Duration.fromSecsF64 (backoffBound policy attempt * j.next.2)) := by
  have hpos : 0 < policy.multiplier := lt_of_lt_of_le one_pos hmultiplier
  have hnonneg := mul_nonneg (backoffBound_nonneg policy attempt hpos.le) (draw_range j).1
  refine ⟨hnonneg, fromSecsF64_near _ hnonneg, fun hzero => ?_⟩
  rcases mul_eq_zero.mp hzero with hbound | hdraw
  · refine Or.inr (Nat.eq_zero_of_not_pos (fun hmax => ?_))
    exact absurd hbound (backoffBound_pos policy attempt hinitial hpos hmax).ne'
  · exact Or.inl hdraw

/-- The delays of a client, in every run, over all its connections: before it
    is rounded to whole nanoseconds, each is the bound of its attempt times the
    next number the generator draws, and the generator is fair. -/
theorem delays_fair (D : Deps) (s t : Config) (inputs : List Input) (os : List Output)
    (hs : Connected D s) (hinitial : 0 < s.client.reconnect.initial)
    (hmultiplier : 1 ≤ s.client.reconnect.multiplier)
    (h : (grpc D).run s inputs = some (t, os)) :
    Fair s.client.jitter ∧ Drawn s.client.reconnect s.client.jitter t.client os ∧
    ∀ n attempt delay, (announcementsOf os)[n]? = some (attempt, delay) →
      Near s.client.reconnect (drawn s.client.jitter n).next.2
        (backoffBound s.client.reconnect attempt * (drawn s.client.jitter n).next.2) delay := by
  have hdrawn := drawn_run D s t inputs os h
  refine ⟨fair_of_ne_zero _ ?_, hdrawn, fun n attempt delay hn => ?_⟩
  · -- `connect` seeds the generator and draws nothing.
    rcases connected_prepared D s hs with ⟨cfg, sinceEpoch, c, stream, now, hp, hclient, _⟩
    rcases prepare_eq D cfg sinceEpoch c hp with ⟨_, endpoint, auth, rfl⟩
    rw [hclient]
    exact seed_ne_zero _
  · rw [hdrawn.delays n attempt delay hn]
    exact near_delay _ attempt _ hinitial hmultiplier

/-- Two backoffs, for two delays: eighty-six milliseconds of a hundred, and
    seventy-nine of two hundred. -/
theorem lossyRun_fair : ∃ t os, (grpc openDeps).run plainStart lossyRun = some (t, os) ∧
    announcementsOf os = [(1, 85979412), (2, 78860268)] ∧ sleepsOf os = [85979412, 78860268] ∧
    t.client.jitter = drawn (.new none) 2 ∧ Fair (.new none) := by
  have hrun : ∃ t os x y, (grpc openDeps).run plainStart lossyRun = some (t, os) ∧
      announcementsOf os = [(1, x), (2, y)] := ⟨_, _, _, _, rfl, rfl⟩
  rcases hrun with ⟨t, os, x, y, hrun, htwo⟩
  rcases delays_fair openDeps plainStart t lossyRun os plainStart_connected (by decide)
    (by decide) hrun with ⟨hfair, hdrawn, _⟩
  have hx : x = 85979412 := (hdrawn.delays 0 1 x (by rw [htwo]; rfl)).trans plain_delays.1
  have hy : y = 78860268 := (hdrawn.delays 1 2 y (by rw [htwo]; rfl)).trans plain_delays.2.2
  subst hx hy
  refine ⟨t, os, hrun, htwo, ?_, ?_, hfair⟩
  · rw [hdrawn.slept, htwo]
    rfl
  · rw [hdrawn.jitter, htwo]
    rfl

end Grpc

end ShredStream
