import ShredStream.Theory.Filters
import ShredStream.Theory.Grpc.FilterMap

/-!
# What a Server is Sent

A subscription request comes a long way. A user builds filters, key by key,
and collects them in a map; `connect` and `update_filters` look at the map and
store it; every connection that is made later sends what is stored; and the
image in the request message is another kind of map. The limits are checked in
two places, the keys where a filter is built and the names where a map is
handed over, and nothing is checked where a request is sent.

It need not be. The fields of a filter and of a map are not public, so what is
handed over was built, and from then on it is only stored and sent. Every
request that a client holds or sends, in every run, is within the limits the
server documents, and every key in it is one of 32 bytes. That is so even when
an `update_filters` is dropped in the middle of its send.

## Main definitions

* `Lawful`: A request within the limits.
* `Checked`: A map that was built, and passed its validation.
* `Held`: A request in a channel of the client.

## Theorems

* `built_keys`: The keys of a filter that was built.
* `lawful_of_checked`: The request message of a map.
* `sends_step`: A step sends the images of maps that were checked.
* `requests_lawful`: What is sent in every run.
* `retriedRun_lawful`: What is sent by a client that connects again.
-/

namespace ShredStream

variable (bs58 : String → Option Nat)

/-! ### The image of a map -/

/-- The request has an entry at least and not too many, and the keys of each
    entry are good and not too many. -/
structure Lawful (req : Proto.SubscribeBinaryTransactionsRequest) : Prop where
  some_entry : 1 ≤ req.transactions.size
  few_entries : req.transactions.size ≤ maxNamedFilters
  few_keys : ∀ (name : String) f, req.transactions[name]? = some f →
    f.accountInclude.length + f.accountExclude.length + f.accountRequired.length
      ≤ maxKeysPerFilter
  good_keys : ∀ (name : String) f, req.transactions[name]? = some f →
    ∀ key ∈ f.accountInclude ++ f.accountExclude ++ f.accountRequired, bs58 key = some 32

/-- The map was made of built filters, and its validation has passed. -/
structure Checked (fs : Filters) : Prop where
  valid : fs.validate = .ok ()
  collected : ∃ names, Collected bs58 fs names

/-- The keys of a filter that was built are good. -/
theorem built_keys (f : Filter) (h : Built bs58 f) (l : KeyList) :
    ∀ key ∈ f.keysOf l, bs58 key = some 32 := by
  rcases h with ⟨start, calls, rfl | rfl, hb⟩ <;>
  · rcases (build_ok_iff bs58 calls f).mp hb with ⟨hgood, _, rfl⟩
    intro key hkey
    rw [keysOf_foldl] at hkey
    rcases List.mem_flatMap.mp hkey with ⟨call, hcall, hmem⟩
    exact (firstBad_eq_none_iff bs58 call.keys).mp (hgood call (List.mem_filter.mp hcall).1) key
      hmem

theorem built_add (fs : Filters) (name : String) (f : Filter) (hf : Built bs58 f)
    (h : ∀ (x : String) g, fs.map[x]? = some g → Built bs58 g) (x : String) (g : Filter)
    (hg : (fs.add name f).map[x]? = some g) : Built bs58 g := by
  rw [Filters.add, Std.TreeMap.getElem?_insert] at hg
  split at hg
  · cases hg
    exact hf
  · exact h x g hg

/-- A map that was collected holds filters that were built. -/
theorem built_of_collected (fs : Filters) (names : List String) (h : Collected bs58 fs names) :
    ∀ (x : String) g, fs.map[x]? = some g → Built bs58 g := by
  have hnew : ∀ (x : String) g, Filters.new.map[x]? = some g → Built bs58 g := by
    intro x g hg
    rw [Filters.new, Std.TreeMap.getElem?_emptyc] at hg
    cases hg
  induction h with
  | new => exact hnew
  | add fs names name f _ hf ih => exact built_add bs58 fs name f hf ih
  | fromIter pairs hpairs =>
      induction pairs using List.reverseRecOn with
      | nil => exact hnew
      | append_singleton pairs p ih =>
          rw [List.forall_mem_append, List.forall_mem_singleton] at hpairs
          rw [Filters.fromIter, List.foldl_append]
          exact built_add bs58 _ p.1 p.2 hpairs.2 (ih hpairs.1)

/-- The request message of a map that was checked is within the limits. -/
theorem lawful_of_checked (fs : Filters) (h : Checked bs58 fs) :
    Lawful bs58 (filtersToProto fs) := by
  rcases h with ⟨hvalid, names, hcollected⟩
  have hbuilt := built_of_collected bs58 fs names hcollected
  -- An entry of the request is the image of a filter of the map.
  have hentry : ∀ (name : String) e, (filtersToProto fs).transactions[name]? = some e →
      ∃ f, Built bs58 f ∧ e = filterToProto f := by
    intro name e he
    rw [filtersToProto_get] at he
    rcases Option.map_eq_some_iff.mp he with ⟨f, hf, rfl⟩
    exact ⟨f, hbuilt name f hf, rfl⟩
  have hsize : fs.map.isEmpty = false ∧ fs.map.size ≤ maxNamedFilters := by
    unfold Filters.validate at hvalid
    split at hvalid
    · cases hvalid
    · split at hvalid
      · cases hvalid
      · rename_i hempty hmany
        exact ⟨Bool.eq_false_iff.mpr hempty, Nat.le_of_not_lt hmany⟩
  refine ⟨?_, ?_, ?_, ?_⟩
  · rcases Std.TreeMap.isEmpty_eq_false_iff_exists_mem.mp hsize.1 with ⟨name, hname⟩
    have hmem : name ∈ (filtersToProto fs).transactions := by
      rw [Std.HashMap.mem_iff_isSome_getElem?, filtersToProto_get, Option.isSome_map]
      exact Std.TreeMap.mem_iff_isSome_getElem?.mp hname
    have hne := Std.HashMap.isEmpty_eq_false_iff_exists_mem.mpr ⟨name, hmem⟩
    rw [Std.HashMap.isEmpty_eq_size_eq_zero, beq_eq_false_iff_ne] at hne
    omega
  · refine Std.HashMap.size_ofList_le.trans ?_
    rw [List.length_map, Std.TreeMap.length_toList]
    exact hsize.2
  · intro name e he
    rcases hentry name e he with ⟨f, hf, rfl⟩
    exact built_keyCount bs58 f hf
  · intro name e he key hkey
    rcases hentry name e he with ⟨f, hf, rfl⟩
    rw [List.mem_append, List.mem_append] at hkey
    rcases hkey with (hkey | hkey) | hkey
    · exact built_keys bs58 f hf .includeKeys key hkey
    · exact built_keys bs58 f hf .excludeKeys key hkey
    · exact built_keys bs58 f hf .requiredKeys key hkey

/-! ### What a client sends -/

namespace Grpc

open GrpcClient Proto

/-- The request is in the channel of the connection in use, or in the one that
    a subscription in progress has filled. -/
def Held (s : Config) (req : SubscribeBinaryTransactionsRequest) : Prop :=
  (∃ stream reqTx since enqueued, s.client.state = .connected stream reqTx since ∧
    (req, enqueued) ∈ reqTx.log) ∨
  ∃ site reqTx enqueued, s.call = some (.subscribe site reqTx) ∧ (req, enqueued) ∈ reqTx.log

/-- A request is the image of a map that was checked. -/
def FromChecked (req : SubscribeBinaryTransactionsRequest) : Prop :=
  ∃ fs, Checked bs58 fs ∧ req = filtersToProto fs

/-- The stored map was checked, and nothing is held but images of such maps. -/
structure Sends (u : Config) : Prop where
  stored : Checked bs58 u.client.filters
  held : ∀ req, Held u req → FromChecked bs58 req

theorem mem_freshSender (c : GrpcClient) (req : SubscribeBinaryTransactionsRequest)
    (enqueued : Bool)
    (h : (req, enqueued) ∈ c.freshSender.log) : req = filtersToProto c.filters :=
  congrArg Prod.fst (List.mem_singleton.mp h)

/-- A stretch that keeps the map and the connection holds no more than before. -/
theorem sends_keeps (c : GrpcClient) (r : Config × List Output)
    (hstored : Checked bs58 c.filters)
    (hheld : ∀ stream reqTx since req enqueued, c.state = .connected stream reqTx since →
      (req, enqueued) ∈ reqTx.log → FromChecked bs58 req)
    (hr : Keeps c r) : Sends bs58 r.1 ∧ ∀ req, .subscribe req ∈ r.2 → FromChecked bs58 req := by
  refine ⟨⟨by rw [hr.filters]; exact hstored, ?_⟩, fun req hreq => absurd hreq (hr.silent req)⟩
  rintro req (⟨stream, reqTx, since, enqueued, hstate, hmem⟩ | ⟨site, reqTx, _, hcall, _⟩)
  · exact hheld stream reqTx since req enqueued (hr.state stream reqTx since hstate) hmem
  · exact absurd hcall (hr.call site reqTx)

/-- A map that is handed over is checked before it is stored and sent. -/
theorem sends_updateFilters (D : Deps) (c : GrpcClient) (filters : Filters) (sent : Sent)
    (hu : Sends bs58 ⟨c, none⟩) (hcollected : ∃ names, Collected bs58 filters names) :
    Sends bs58 ⟨(c.updateFilters D filters sent).1, none⟩ ∧
      ∀ req, .subscribe req ∈ (c.updateFilters D filters sent).2 → FromChecked bs58 req := by
  have hsilent : ∀ req, Output.subscribe req ∉ (c.updateFilters D filters sent).2 := by
    intro req hreq
    rcases updateFilters_cases D c filters sent with ⟨e, _, heq⟩ |
      ⟨_, stream, reqTx, since, _, heq⟩ | ⟨_, _, heq⟩ <;> rw [heq] at hreq
    · simp at hreq
    · split at hreq <;> simp at hreq
    · simp at hreq
  refine ⟨?_, fun req hreq => absurd hreq (hsilent req)⟩
  rcases updateFilters_cases D c filters sent with ⟨e, _, heq⟩ |
    ⟨hvalid, stream, reqTx, since, hstate, heq⟩ | ⟨hvalid, hstate, heq⟩ <;> rw [heq]
  · exact hu
  · have hchecked : Checked bs58 filters := ⟨hvalid, hcollected⟩
    refine ⟨hchecked, ?_⟩
    rintro req (⟨stream', reqTx', since', enqueued, hs, hmem⟩ | ⟨site, reqTx', _, hcall, _⟩)
    · simp only [State.connected.injEq] at hs
      rcases hs with ⟨rfl, rfl, rfl⟩
      have hbefore : (req, enqueued) ∈ reqTx.log → FromChecked bs58 req := fun h =>
        hu.held req (Or.inl ⟨stream, reqTx, since, enqueued, hstate, h⟩)
      -- A dropped send adds nothing; any other adds the image of the map.
      rcases send_log reqTx (filtersToProto filters) sent with hsame | ⟨flag, hmore⟩
      · rw [hsame] at hmem
        exact hbefore hmem
      · rw [hmore, List.mem_append, List.mem_singleton] at hmem
        exact hmem.elim hbefore (fun h => ⟨filters, hchecked, congrArg Prod.fst h⟩)
    · cases hcall
  · refine ⟨⟨hvalid, hcollected⟩, ?_⟩
    rintro req (⟨stream, reqTx, since, _, hs, _⟩ | ⟨site, reqTx, _, hcall, _⟩)
    · exact absurd hs (hstate stream reqTx since)
    · cases hcall

/-- A step sends images of maps that were checked, and holds no others. -/
theorem sends_step (D : Deps) (u : Config) (i : Input) (r : Config × List Output)
    (hu : Sends bs58 u)
    (hi : ∀ filters sent, i = .updateFilters filters sent → ∃ names, Collected bs58 filters names)
    (hm : Moves D u i r) :
    Sends bs58 r.1 ∧ ∀ req, .subscribe req ∈ r.2 → FromChecked bs58 req := by
  rcases requests_cases D u i r hm with
    ⟨filters, sent, rfl, hcall, rfl⟩ | ⟨site, now, rfl, rfl⟩ |
    ⟨site, reqTx, stream, clock, rfl, hcall, _, hr⟩ | ⟨hr, _, _⟩
  · rcases u with ⟨c, call⟩
    simp only at hcall
    subst hcall
    exact sends_updateFilters bs58 D c filters sent hu (hi filters sent rfl)
  · -- The fresh channel holds the image of the stored map.
    refine ⟨⟨hu.stored, ?_⟩, fun req hreq => ?_⟩
    · rintro req (⟨stream, reqTx, since, enqueued, hs, hmem⟩ |
        ⟨site', reqTx, enqueued, hcall, hmem⟩)
      · exact hu.held req (Or.inl ⟨stream, reqTx, since, enqueued, hs, hmem⟩)
      · cases hcall
        exact ⟨u.client.filters, hu.stored, mem_freshSender u.client req enqueued hmem⟩
    · simp only [List.mem_singleton, Output.subscribe.injEq] at hreq
      exact ⟨u.client.filters, hu.stored, hreq⟩
  · -- The channel of the call comes into use.
    refine sends_keeps bs58 { u.client with state := .connected stream reqTx clock.first } r
      hu.stored ?_ hr
    intro stream' reqTx' since' req enqueued hs hmem
    rw [State.connected.injEq] at hs
    rw [← hs.2.1] at hmem
    exact hu.held req (Or.inr ⟨site, reqTx, enqueued, hcall, hmem⟩)
  · exact sends_keeps bs58 u.client r hu.stored
      (fun stream reqTx since req enqueued hs hmem =>
        hu.held req (Or.inl ⟨stream, reqTx, since, enqueued, hs, hmem⟩)) hr

/-- Every request that a client holds or sends, in every run, is within the
    limits, if the maps it was given were built. -/
theorem requests_lawful (D : Deps) (s t : Config) (inputs : List Input) (os : List Output)
    (hs : Connected D s) (hstart : ∃ names, Collected bs58 s.client.filters names)
    (hinputs : ∀ filters sent, .updateFilters filters sent ∈ inputs →
      ∃ names, Collected bs58 filters names)
    (h : (grpc D).run s inputs = some (t, os)) (req : SubscribeBinaryTransactionsRequest)
    (hreq : Held t req ∨ .subscribe req ∈ os) : Lawful bs58 req := by
  rcases connected_client D s hs with ⟨_, _, hcall, hvalid, stream, since, hstate⟩
  have hchecked : Checked bs58 s.client.filters := ⟨hvalid, hstart⟩
  have h0 : Sends bs58 s := by
    refine ⟨hchecked, ?_⟩
    rintro req (⟨stream', reqTx, since', enqueued, hs', hmem⟩ | ⟨site, reqTx, _, hcall', _⟩)
    · rw [hstate, State.connected.injEq] at hs'
      rw [← hs'.2.1] at hmem
      exact ⟨s.client.filters, hchecked, mem_freshSender s.client req enqueued hmem⟩
    · rw [hcall] at hcall'
      cases hcall'
  have hrun := run_moves D
    (fun as u os => (∀ filters sent, .updateFilters filters sent ∈ as →
      ∃ names, Collected bs58 filters names) →
        Sends bs58 u ∧ ∀ req, .subscribe req ∈ os → FromChecked bs58 req)
    (fun as u os i r hu hm hall => by
      rcases hu (fun filters sent hmem => hall filters sent (List.mem_append_left [i] hmem)) with
        ⟨hsends, hshown⟩
      rcases sends_step bs58 D u i r hsends (fun filters sent hi => hall filters sent
        (List.mem_append_right as (List.mem_singleton.mpr hi.symm))) hm with ⟨hnext, hnew⟩
      exact ⟨hnext, fun req hreq => (List.mem_append.mp hreq).elim (hshown req) (hnew req)⟩)
    s t inputs os (fun _ => ⟨h0, fun req hreq => absurd hreq List.not_mem_nil⟩) h hinputs
  have hfrom : FromChecked bs58 req := hreq.elim (hrun.1.held req) (hrun.2 req)
  rcases hfrom with ⟨fs, hfs, rfl⟩
  exact lawful_of_checked bs58 fs hfs

/-- The base58 text of 32 zero bytes. -/
def systemProgram : String := "11111111111111111111111111111111"

/-- Decoding, for that text. -/
def decodeZeros (key : String) : Option Nat := if key = systemProgram then some 32 else none

/-- A map for that program, and a reconnection. -/
def retriedRun : List Input :=
  [.updateFilters (Filters.new.add "one" { includeKeys := [systemProgram] }) .dropped,
    .nextUpdate 0, .message (.ok none) ⟨0, 0⟩ 0, .slept, .channel (.ok ()) 0]

/-- What the server is sent then. -/
theorem retriedRun_lawful : ∃ t os req,
    (grpc openDeps).run plainStart retriedRun = some (t, os) ∧ Held t req ∧
    Lawful decodeZeros req := by
  have hrun : ∃ t os site reqTx req, (grpc openDeps).run plainStart retriedRun = some (t, os) ∧
      t.call = some (.subscribe site reqTx) ∧ reqTx.log = [(req, true)] :=
    ⟨_, _, _, _, _, rfl, rfl, rfl⟩
  rcases hrun with ⟨t, os, site, reqTx, req, hrun, hcall, hlog⟩
  have hheld : Held t req :=
    Or.inr ⟨site, reqTx, true, hcall, by rw [hlog]; exact List.mem_singleton_self _⟩
  have hbuilt : ∀ f calls, build decodeZeros Filter.new calls = .ok f → ∀ name,
      Collected decodeZeros (Filters.new.add name f) [name] :=
    fun f calls h name => Collected.add .new [] name f Collected.new ⟨.new, calls, Or.inl rfl, h⟩
  refine ⟨t, os, req, hrun, hheld, requests_lawful decodeZeros openDeps plainStart t retriedRun os
    plainStart_connected ⟨["all"], hbuilt .all [] rfl "all"⟩ (fun filters sent h => ?_) hrun req
    (Or.inl hheld)⟩
  simp only [retriedRun, List.mem_cons, List.not_mem_nil, or_false, Input.updateFilters.injEq,
    reduceCtorEq] at h
  rw [h.1]
  exact ⟨["one"], hbuilt _ [⟨.includeKeys, [systemProgram]⟩] rfl "one"⟩

end Grpc

end ShredStream
