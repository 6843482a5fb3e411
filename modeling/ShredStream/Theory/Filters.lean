import Mathlib.Data.List.Dedup
import Mathlib.Data.List.Induction
import ShredStream.Core.Filters

/-!
# Building Filters

A filter is grown by three operations, each for one of its lists. They differ
in the list alone: each validates its keys, appends them, and checks the
number of keys in all three lists together. So a chain of calls can be told by
its keys, and it fails at the first call whose keys are bad or too many.

A map of filters that were built is within the limit on keys already. Of the
three errors of `validate` only the two about the number of names are left.

## Main definitions

* `KeyList`, `Call`: A call of a builder operation.
* `build`: A chain of calls.
* `Built`, `Collected`: The filters and the maps that can be made.
* `BuilderInvariant`: What holds of all of them.

## Theorems

* `Call.apply_eq`: What one call does.
* `build_ok_iff`: Which chains succeed, and with what.
* `build_error`: Where a chain fails, and with what.
* `builder_invariant`: The invariant holds.
-/

namespace ShredStream

/-- The lists of a filter. -/
inductive KeyList where
  | includeKeys
  | excludeKeys
  | requiredKeys
  deriving DecidableEq, Repr

/-- A call of the builder operation for one of the lists. -/
structure Call where
  list : KeyList
  keys : List String

namespace Filter

def keysOf (f : Filter) : KeyList → List String
  | .includeKeys => f.includeKeys
  | .excludeKeys => f.excludeKeys
  | .requiredKeys => f.requiredKeys

/-- The filter with more keys in one of its lists. -/
def extend (f : Filter) (call : Call) : Filter :=
  match call.list with
  | .includeKeys => { f with includeKeys := f.includeKeys ++ call.keys }
  | .excludeKeys => { f with excludeKeys := f.excludeKeys ++ call.keys }
  | .requiredKeys => { f with requiredKeys := f.requiredKeys ++ call.keys }

end Filter

variable (bs58 : String → Option Nat)

/-- The operation called. -/
def Call.apply (call : Call) (f : Filter) : Except FilterError Filter :=
  match call.list with
  | .includeKeys => f.withInclude bs58 call.keys
  | .excludeKeys => f.withExclude bs58 call.keys
  | .requiredKeys => f.withRequired bs58 call.keys

/-- A chain of calls, given up at the first that fails. -/
def build (start : Filter) (calls : List Call) : Except FilterError Filter :=
  calls.foldlM (fun f call => call.apply bs58 f) start

/-- The number of keys passed in all the calls. -/
def totalKeys (calls : List Call) : Nat := (calls.flatMap (fun call => call.keys)).length

/-- The first key that is not the base58 text of 32 bytes. -/
def firstBad (keys : List String) : Option String :=
  keys.find? (fun key => decide (bs58 key ≠ some 32))

/-- A filter that the builder operations can make. -/
def Built (f : Filter) : Prop :=
  ∃ start calls, (start = Filter.new ∨ start = Filter.all) ∧ build bs58 start calls = .ok f

/-- A map made of such filters, and the names they were given. -/
inductive Collected : Filters → List String → Prop where
  | new : Collected .new []
  | add (fs : Filters) (names : List String) (name : String) (f : Filter) (h : Collected fs names)
      (hf : Built bs58 f) : Collected (fs.add name f) (names ++ [name])
  | fromIter (pairs : List (String × Filter)) (h : ∀ p ∈ pairs, Built bs58 p.2) :
      Collected (Filters.fromIter pairs) (pairs.map Prod.fst)

/-- What holds of every chain of builder calls and of every map of filters
    made by one. -/
structure BuilderInvariant : Prop where
  succeeds : ∀ start calls, start = Filter.new ∨ start = Filter.all →
    ((∃ f, build bs58 start calls = .ok f) ↔
      (∀ call ∈ calls, ∀ key ∈ call.keys, bs58 key = some 32) ∧
        ∀ n, totalKeys (calls.take n) ≤ maxKeysPerFilter)
  lists : ∀ start calls f, start = Filter.new ∨ start = Filter.all →
    build bs58 start calls = .ok f → ∀ l, f.keysOf l
      = (calls.filter (fun call => call.list = l)).flatMap (fun call => call.keys)
  fails : ∀ start calls e, start = Filter.new ∨ start = Filter.all →
    build bs58 start calls = .error e → ∃ before call later f, calls = before ++ call :: later ∧
      build bs58 start before = .ok f ∧ call.apply bs58 f = .error e ∧
        e = match firstBad bs58 call.keys with
          | some key => .invalidKey key
          | none => .tooManyKeys "" (totalKeys (before ++ [call]))
  validates : ∀ fs names, Collected bs58 fs names →
    (fs.validate = .ok () ↔ 1 ≤ names.dedup.length ∧ names.dedup.length ≤ 16)
  fewKeys : ∀ fs names, Collected bs58 fs names →
    ∀ name count, fs.validate ≠ .error (.tooManyKeys name count)

/-! ### One call -/

theorem firstBad_cons (key : String) (keys : List String) : firstBad bs58 (key :: keys)
    = if bs58 key = some 32 then firstBad bs58 keys else some key := by
  by_cases h : bs58 key = some 32
  · rw [if_pos h, firstBad, List.find?_cons_of_neg (by simp only [h, ne_eq, not_true_eq_false,
      decide_false, Bool.false_eq_true, not_false_eq_true])]
    rfl
  · rw [if_neg h, firstBad, List.find?_cons_of_pos (by simp only [h, ne_eq, not_false_eq_true,
      decide_true])]

theorem firstBad_eq_none_iff (keys : List String) :
    firstBad bs58 keys = none ↔ ∀ key ∈ keys, bs58 key = some 32 := by
  simp only [firstBad, List.find?_eq_none, decide_eq_true_eq, not_not]

/-- Validation returns the keys, or stops at the first bad one. -/
theorem validateKeys_eq (keys : List String) : validateKeys bs58 keys
    = match firstBad bs58 keys with
      | some key => .error (.invalidKey key)
      | none => .ok keys := by
  induction keys with
  | nil => rfl
  | cons key keys ih =>
      rw [validateKeys, firstBad_cons, ih]
      by_cases h : bs58 key = some 32
      · rw [if_pos h, if_pos h]
        cases firstBad bs58 keys <;> rfl
      · rw [if_neg h, if_neg h]

@[simp]
theorem keyCount_extend (f : Filter) (call : Call) :
    (f.extend call).keyCount = f.keyCount + call.keys.length := by
  rcases call with ⟨l, keys⟩
  cases l <;>
  · simp only [Filter.extend, Filter.keyCount, List.length_append]
    omega

theorem checkLen_bind (f : Filter) : (f.checkLen.bind fun _ => .ok f)
    = if f.keyCount > maxKeysPerFilter then .error (.tooManyKeys "" f.keyCount) else .ok f := by
  unfold Filter.checkLen
  split <;> rfl

/-- What one call does, whichever list it is for. -/
theorem Call.apply_eq (call : Call) (f : Filter) : call.apply bs58 f
    = match firstBad bs58 call.keys with
      | some key => .error (.invalidKey key)
      | none =>
        if (f.extend call).keyCount > maxKeysPerFilter
        then .error (.tooManyKeys "" (f.extend call).keyCount)
        else .ok (f.extend call) := by
  rcases call with ⟨l, keys⟩
  cases l <;>
  · simp only [Call.apply, Filter.withInclude, Filter.withExclude, Filter.withRequired,
      validateKeys_eq]
    cases firstBad bs58 keys with
    | some key => rfl
    | none => exact checkLen_bind _

/-! ### A chain of calls -/

theorem totalKeys_append (calls calls' : List Call) :
    totalKeys (calls ++ calls') = totalKeys calls + totalKeys calls' := by
  rw [totalKeys, List.flatMap_append, List.length_append]
  rfl

theorem totalKeys_singleton (call : Call) : totalKeys [call] = call.keys.length := by
  rw [totalKeys, List.flatMap_singleton]

theorem build_append_singleton (start : Filter) (calls : List Call) (call : Call) :
    build bs58 start (calls ++ [call]) = (build bs58 start calls).bind (call.apply bs58) := by
  rw [build, List.foldlM_append]
  cases h : List.foldlM (fun f call => call.apply bs58 f) start calls with
  | error e =>
      rw [build, h]
      rfl
  | ok f =>
      rw [build, h]
      simp only [bind, Except.bind, List.foldlM_cons, List.foldlM_nil]
      cases call.apply bs58 f <;> rfl

theorem keyCount_foldl (calls : List Call) :
    (calls.foldl Filter.extend Filter.new).keyCount = totalKeys calls := by
  induction calls using List.reverseRecOn with
  | nil => rfl
  | append_singleton calls call ih =>
      rw [List.foldl_append, List.foldl_cons, List.foldl_nil, keyCount_extend, ih,
        totalKeys_append, totalKeys_singleton]

theorem keysOf_extend (f : Filter) (call : Call) (l : KeyList) : (f.extend call).keysOf l
    = f.keysOf l ++ if call.list = l then call.keys else [] := by
  rcases call with ⟨l', keys⟩
  cases l' <;> cases l <;>
    simp only [Filter.extend, Filter.keysOf, reduceCtorEq, if_true, if_false, List.append_nil]

theorem keysOf_foldl (calls : List Call) (l : KeyList) :
    (calls.foldl Filter.extend Filter.new).keysOf l
      = (calls.filter (fun call => call.list = l)).flatMap (fun call => call.keys) := by
  induction calls using List.reverseRecOn with
  | nil => cases l <;> rfl
  | append_singleton calls call ih =>
      rw [List.foldl_append, List.foldl_cons, List.foldl_nil, keysOf_extend, ih,
        List.filter_append, List.flatMap_append, List.filter_singleton]
      by_cases h : call.list = l
      · simp only [h, if_true, decide_true, cond_true, List.flatMap_singleton]
      · simp only [h, if_false, decide_false, cond_false, List.flatMap_nil]

/-- A chain succeeds exactly when its keys are good and not too many, and then
    every call has extended its list. -/
theorem build_ok_iff (calls : List Call) (f : Filter) : build bs58 Filter.new calls = .ok f ↔
    (∀ call ∈ calls, firstBad bs58 call.keys = none) ∧ totalKeys calls ≤ maxKeysPerFilter ∧
      f = calls.foldl Filter.extend Filter.new := by
  induction calls using List.reverseRecOn generalizing f with
  | nil =>
      refine ⟨fun h => ?_, fun h => ?_⟩
      · cases h
        exact ⟨fun call hcall => absurd hcall List.not_mem_nil, Nat.zero_le _, rfl⟩
      · rw [h.2.2]
        rfl
  | append_singleton calls call ih =>
      have hnext : ((calls.foldl Filter.extend Filter.new).extend call).keyCount
          = totalKeys (calls ++ [call]) := by
        rw [keyCount_extend, keyCount_foldl, totalKeys_append, totalKeys_singleton]
      rw [build_append_singleton, List.forall_mem_append, List.forall_mem_singleton,
        List.foldl_append, List.foldl_cons, List.foldl_nil]
      constructor
      · intro h
        rcases hb : build bs58 Filter.new calls with e | g
        · rw [hb] at h
          cases h
        rw [hb] at h
        rcases (ih g).mp hb with ⟨hgood, _, rfl⟩
        change call.apply bs58 _ = _ at h
        rw [Call.apply_eq] at h
        rcases hbad : firstBad bs58 call.keys with _ | key
        · rw [hbad, hnext] at h
          simp only at h
          split at h
          · cases h
          · cases h
            exact ⟨⟨hgood, rfl⟩, by omega, rfl⟩
        · rw [hbad] at h
          cases h
      · rintro ⟨⟨hgood, hbad⟩, hfew, rfl⟩
        -- Fewer keys before the last call than with it.
        have hbefore : totalKeys calls ≤ maxKeysPerFilter := by
          rw [totalKeys_append] at hfew
          omega
        rw [(ih _).mpr ⟨hgood, hbefore, rfl⟩]
        change call.apply bs58 _ = _
        rw [Call.apply_eq, hbad, hnext]
        exact if_neg (by omega)

/-- A chain that fails does so at a first call, for one of two reasons. -/
theorem build_error (calls : List Call) (e : FilterError)
    (h : build bs58 Filter.new calls = .error e) :
    ∃ before call later f, calls = before ++ call :: later ∧
      build bs58 Filter.new before = .ok f ∧ call.apply bs58 f = .error e ∧
        e = match firstBad bs58 call.keys with
          | some key => .invalidKey key
          | none => .tooManyKeys "" (totalKeys (before ++ [call])) := by
  induction calls using List.reverseRecOn with
  | nil => cases h
  | append_singleton calls call ih =>
      rw [build_append_singleton] at h
      rcases hb : build bs58 Filter.new calls with e' | f
      · rw [hb] at h
        cases h
        rcases ih hb with ⟨before, call', later, f, rfl, hrest⟩
        exact ⟨before, call', later ++ [call], f, by rw [List.append_assoc, List.cons_append],
          hrest⟩
      · rw [hb] at h
        change call.apply bs58 f = _ at h
        refine ⟨calls, call, [], f, rfl, hb, h, ?_⟩
        rcases (build_ok_iff bs58 calls f).mp hb with ⟨_, _, rfl⟩
        rw [Call.apply_eq, keyCount_extend, keyCount_foldl] at h
        rw [totalKeys_append, totalKeys_singleton]
        rcases hbad : firstBad bs58 call.keys with _ | key
        · rw [hbad] at h
          simp only at h
          split at h
          · cases h
            rfl
          · cases h
        · rw [hbad] at h
          cases h
          rfl

/-- A filter that was built is within the limit. -/
theorem built_keyCount (f : Filter) (h : Built bs58 f) : f.keyCount ≤ maxKeysPerFilter := by
  rcases h with ⟨start, calls, rfl | rfl, hb⟩ <;>
  · rcases (build_ok_iff bs58 calls f).mp hb with ⟨_, hfew, rfl⟩
    rw [keyCount_foldl]
    exact hfew

/-! ### A map of filters -/

/-- What a map has to do with the names it was given: it holds them, and
    filters within the limit. -/
structure NamedBy (fs : Filters) (names : List String) : Prop where
  names : ∀ x : String, x ∈ fs.map ↔ x ∈ names
  filters : ∀ (x : String) (f : Filter), fs.map[x]? = some f → f.keyCount ≤ maxKeysPerFilter

theorem namedBy_new : NamedBy .new [] := by
  refine ⟨fun x => ?_, fun x f h => ?_⟩
  · exact iff_of_false Std.TreeMap.not_mem_emptyc List.not_mem_nil
  · rw [Filters.new, Std.TreeMap.getElem?_emptyc] at h
    cases h

theorem namedBy_add (fs : Filters) (names : List String) (name : String) (f : Filter)
    (h : NamedBy fs names) (hf : f.keyCount ≤ maxKeysPerFilter) :
    NamedBy (fs.add name f) (names ++ [name]) := by
  refine ⟨fun x => ?_, fun x g hg => ?_⟩
  · rw [Filters.add, Std.TreeMap.mem_insert, Std.LawfulEqCmp.compare_eq_iff_eq, h.names,
      List.mem_append, List.mem_singleton, or_comm, eq_comm]
  · rw [Filters.add, Std.TreeMap.getElem?_insert] at hg
    split at hg
    · cases hg
      exact hf
    · exact h.filters x g hg

theorem namedBy_fromIter (pairs : List (String × Filter))
    (h : ∀ p ∈ pairs, p.2.keyCount ≤ maxKeysPerFilter) :
    NamedBy (Filters.fromIter pairs) (pairs.map Prod.fst) := by
  induction pairs using List.reverseRecOn with
  | nil => exact namedBy_new
  | append_singleton pairs p ih =>
      rw [List.forall_mem_append, List.forall_mem_singleton] at h
      rw [Filters.fromIter, List.foldl_append, List.foldl_cons, List.foldl_nil, List.map_append,
        List.map_singleton]
      exact namedBy_add _ _ p.1 p.2 (ih h.1) h.2

theorem namedBy_collected (fs : Filters) (names : List String) (h : Collected bs58 fs names) :
    NamedBy fs names := by
  induction h with
  | new => exact namedBy_new
  | add fs names name f _ hf ih => exact namedBy_add fs names name f ih (built_keyCount bs58 f hf)
  | fromIter pairs h =>
      exact namedBy_fromIter pairs (fun p hp => built_keyCount bs58 p.2 (h p hp))

/-- The size of a map is the number of distinct names in it. -/
theorem size_namedBy (fs : Filters) (names : List String) (h : NamedBy fs names) :
    fs.map.size = names.dedup.length := by
  rw [← Std.TreeMap.length_keys]
  refine List.Perm.length_eq ?_
  rw [List.perm_ext_iff_of_nodup Std.TreeMap.nodup_keys (List.nodup_dedup names)]
  intro x
  rw [Std.TreeMap.mem_keys, h.names, List.mem_dedup]

/-- Validation looks at the number of names and finds nothing else wrong. -/
theorem validate_namedBy (fs : Filters) (names : List String) (h : NamedBy fs names) : fs.validate
    = if names.dedup.length = 0 then .error .empty
      else if names.dedup.length > maxNamedFilters then
        .error (.tooManyFilters names.dedup.length)
      else .ok () := by
  have hnone : fs.tooLong? = none := by
    rw [Filters.tooLong?, List.find?_eq_none]
    intro p hp
    have hfew := h.filters p.1 p.2 (Std.TreeMap.mem_toList_iff_getElem?_eq_some.mp hp)
    rw [decide_eq_true_eq]
    omega
  rw [Filters.validate, hnone, Std.TreeMap.isEmpty_eq_size_eq_zero, size_namedBy fs names h]
  simp only [beq_iff_eq]

/-! ### All of it -/

/-- The chain's keys are never too many exactly when they are not in the end. -/
theorem totalKeys_take_iff (calls : List Call) (limit : Nat) :
    (∀ n, totalKeys (calls.take n) ≤ limit) ↔ totalKeys calls ≤ limit := by
  constructor
  · intro h
    have hall := h calls.length
    rwa [List.take_length] at hall
  · intro h n
    rw [← List.take_append_drop n calls, totalKeys_append] at h
    omega

/-- Every chain of builder calls and every map of built filters is as it
    should be. -/
theorem builder_invariant : BuilderInvariant bs58 := by
  refine ⟨?_, ?_, ?_, ?_, ?_⟩
  · intro start calls hstart
    have hnew : start = Filter.new := hstart.elim id id
    rw [hnew, totalKeys_take_iff]
    simp only [build_ok_iff, firstBad_eq_none_iff]
    refine ⟨fun ⟨f, hgood, hfew, _⟩ => ⟨hgood, hfew⟩, fun ⟨hgood, hfew⟩ => ⟨_, hgood, hfew, rfl⟩⟩
  · intro start calls f hstart hb l
    have hnew : start = Filter.new := hstart.elim id id
    rw [hnew] at hb
    rw [((build_ok_iff bs58 calls f).mp hb).2.2]
    exact keysOf_foldl calls l
  · intro start calls e hstart hb
    have hnew : start = Filter.new := hstart.elim id id
    rw [hnew] at hb ⊢
    exact build_error bs58 calls e hb
  · intro fs names h
    rw [validate_namedBy fs names (namedBy_collected bs58 fs names h)]
    by_cases hzero : names.dedup.length = 0
    · rw [if_pos hzero]
      refine iff_of_false ?_ (by omega)
      nofun
    by_cases hmany : names.dedup.length > maxNamedFilters
    · rw [if_neg hzero, if_pos hmany]
      refine iff_of_false ?_ (fun hle => absurd hle.2 (Nat.not_le.mpr hmany))
      nofun
    · rw [if_neg hzero, if_neg hmany]
      exact iff_of_true rfl ⟨by omega, Nat.le_of_not_lt hmany⟩
  · intro fs names h name count
    rw [validate_namedBy fs names (namedBy_collected bs58 fs names h)]
    split
    · nofun
    · split <;> nofun

end ShredStream
