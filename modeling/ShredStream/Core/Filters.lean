import Std.Data.TreeMap
import Std.Data.HashMap

/-!
# Filters

Named filters and the map of them a subscription carries, with the limits the
client enforces before anything is sent, and the image of the map in the
request message.

A filter holds three key lists, grown by its builder operations. Keys are
validated as they are added: base58 is a third-party codec, so what decoding a
key gives is a parameter, namely the number of bytes written to a 32-byte
buffer, or nothing when decoding fails.

The map is a `BTreeMap`, so iteration is in the order of the names; the
request message holds a hash map.

## Main definitions

* `Filter`: Three key lists, combined by the server.
* `validateKeys`: Every key has to be a 32-byte public key.
* `Filters`: The named filters of a subscription.
* `Filters.validate`: The limits on a map.
* `filtersToProto`: The request message of a map.
-/

namespace ShredStream

def maxNamedFilters : Nat := 16
def maxKeysPerFilter : Nat := 1000

inductive FilterError where
  | invalidKey (key : String)
  | tooManyKeys (name : String) (count : Nat)
  | tooManyFilters (count : Nat)
  | empty
  deriving DecidableEq, Repr

/-- The text of the error. `debug` is the quoting that `{:?}` applies to a
    string. -/
def FilterError.toText (debug : String → String) : FilterError → String
  | .invalidKey key => "filter key " ++ debug key ++ " is not a base58-encoded 32-byte public key"
  | .tooManyKeys name count =>
    "filter " ++ debug name ++ " has " ++ toString count ++ " keys (max 1000 per filter)"
  | .tooManyFilters count => toString count ++ " named filters (max 16)"
  | .empty =>
    "empty filter map delivers nothing — use Filter::all() to receive everything"

structure Filter where
  includeKeys : List String := []
  excludeKeys : List String := []
  requiredKeys : List String := []
  deriving DecidableEq, Repr

/-- The keys in order, or the first one that is not a 32-byte key. -/
def validateKeys (bs58 : String → Option Nat) : List String → Except FilterError (List String)
  | [] => .ok []
  | key :: keys =>
    if bs58 key = some 32 then (validateKeys bs58 keys).map (fun out => key :: out)
    else .error (.invalidKey key)

namespace Filter

def all : Filter := {}
def new : Filter := {}

def keyCount (f : Filter) : Nat :=
  f.includeKeys.length + f.excludeKeys.length + f.requiredKeys.length

def checkLen (f : Filter) : Except FilterError Unit :=
  if f.keyCount > maxKeysPerFilter then .error (.tooManyKeys "" f.keyCount) else .ok ()

def withInclude (bs58 : String → Option Nat) (f : Filter) (keys : List String) :
    Except FilterError Filter := do
  let keys ← validateKeys bs58 keys
  let f := { f with includeKeys := f.includeKeys ++ keys }
  f.checkLen
  return f

def withExclude (bs58 : String → Option Nat) (f : Filter) (keys : List String) :
    Except FilterError Filter := do
  let keys ← validateKeys bs58 keys
  let f := { f with excludeKeys := f.excludeKeys ++ keys }
  f.checkLen
  return f

def withRequired (bs58 : String → Option Nat) (f : Filter) (keys : List String) :
    Except FilterError Filter := do
  let keys ← validateKeys bs58 keys
  let f := { f with requiredKeys := f.requiredKeys ++ keys }
  f.checkLen
  return f

end Filter

structure Filters where
  map : Std.TreeMap String Filter := ∅

namespace Filters

def new : Filters := {}

def add (fs : Filters) (name : String) (filter : Filter) : Filters :=
  ⟨fs.map.insert name filter⟩

/-- Collecting pairs into a map: a later pair replaces an earlier one of the
    same name. -/
def fromIter (pairs : List (String × Filter)) : Filters :=
  pairs.foldl (fun fs p => fs.add p.1 p.2) new

def len (fs : Filters) : Nat := fs.map.size

def isEmpty (fs : Filters) : Bool := fs.map.isEmpty

/-- The first filter in name order that holds too many keys. -/
def tooLong? (fs : Filters) : Option (String × Filter) :=
  fs.map.toList.find? (fun p => p.2.keyCount > maxKeysPerFilter)

def validate (fs : Filters) : Except FilterError Unit :=
  if fs.map.isEmpty then .error .empty
  else if fs.map.size > maxNamedFilters then .error (.tooManyFilters fs.map.size)
  else match fs.tooLong? with
    | some (name, f) => .error (.tooManyKeys name f.keyCount)
    | none => .ok ()

end Filters

namespace Proto

structure SubscribeRequestFilterBinaryTransactions where
  accountInclude : List String
  accountExclude : List String
  accountRequired : List String
  deriving DecidableEq, Repr

structure SubscribeBinaryTransactionsRequest where
  transactions : Std.HashMap String SubscribeRequestFilterBinaryTransactions

end Proto

/-- The request entry of one filter. -/
def filterToProto (f : Filter) : Proto.SubscribeRequestFilterBinaryTransactions where
  accountInclude := f.includeKeys
  accountExclude := f.excludeKeys
  accountRequired := f.requiredKeys

def filtersToProto (filters : Filters) : Proto.SubscribeBinaryTransactionsRequest where
  transactions := Std.HashMap.ofList
    (filters.map.toList.map (fun p => (p.1, filterToProto p.2)))

/-- The request holds the same names, each with its three lists in order. -/
theorem filtersToProto_get (filters : Filters) (name : String) :
    (filtersToProto filters).transactions[name]? = (filters.map[name]?).map filterToProto := by
  have hdistinct : (filters.map.toList.map (fun p => (p.1, filterToProto p.2))).Pairwise
      (fun a b => (a.1 == b.1) = false) := by
    rw [List.pairwise_map]
    refine filters.map.distinct_keys_toList.imp ?_
    intro a b hne
    rw [beq_eq_false_iff_ne]
    intro heq
    exact hne (Std.LawfulEqCmp.compare_eq_iff_eq.mpr heq)
  cases hget : filters.map[name]? with
  | some f =>
      have hmem : (name, filterToProto f)
          ∈ filters.map.toList.map (fun p => (p.1, filterToProto p.2)) :=
        List.mem_map.mpr ⟨(name, f), Std.TreeMap.mem_toList_iff_getElem?_eq_some.mpr hget, rfl⟩
      exact Std.HashMap.getElem?_ofList_of_mem (beq_self_eq_true name) hdistinct hmem
  | none =>
      refine Std.HashMap.getElem?_ofList_of_contains_eq_false ?_
      rw [List.map_map, Bool.eq_false_iff]
      intro hcontains
      rcases List.mem_map.mp (List.contains_iff_mem.mp hcontains) with ⟨p, hp, hname⟩
      have hp' : filters.map[p.1]? = some p.2 := Std.TreeMap.mem_toList_iff_getElem?_eq_some.mp hp
      simp only [Function.comp_apply] at hname
      rw [hname, hget] at hp'
      cases hp'

end ShredStream
