import ShredStream.Theory.Grpc.Delivery
import ShredStream.Theory.Message.CountedTransaction
import ShredStream.Theory.Message.Encode
import ShredStream.Theory.Udp.EndToEnd

/-!
# From the Signer to the Accessors

The whole way of what is in a transaction. A signer has a message and the
signatures over it, and serialises them in one of the two containers. A sender
cuts the container into datagrams, a network loses some of them, and a consumer
asks an update that it received for the signatures and for the message.

Neither end knows of the other: the framing carries bytes, and the accessors
find everything in the bytes. What a consumer reads out of the updates it gets
is what the signers put into the transactions that survived, in order, and
never a blend of two of them, an old one again, or a message that parses
differently.

Over gRPC a server takes the place of the sender. It publishes the container in
a response, alone or with its own copy of the signatures, and every container
published comes out.

## Main definitions

* `CompactTransaction`, `SignedTransaction`: What a signer has.
* `Contents`: What the accessors of an update return.

## Theorems

* `read_back`: An update that holds a container returns what was put into it.
* `updatesOf_plain`: The framing adds no signatures of its own.
* `Udp.udp_whole_path`: What a consumer of the UDP client reads.
* `lonePath_read`: A transaction that is read back.
* `read_back_provided`: The same with the server's copy of the signatures.
* `Grpc.grpc_whole_path`: What a user of the gRPC client reads.
* `publishedRun_read`: A transaction that is read back, after a reconnection.
-/

namespace ShredStream

open Codec StreamDecoder BoundedFifo

/-- A signed message in one of the layouts that are not version 1. -/
structure CompactTransaction where
  signatures : List Signature
  message : CompiledMessage
  signed : signatures ≠ []
  few_signatures : signatures.length ≤ 127
  well_formed : Message.WellFormed message

/-- The container of such a message. -/
def CompactTransaction.counted (t : CompactTransaction) : CountedTransaction where
  signatures := t.signatures
  message := Message.encode t.message
  few_signatures := t.few_signatures

/-- What a signer has. -/
inductive SignedTransaction where
  | compact (t : CompactTransaction)
  | v1 (t : V1Transaction)

/-- What the accessors of an update return. -/
structure Contents where
  slot : UInt64
  signature : Signature
  signatures : List Signature
  parse : Message.Result CompiledMessage

def TransactionUpdate.contents (u : TransactionUpdate) : Contents where
  slot := u.slot
  signature := u.signature
  signatures := u.signatures
  parse := u.parse

namespace SignedTransaction

/-- The bytes that are sent. -/
def wire : SignedTransaction → Bytes
  | .compact t => t.counted.wire
  | .v1 t => t.wire

def signatures : SignedTransaction → List Signature
  | .compact t => t.signatures
  | .v1 t => t.signatures

def message : SignedTransaction → CompiledMessage
  | .compact t => t.message
  | .v1 t => t.compiled

/-- What a receiver should read. -/
def contents (t : SignedTransaction) (slot : UInt64) : Contents where
  slot := slot
  signature := t.signatures.head?.getD Signature.zero
  signatures := t.signatures
  parse := .ok t.message

end SignedTransaction

/-- A serialised message is decoded again. -/
theorem Message.decodes_encoded (m : CompiledMessage) (h : Message.WellFormed m) :
    Message.decodeMessage (Message.encode m) = .ok m := by
  have hat := Cursor.at_zero (Message.encode m) []
  rw [List.append_nil] at hat
  rw [Message.decodeMessage, Message.decodeAt_compact _ _ m (Message.encode_form m h) hat]
  rfl

/-- An update that holds the container of a compact transaction. -/
theorem read_back_compact (t : CompactTransaction) (u : TransactionUpdate)
    (hbytes : u.bytes = t.counted.wire) (hprovided : u.providedSignatures = []) :
    u.contents = (SignedTransaction.compact t).contents u.slot := by
  have hu : u = t.counted.update u.slot [] u.filters u.createdAt u.receivedAt := by
    rw [CountedTransaction.update, ← hbytes, ← hprovided]
  rcases List.exists_cons_of_ne_nil t.signed with ⟨s, rest, hsigned⟩
  have hhead : t.signatures.head? = some s := by rw [hsigned, List.head?_cons]
  have hfirst : u.signature = s := by
    rw [hu]
    exact t.counted.signature_update u.slot [] u.filters u.createdAt u.receivedAt s hhead
  have hall : u.signatures = t.signatures := by
    simp only [TransactionUpdate.signatures, hprovided, ne_eq, not_true_eq_false, if_false, hbytes]
    exact t.counted.deriveSignatures_wire
  have hparse : u.parse = .ok t.message := by
    rw [hu, t.counted.parse_update]
    exact Message.decodes_encoded t.message t.well_formed
  rw [TransactionUpdate.contents, SignedTransaction.contents, SignedTransaction.signatures,
    SignedTransaction.message, hfirst, hall, hparse, hsigned, List.head?_cons, Option.getD_some]

/-- An update that holds the container of a version-1 transaction. -/
theorem read_back_v1 (t : V1Transaction) (u : TransactionUpdate) (hbytes : u.bytes = t.wire)
    (hprovided : u.providedSignatures = []) :
    u.contents = (SignedTransaction.v1 t).contents u.slot := by
  have hu : u = t.update u.slot u.filters u.createdAt u.receivedAt := by
    rw [V1Transaction.update, ← hbytes, ← hprovided]
  have hfirst : u.signature = t.signatures.head?.getD Signature.zero := by
    rw [hu]
    exact t.signature_wire u.slot u.filters u.createdAt u.receivedAt
  have hall : u.signatures = t.signatures := by
    simp only [TransactionUpdate.signatures, hprovided, ne_eq, not_true_eq_false, if_false, hbytes]
    exact t.deriveSignatures_wire
  have hparse : u.parse = .ok t.compiled := by
    rw [hu]
    exact t.parse_update u.slot u.filters u.createdAt u.receivedAt
  rw [TransactionUpdate.contents, SignedTransaction.contents, SignedTransaction.signatures,
    SignedTransaction.message, hfirst, hall, hparse]

/-- An update that holds a container, and no signatures of a server's, returns
    what was put into the container. -/
theorem read_back (t : SignedTransaction) (u : TransactionUpdate) (hbytes : u.bytes = t.wire)
    (hprovided : u.providedSignatures = []) : u.contents = t.contents u.slot := by
  cases t with
  | compact t => exact read_back_compact t u hbytes hprovided
  | v1 t => exact read_back_v1 t u hbytes hprovided

/-- The framing adds no signatures of its own. -/
theorem updatesOf_plain (arrivals : List Arrival) : ∀ d : StreamDecoder,
    ∀ u ∈ updatesOf (d.pushes arrivals), u.providedSignatures = [] := by
  induction arrivals with
  | nil =>
      intro d u hu
      exact absurd hu List.not_mem_nil
  | cons a arrivals ih =>
      intro d u hu
      rw [pushes, updatesOf_cons, updatesOf_singleton] at hu
      rcases List.mem_append.mp hu with hu | hu
      · rcases hres : (d.push a.now a.datagram).result with u' | _ | e <;> rw [hres] at hu
        · rw [List.mem_singleton.mp hu]
          have hp := push_pushes d a.now a.datagram
          generalize d.push a.now a.datagram = r at hp hres
          cases hp with
          | rejected | other | misfit | first | broken | more => cases hres
          | lone | last =>
              rw [((complete_result _ _ _ _).mp hres).2]
              rfl
        · exact absurd hu List.not_mem_nil
        · exact absurd hu List.not_mem_nil
      · exact ih _ u hu

namespace Udp

open UdpClient

/-- What the thread produces of a stream of signed transactions, as the
    accessors show it. -/
theorem contents_produced (sent : Sent) (hsmall : ∀ d ∈ sent.datagrams, d.length ≤ maxDatagram)
    (signed : Transmission → SignedTransaction)
    (hsigned : ∀ t ∈ sent.transmissions, t.tx.bytes = (signed t).wire)
    (network : List Action)
    (hnet : (fragments ((arrivalsOf network).map (fun a => a.datagram))).Sublist sent.datagrams) :
    (updatesOf (new.pushes (arrivalsOf (network.map Action.cut)))).map TransactionUpdate.contents
      = (sent.transmissions.filter (fun transmission =>
          transmission.Survives sent ((arrivalsOf network).map (fun a => a.datagram)))).map
            (fun transmission => (signed transmission).contents transmission.tx.slot) := by
  -- The accessors look at the slot and the bytes only.
  let plain (tx : Transaction) : TransactionUpdate := ⟨tx.slot, tx.bytes, [], [], none, 0⟩
  have hplain : ∀ u ∈ updatesOf (new.pushes (arrivalsOf (network.map Action.cut))),
      u.contents = (plain (transactionOf u)).contents := by
    intro u hu
    have hnone := updatesOf_plain _ _ u hu
    rcases u with ⟨slot, bytes, provided, filters, createdAt, receivedAt⟩
    simp only at hnone
    rw [hnone]
    rfl
  rw [List.map_congr_left hplain]
  have hmap := congrArg (List.map (fun tx => (plain tx).contents))
    (transactions_cut sent hsmall network hnet)
  rw [List.map_map, List.map_map] at hmap
  refine hmap.trans (List.map_congr_left (fun t ht => ?_))
  exact read_back (signed t) (plain t.tx) (hsigned t (List.mem_filter.mp ht).1) rfl

/-- What a consumer of the client reads out of the updates, in every run and
    for every loss of datagrams: the slots, the signatures and the messages of
    the transactions that survived are accounted for, in order, by the updates
    received, evicted, queued and in the thread's hand; what is received is
    read back as it was signed, and without evictions nothing is missing. -/
theorem udp_whole_path (sent : Sent) (hsmall : ∀ d ∈ sent.datagrams, d.length ≤ maxDatagram)
    (signed : Transmission → SignedTransaction)
    (hsigned : ∀ t ∈ sent.transmissions, t.tx.bytes = (signed t).wire)
    (queueCapacity : Nat) (network : List Action) (t : UdpClient) (os : List Output)
    (hnet : (fragments ((arrivalsOf network).map (fun a => a.datagram))).Sublist sent.datagrams)
    (h : udp.run (bind queueCapacity) (network.map Action.cut) = some (t, os)) :
    let survivors := (sent.transmissions.filter (fun transmission =>
      transmission.Survives sent ((arrivalsOf network).map (fun a => a.datagram)))).map
        (fun transmission => (signed transmission).contents transmission.tx.slot)
    Ledger survivors ((receivedOf os).map TransactionUpdate.contents)
      ((evictedOf os).map TransactionUpdate.contents)
      ((t.queue ++ t.thread.inHand).map TransactionUpdate.contents) ∧
    (evictedOf os = [] → survivors
      = (receivedOf os ++ t.queue ++ t.thread.inHand).map TransactionUpdate.contents) := by
  intro survivors
  have hproduced : (producedOf os).map TransactionUpdate.contents = survivors := by
    rw [(decoded_run queueCapacity _ t os h).1]
    exact contents_produced sent hsmall signed hsigned network hnet
  have hledger := ledger_map TransactionUpdate.contents _ _ _ _ (ledger_run queueCapacity _ t os h)
  rw [hproduced] at hledger
  refine ⟨hledger, fun hnone => ?_⟩
  rw [hnone] at hledger
  rw [ledger_lossless _ _ _ hledger, ← List.map_append, List.append_assoc]

/-- A transfer fits into one datagram. -/
def lonePath : Bytes :=
  frame msgTransaction 0 1 5 (⟨7, transferV1.wire⟩ : Transaction).wire

theorem lonePath_transaction : isTransaction lonePath = true := by
  rw [isTransaction, lonePath, (parseHeader_frame _ _ _ _ _).1]
  rfl

/-- The stream of that datagram. -/
def lonePathSent : Sent where
  datagrams := [lonePath]
  first := 5
  few := by decide
  stamped := by
    rintro (_ | i) d h
    · cases h
      exact ⟨_, (parseHeader_frame _ _ _ _ _).1, rfl⟩
    · cases h
  transmissions :=
    [{ tx := ⟨7, transferV1.wire⟩
       datagrams := [lonePath]
       some_fragments := Nat.le_refl 1
       few_fragments := by decide
       numbered := by
        rintro (_ | i) d h
        · cases h
          exact ⟨_, _, (parseHeader_frame _ _ _ _ _).1, rfl, rfl, rfl⟩
        · cases h
       payloads := (List.append_nil _).trans (parseHeader_frame _ _ _ _ _).2 }]
  grouped := List.filter_cons_of_pos lonePath_transaction

/-- It arrives and is taken out. -/
def lonePathRun : List Action :=
  [.thread, .recv (.datagram 3 lonePath), .thread, .call (.wait .nextUpdate), .consumer]

set_option maxRecDepth 4000 in
/-- What was signed is read. -/
theorem lonePath_read : ∃ t os, udp.run (bind 1) (lonePathRun.map Action.cut) = some (t, os) ∧
    [(SignedTransaction.v1 transferV1).contents 7]
      = (receivedOf os ++ t.queue ++ t.thread.inHand).map TransactionUpdate.contents := by
  have hrun := udp_whole_path lonePathSent (by decide) (fun _ => .v1 transferV1)
    (fun t ht => by rw [List.mem_singleton.mp ht]; rfl) 1 lonePathRun _ _ List.filter_sublist rfl
  exact ⟨_, _, rfl, hrun.2 rfl⟩

end Udp

/-- A list of signatures that are all whole is taken as it is. -/
theorem mapM_ofBytes_eq_some (ss : List Signature) :
    (ss.map (fun s => s.bytes)).mapM Signature.ofBytes? = some ss := by
  induction ss with
  | nil => rfl
  | cons s ss ih =>
      have hs : Signature.ofBytes? s.bytes = some s := by
        rw [Signature.ofBytes?, dif_pos s.size]
      rw [List.map_cons, List.mapM_cons, hs, ih]
      rfl

/-- An update that holds a container, and the signatures of it that a server
    has copied, returns what was put into the container. -/
theorem read_back_provided (t : SignedTransaction) (u : TransactionUpdate)
    (hbytes : u.bytes = t.wire)
    (hprovided : u.providedSignatures = [] ∨
      u.providedSignatures = t.signatures.map (fun s => s.bytes)) :
    u.contents = t.contents u.slot := by
  rcases hprovided with hnone | hcopy
  · exact read_back t u hbytes hnone
  -- Only `signatures` looks at the copy.
  have hplain := read_back t { u with providedSignatures := [] } hbytes rfl
  have hsignatures : u.signatures = t.signatures := by
    rcases hs : t.signatures with _ | ⟨s, ss⟩
    · have hnone : u.providedSignatures = [] := by rw [hcopy, hs, List.map_nil]
      have hread := congrArg Contents.signatures (read_back t u hbytes hnone)
      rw [← hs]
      exact hread
    · have hne : u.providedSignatures ≠ [] := by
        rw [hcopy, hs, List.map_cons]
        exact List.cons_ne_nil _ _
      rw [TransactionUpdate.signatures, if_pos hne, hcopy, mapM_ofBytes_eq_some, hs]
  calc u.contents
      = { TransactionUpdate.contents { u with providedSignatures := [] } with
          signatures := u.signatures } := rfl
    _ = t.contents u.slot := by
        rw [hplain, hsignatures]
        rfl

namespace Grpc

open Proto

/-- What a user of the client reads out of the updates, in every run, over all
    connections: the slots, the signatures and the messages of all containers
    that the server published on them, in order, whether or not the server
    copied the signatures. -/
theorem grpc_whole_path (D : Deps) (s t : Config) (inputs : List Input) (os : List Output)
    (hs : Connected D s) (signed : SubscribeBinaryTransactionsResponse → SignedTransaction)
    (hsigned : ∀ r ∈ takenOf inputs, ∀ u, image r.1 r.2 = some u →
      u.bytes = (signed r.1).wire ∧ (u.providedSignatures = [] ∨
        u.providedSignatures = (signed r.1).signatures.map (fun s => s.bytes)))
    (h : (grpc D).run s inputs = some (t, os)) :
    (deliveredOf os).map TransactionUpdate.contents = (takenOf inputs).filterMap (fun r =>
      (image r.1 r.2).map (fun u => (signed r.1).contents u.slot)) := by
  have htally := run_moves D (fun inputs u os => Tally inputs u.client os)
    (fun inputs u os i r hu hm => tally_step D inputs u i r os hu hm)
    s t inputs os (tally_connected D s hs) h
  rw [htally.delivered, List.map_filterMap]
  refine List.filterMap_congr (fun r hr => ?_)
  cases hi : image r.1 r.2 with
  | none => rfl
  | some u =>
      rcases hsigned r hr u hi with ⟨hbytes, hprovided⟩
      rw [Option.map_some, Option.map_some, read_back_provided (signed r.1) u hbytes hprovided]

/-- A transfer, published with a copy of its signatures. -/
def publishedTransfer : SubscribeBinaryTransactionsResponse where
  filters := ["all"]
  transaction := some
    { transaction := some
        { signatures := transferV1.signatures.map (fun s => s.bytes)
          binaryTransaction := transferV1.wire }
      slot := 7 }
  createdAt := none

/-- It is published after the connection was lost once. -/
def publishedRun : List Input :=
  [.nextUpdate 0, .message (.ok none) ⟨0, 0⟩ 0, .slept, .channel (.ok ()) 0,
    .response (.ok 1) ⟨0, 0⟩, .message (.ok (some publishedTransfer)) ⟨0, 0⟩ 3]

set_option maxRecDepth 4000 in
/-- What was signed is read. -/
theorem publishedRun_read : ∃ t os, (grpc openDeps).run plainStart publishedRun = some (t, os) ∧
    (deliveredOf os).map TransactionUpdate.contents
      = [(SignedTransaction.v1 transferV1).contents 7] := by
  have hrun : ∃ t os, (grpc openDeps).run plainStart publishedRun = some (t, os) := ⟨_, _, rfl⟩
  rcases hrun with ⟨t, os, hrun⟩
  refine ⟨t, os, hrun, ?_⟩
  rw [grpc_whole_path openDeps plainStart t publishedRun os plainStart_connected
    (fun _ => .v1 transferV1) (fun r hr u hu => ?_) hrun]
  · rfl
  · rw [List.mem_singleton.mp hr] at hu
    cases hu
    exact ⟨rfl, Or.inr rfl⟩

end Grpc

end ShredStream
