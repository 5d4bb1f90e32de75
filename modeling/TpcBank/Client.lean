import TpcBank.Network

/-! The client of `client.cc`, which coordinates the cross-shard transactions, and the whole
system: the client with the servers and the calls between them. -/
namespace TpcBank
open Decimal Transition

/-- What the client counts for a cross-shard transaction. -/
structure TpcPrepareRes where
  txn : Transaction := ⟨0, 0, 0⟩
  successes : ℕ := 0
  failures : ℕ := 0
  deriving DecidableEq

structure System where
  network : Network
  processing : ℤ → Option TpcPrepareRes

/-- One thing that happens in the system. The client issues the transactions of a set one
after the other; the tid is the time it reads from its clock. -/
inductive Action
  | processTransaction (t : Transaction) (leaders : List Text) (tid : ℤ)
  | updateDisconnected (servers : List Text)
  | printBalance (clientId : ℤ)
  | printDatastore
  | deliver (i : ℕ) (fs : FileSystem)
  | complete (i : ℕ) (status : Status) (fs : FileSystem)

/-- Every file operation of the action succeeds. -/
def Action.working : Action → Prop
  | .deliver _ fs | .complete _ _ fs => fs.working
  | _ => True

/-- A request arrives, with every file operation succeeding. -/
def Action.arrives (i : ℕ) : Action := .deliver i .allOpen

/-- A response comes back, with every file operation succeeding. -/
def Action.returns (i : ℕ) : Action := .complete i .ok .allOpen

/-- The reply object of a call of the client, which a failed call leaves as it was built. -/
def Response.toTransfer : Response → TransferRes
  | .transfer r => r
  | _ => {}

/-- The tid of a prepare request. -/
def Request.preparedTid : Request → Option ℤ
  | .tpcPrepare r => some r.tid
  | _ => none

namespace System

def init (c : Constants) (disk : ℤ → Disk) : System :=
  ⟨Network.init c disk, fun _ => none⟩

/-- `leaders[cluster_id - 1]`, when the list has it. -/
def leaderOf (leaders : List Text) (clusterId : ℤ) : Option Text :=
  if 1 ≤ clusterId then leaders[(clusterId - 1).toNat]? else none

/-- The client starts some calls. -/
def send (n : Network) (calls : List OutCall) : Network :=
  { n with calls := n.calls ++ calls.map fun o => ⟨none, o.dst, o.request, none, false⟩ }

/-- One turn of the loop of `processTransactions`. There is no next state where the code
reads past the end of the leaders or names no server. -/
def processTransaction (c : Constants) (σ : System) (t : Transaction) (leaders : List Text)
    (tid : ℤ) : Option System := do
  let senderCluster := c.getClusterIdFromClientId t.sender
  let receiverCluster := c.getClusterIdFromClientId t.receiver
  let senderLeader ← c.serverIds.lookup (← leaderOf leaders senderCluster)
  let receiverLeader ← c.serverIds.lookup (← leaderOf leaders receiverCluster)
  let request : TransferReq := ⟨t, tid⟩
  if senderCluster = receiverCluster then
    some { σ with network := send σ.network [⟨senderLeader, .transfer request⟩] }
  else
    some {
      network := send σ.network
        [⟨senderLeader, .tpcPrepare request⟩, ⟨receiverLeader, .tpcPrepare request⟩]
      processing := Function.update σ.processing tid (some { txn := t }) }

/-- `tpcCommit` and `tpcAbort`: the decision goes to every server of the two clusters. -/
def decisionCalls (c : Constants) (isCommit : Bool) (tid : ℤ) (txn : Transaction) :
    List OutCall :=
  (c.serverIds.filter fun s =>
    c.getClusterIdFromServerId s.2 = c.getClusterIdFromClientId txn.sender ∨
      c.getClusterIdFromServerId s.2 = c.getClusterIdFromClientId txn.receiver).map fun s =>
    ⟨s.2, if isCommit then .tpcCommit ⟨tid⟩ else .tpcAbort ⟨tid⟩⟩

/-- `processing[tid]` after a completed prepare call is counted. -/
def countReply (processing : ℤ → Option TpcPrepareRes) (status : Status) (reply : TransferRes) :
    TpcPrepareRes :=
  let p := (processing reply.tid).getD {}
  if status ≠ .ok ∨ reply.ack = false then { p with failures := p.failures + 1 }
  else { p with successes := p.successes + 1 }

/-- The body of `consumeReplies` for a completed prepare call. -/
def consumeReply (c : Constants) (processing : ℤ → Option TpcPrepareRes) (status : Status)
    (reply : TransferRes) : (ℤ → Option TpcPrepareRes) × List OutCall :=
  let p := countReply processing status reply
  if p.successes = 2 ∨ (0 < p.failures ∧ p.successes + p.failures = 2) then
    (Function.update processing reply.tid none,
      decisionCalls c (p.successes = 2) reply.tid p.txn)
  else (Function.update processing reply.tid (some p), [])

/-- A call ends; if it is a prepare call of the client, its reply is consumed. -/
def complete (c : Constants) (σ : System) (i : ℕ) (status : Status) (fs : FileSystem) :
    Option System := do
  let call ← σ.network.calls[i]?
  let n ← σ.network.step c (.complete i status fs)
  match call.src, call.request with
  | none, .tpcPrepare _ =>
      let reply := if status = .ok then (call.response.getD .empty).toTransfer else {}
      let (processing, calls) := consumeReply c σ.processing status reply
      some ⟨send n calls, processing⟩
  | _, _ => some { σ with network := n }

def step (c : Constants) (σ : System) : Action → Option System
  | .processTransaction t leaders tid => σ.processTransaction c t leaders tid
  | .updateDisconnected servers =>
      let calls := c.serverIds.map fun s => ⟨s.2, .disconnect ⟨servers⟩⟩
      some { σ with network := send σ.network calls }
  | .printBalance clientId =>
      let servers := c.serverIds.filter fun s =>
        c.getClusterIdFromServerId s.2 = c.getClusterIdFromClientId clientId
      some { σ with network := send σ.network (servers.map fun s => ⟨s.2, .balance ⟨clientId⟩⟩) }
  | .printDatastore =>
      some { σ with network := send σ.network (c.serverIds.map fun s => ⟨s.2, .logs⟩) }
  | .deliver i fs => do
      let n ← σ.network.step c (.deliver i fs)
      some { σ with network := n }
  | .complete i status fs => σ.complete c i status fs

/-- All runs of the system. -/
abbrev Reaches (c : Constants) (P : System → Action → Prop) (disk : ℤ → Disk) :
    List Action → System → Prop :=
  Runs (step c) P (init c disk)

end System
end TpcBank
