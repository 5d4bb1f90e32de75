import TpcBank.Wal

/-! The server of `server.cc`: its state and one function for each handler. A handler
returns the new state, the response it finishes the call with, and the calls it sends. -/
namespace TpcBank
open Decimal

/-- The map `disconnected` and the unused commit counters of the class are left out. -/
structure Server where
  serverId : ℤ
  clusterId : ℤ
  stubs : List ℤ
  iAmDisconnected : Bool
  balances : ℤ → ℤ
  locks : Finset ℤ
  db : Text → Option Text
  wal : WAL
  log : List WALEntry
  isPaxosRunning : Bool
  paxosTid : ℤ
  ballotNum : ℤ
  promised : Bool
  promisedNum : Ballot
  accepted : Bool
  acceptNum : Ballot
  acceptVal : TransferReq
  lastInserted : ℤ
  lastInsertedBallot : Ballot
  inSync : Bool
  prepareSuccesses : ℕ
  prepareFailures : ℕ
  acceptSuccesses : ℕ
  acceptFailures : ℕ
  awaitPrepareDecision : Bool
  awaitAcceptDecision : Bool

/-- An RPC that a server starts towards a peer. -/
structure OutCall where
  dst : ℤ
  request : Request
  deriving DecidableEq

/-- What handling a call does. No response means that the call is to be retried. -/
structure Handled where
  server : Server
  response : Option Response
  sent : List OutCall

/-- What earlier runs left behind: the text of the WAL file and the key-value store. -/
structure Disk where
  walFile : Text
  db : Text → Option Text

def Disk.empty : Disk := ⟨[], fun _ => none⟩

namespace Server

/-- `ServerImpl::MAJORITY`. -/
def majority : ℕ := 2

/-- The constructor, then the stubs and the initial balances of `run`. -/
def init (c : Constants) (id : ℤ) (disk : Disk) : Server where
  serverId := id
  clusterId := c.getClusterIdFromServerId id
  -- a map by id, so in the order of the ids
  stubs := (c.serversById.map Prod.snd).filter fun p =>
    p ≠ id ∧ c.getClusterIdFromServerId p = c.getClusterIdFromServerId id
  iAmDisconnected := false
  balances := fun i =>
    if 1 ≤ i ∧ i ≤ totalClients ∧ c.isClientInCluster i (c.getClusterIdFromServerId id) then 10
    else 0
  locks := ∅
  db := fun key =>
    if clientIds.any fun i =>
        c.isClientInCluster i (c.getClusterIdFromServerId id) && decide (key = decimal i) then
      some "10".toList
    else disk.db key
  wal := ⟨disk.walFile, fun _ => none⟩
  log := []
  isPaxosRunning := false
  paxosTid := -1
  ballotNum := 0
  promised := false
  promisedNum := {}
  accepted := false
  acceptNum := {}
  acceptVal := {}
  lastInserted := -1
  lastInsertedBallot := {}
  inSync := false
  prepareSuccesses := 0
  prepareFailures := 0
  acceptSuccesses := 0
  acceptFailures := 0
  awaitPrepareDecision := false
  awaitAcceptDecision := false

def isClientInCluster (c : Constants) (s : Server) (clientId : ℤ) : Bool :=
  c.getClusterIdFromClientId clientId = s.clusterId

def updateBalance (s : Server) (clientId balance : ℤ) : Server :=
  { s with db := Function.update s.db (decimal clientId) (some (decimal balance)) }

/-- `balances[client] += amount`. -/
def addBalance (s : Server) (clientId amount : ℤ) : Server :=
  { s with balances := Function.update s.balances clientId (s.balances clientId + amount) }

/-- `balances[client] += amount; updateBalance(client, balances[client])`. -/
def applyBalance (s : Server) (clientId amount : ℤ) : Server :=
  (s.addBalance clientId amount).updateBalance clientId (s.balances clientId + amount)

def lock (s : Server) (clientId : ℤ) : Server :=
  { s with locks := insert clientId s.locks }

def unlock (s : Server) (clientId : ℤ) : Server :=
  { s with locks := s.locks.erase clientId }

/-- Append an entry that `last_inserted` is moved to. -/
def insertLog (s : Server) (wal : WAL) (entry : WALEntry) (ballot : Ballot) : Server :=
  { s with
    wal
    log := s.log ++ [entry]
    lastInserted := s.log.length
    lastInsertedBallot := ballot }

def prepareTransaction (fs : FileSystem) (s : Server) (request : TransferReq) (ballot : Ballot) :
    Server :=
  let (wal, entry) := s.wal.prepareTransaction fs request ballot
  s.insertLog wal entry ballot

def commitTransaction (fs : FileSystem) (s : Server) (request : TransferReq) (ballot : Ballot) :
    Server :=
  let (wal, entry) := s.wal.commitTransaction fs request ballot
  let s' := ((s.insertLog wal entry ballot).addBalance entry.txn.sender (-entry.txn.amount)).addBalance
    entry.txn.receiver entry.txn.amount
  (s'.updateBalance entry.txn.sender (s'.balances entry.txn.sender)).updateBalance
    entry.txn.receiver (s'.balances entry.txn.receiver)

def broadcast (s : Server) (request : Request) : List OutCall :=
  s.stubs.map fun dst => ⟨dst, request⟩

def transferRes (ack : Bool) (tid : ℤ) : Option Response :=
  some (.transfer ⟨ack, tid⟩)

/-- `is_paxos_running = false; paxos_tid = -1`. -/
def endPaxos (s : Server) : Server :=
  { s with isPaxosRunning := false, paxosTid := -1 }

/-! ### `runPaxos` -/

/-- The poll that opens a round: `Send prepare request to all`. -/
def startRound (s : Server) (request : TransferReq) : Handled :=
  let ballot : Ballot := ⟨s.ballotNum + 1, s.serverId⟩
  { server := { s with
      isPaxosRunning := true
      paxosTid := request.tid
      ballotNum := s.ballotNum + 1
      promised := true
      promisedNum := ballot
      awaitPrepareDecision := true
      prepareSuccesses := 1
      prepareFailures := 0 }
    response := none
    sent := s.broadcast (.prepare ⟨ballot, s.lastInserted⟩) }

/-- `Transaction conditions not met`. -/
def conditionsNotMet (c : Constants) (s : Server) (txn : Transaction) : Bool :=
  (s.isClientInCluster c txn.sender && decide (txn.sender ∈ s.locks)) ||
    (s.isClientInCluster c txn.receiver && decide (txn.receiver ∈ s.locks)) ||
    (s.isClientInCluster c txn.sender && decide (s.balances txn.sender < txn.amount))

/-- `if (isClientInCluster(client)) locks.insert(client)`. -/
def lockClient (c : Constants) (s : Server) (clientId : ℤ) : Server :=
  if s.isClientInCluster c clientId then s.lock clientId else s

/-- `if (isClientInCluster(client)) locks.erase(client)`. -/
def unlockClient (c : Constants) (s : Server) (clientId : ℤ) : Server :=
  if s.isClientInCluster c clientId then s.unlock clientId else s

/-- Lock the items of a transaction; the receiver is locked whatever its cluster. -/
def lockItems (c : Constants) (s : Server) (txn : Transaction) : Server :=
  ((s.lockClient c txn.sender).lockClient c txn.receiver).lock txn.receiver

/-- The accept phase: `Send accept request to all`. -/
def startAccept (c : Constants) (fs : FileSystem) (s : Server) (request : TransferReq)
    (isCrossShard : Bool) : Handled :=
  let s := s.lockItems c request.txn
  let s := { s with
    accepted := true
    acceptNum := s.promisedNum
    acceptVal := request
    awaitAcceptDecision := true
    acceptSuccesses := 1
    acceptFailures := 0 }
  { server := if isCrossShard then s.prepareTransaction fs request s.acceptNum else s
    response := none
    sent := s.broadcast (.accept ⟨s.promisedNum, request⟩) }

/-- A poll while the prepare decision is awaited. -/
def pollPrepare (c : Constants) (fs : FileSystem) (s : Server) (request : TransferReq)
    (isCrossShard : Bool) : Handled :=
  if majority ≤ s.prepareSuccesses then
    let s := { s with awaitPrepareDecision := false }
    if s.conditionsNotMet c request.txn then
      ⟨s.endPaxos, transferRes false request.tid, []⟩
    else s.startAccept c fs request isCrossShard
  else if majority ≤ s.prepareFailures then
    ⟨({ s with awaitPrepareDecision := false }).endPaxos, transferRes false request.tid, []⟩
  else ⟨s, none, []⟩

def unlockBoth (s : Server) (txn : Transaction) : Server :=
  (s.unlock txn.sender).unlock txn.receiver

/-- `Send commit request to all` and `Update server state`. -/
def finishCommit (fs : FileSystem) (s : Server) (request : TransferReq) (isCrossShard : Bool) :
    Handled :=
  let s' := if isCrossShard then s
    else (s.unlockBoth request.txn).commitTransaction fs request s.acceptNum
  { server := ({ s' with
      promised := false
      accepted := false
      awaitPrepareDecision := false
      awaitAcceptDecision := false }).endPaxos
    response := transferRes true request.tid
    sent := s.broadcast (.commit ⟨s.acceptNum⟩) }

/-- A poll while the accept decision is awaited. -/
def pollAccept (fs : FileSystem) (s : Server) (request : TransferReq) (isCrossShard : Bool) :
    Handled :=
  if majority ≤ s.acceptSuccesses then s.finishCommit fs request isCrossShard
  else if majority ≤ s.acceptFailures then
    let s := ({ s with awaitAcceptDecision := false }).endPaxos
    ⟨if isCrossShard then s else s.unlockBoth request.txn, transferRes false request.tid, []⟩
  else ⟨s, none, []⟩

def runPaxos (c : Constants) (fs : FileSystem) (s : Server) (request : TransferReq)
    (isCrossShard : Bool) : Handled :=
  if s.inSync then ⟨s, none, []⟩
  else if s.isPaxosRunning && s.paxosTid ≠ request.tid then ⟨s, none, []⟩
  else if !s.awaitPrepareDecision && !s.awaitAcceptDecision then s.startRound request
  else if s.awaitPrepareDecision then s.pollPrepare c fs request isCrossShard
  else s.pollAccept fs request isCrossShard

def processTpcPrepare (c : Constants) (fs : FileSystem) (s : Server) (request : TransferReq) :
    Handled :=
  s.runPaxos c fs request true

def processTransferCall (c : Constants) (fs : FileSystem) (s : Server) (request : TransferReq) :
    Handled :=
  s.runPaxos c fs request false

/-! ### The other calls -/

/-- Release an item of a decided transaction and, on commit, change its balance. -/
def settle (c : Constants) (s : Server) (clientId amount : ℤ) (isCommit : Bool) : Server :=
  if s.isClientInCluster c clientId then
    if isCommit then (s.unlock clientId).applyBalance clientId amount else s.unlock clientId
  else s

def processTpcDecision (c : Constants) (fs : FileSystem) (s : Server) (request : TpcTid)
    (isCommit : Bool) : Server :=
  if s.iAmDisconnected then s
  else
    let (wal, entry) := if isCommit then s.wal.commitTransactionTid fs request
      else s.wal.abortTransaction fs request
    let s := { s with wal, log := if entry.tid ≠ -1 then s.log ++ [entry] else s.log }
    let s := s.settle c entry.txn.sender (-entry.txn.amount) isCommit
    s.settle c entry.txn.receiver entry.txn.amount isCommit

def processPrepareCall (s : Server) (request : PrepareReq) : Handled :=
  if s.iAmDisconnected then ⟨s, some (.prepare { ballot := request.ballot }), []⟩
  else if s.ballotNum < request.ballot.num ∧ request.lastInserted = s.lastInserted then
    { server := { s with
        promised := true
        promisedNum := request.ballot
        ballotNum := request.ballot.num }
      response := some (.prepare {
        ack := true
        ballot := request.ballot
        acceptNum := if s.accepted then some s.acceptNum else none
        acceptVal := if s.accepted then some s.acceptVal else none })
      sent := [] }
  else
    -- the states differ: ask the proposer for its log when it is ahead
    let behind := decide (s.ballotNum < request.ballot.num ∧ s.lastInserted < request.lastInserted)
    { server := { s with inSync := s.inSync || behind }
      response := some (.prepare {
        ack := false
        ballot := request.ballot
        latestBallotNum := if request.ballot.num ≤ s.ballotNum then some s.ballotNum else none
        lastInserted := if request.lastInserted < s.lastInserted then some s.lastInserted else none
        serverId := some s.serverId })
      sent := if behind then [⟨request.ballot.serverId, .sync ⟨s.lastInserted⟩⟩] else [] }

def inCluster (c : Constants) (s : Server) (txn : Transaction) : ℕ :=
  (if s.isClientInCluster c txn.sender then 1 else 0) +
    (if s.isClientInCluster c txn.receiver then 1 else 0)

def lockInCluster (c : Constants) (s : Server) (txn : Transaction) : Server :=
  (s.lockClient c txn.sender).lockClient c txn.receiver

def unlockInCluster (c : Constants) (s : Server) (txn : Transaction) : Server :=
  (s.unlockClient c txn.sender).unlockClient c txn.receiver

/-- The accepting branch of `processAcceptCall`. -/
def acceptRequest (c : Constants) (fs : FileSystem) (s : Server) (request : AcceptReq) : Server :=
  let s := { s with accepted := true, acceptNum := request.ballot, acceptVal := request.r }
  let s := s.lockInCluster c request.r.txn
  if s.inCluster c request.r.txn = 1 then s.prepareTransaction fs request.r request.ballot else s

def processAcceptCall (c : Constants) (fs : FileSystem) (s : Server) (request : AcceptReq) :
    Handled :=
  if s.iAmDisconnected then ⟨s, some (.accept { ballot := request.ballot }), []⟩
  else if s.promised ∧ request.ballot.num = s.promisedNum.num then
    ⟨s.acceptRequest c fs request, some (.accept ⟨true, request.ballot⟩), []⟩
  else ⟨s, some (.accept ⟨false, request.ballot⟩), []⟩

/-- The branch of `processCommitCall` that releases the accepted transaction. -/
def releaseAccepted (c : Constants) (fs : FileSystem) (s : Server) : Server :=
  -- log.size() - 1, converted to int: -1 on an empty log
  let s := { s with lastInserted := s.log.length - 1, lastInsertedBallot := s.acceptNum }
  let s := s.unlockInCluster c s.acceptVal.txn
  let s := if s.inCluster c s.acceptVal.txn = 2
    then s.commitTransaction fs s.acceptVal s.acceptNum else s
  { s with promised := false, accepted := false }

def processCommitCall (c : Constants) (fs : FileSystem) (s : Server) (request : CommitReq) :
    Server :=
  if s.iAmDisconnected then s
  else if s.promisedNum.num = request.ballot.num ∧ s.acceptNum.num = request.ballot.num then
    s.releaseAccepted c fs
  else s

def getLogEntryFromLocalLog (e : WALEntry) : LogEntry :=
  ⟨e.txn, e.tid, e.type.toInt, e.status.toInt, e.ballotNum, e.ballotServerId⟩

/-- The loop index `commit_idx + 1` is compared with `log.size()` as an unsigned number, so
the loop does not run when it is negative. -/
def processSyncCall (s : Server) (request : SyncReq) : SyncRes :=
  if request.lastInserted < s.lastInserted then
    { ack := true
      logs := if request.lastInserted + 1 < 0 then []
        else (s.log.drop (request.lastInserted + 1).toNat).map getLogEntryFromLocalLog
      lastInsertedBallot := s.lastInsertedBallot }
  else {}

def processGetBalanceCall (s : Server) (request : BalanceReq) : BalanceRes :=
  ⟨s.balances request.client⟩

def processGetLogsCall (s : Server) : LogRes :=
  ⟨s.log.map getLogEntryFromLocalLog⟩

/-- `constants::server_ids[name]`, where an unknown name gets the id 0. -/
def idOfName (c : Constants) (name : Text) : ℤ :=
  (c.serverIds.lookup name).getD 0

def processDisconnectCall (c : Constants) (s : Server) (request : DisconnectReq) : Server :=
  { s with iAmDisconnected := request.servers.any fun name => idOfName c name = s.serverId }

/-! ### Replies to the calls a server sent -/

def handlePrepareReply (s : Server) (status : Status) (request : PrepareReq)
    (response : PrepareRes) : Server × List OutCall :=
  if !s.awaitPrepareDecision then (s, [])
  else if status = .deadlineExceeded ∧ request.ballot.num = s.promisedNum.num ∧
      request.ballot.serverId = s.serverId then
    ({ s with prepareFailures := s.prepareFailures + 1 }, [])
  else if status = .ok ∧ response.ballot.num = s.promisedNum.num ∧
      response.ballot.serverId = s.serverId then
    let s := if response.ack then { s with prepareSuccesses := s.prepareSuccesses + 1 }
      else { s with prepareFailures := s.prepareFailures + 1 }
    let s := match response.latestBallotNum with
      | some num => { s with ballotNum := num, awaitPrepareDecision := false }
      | none => s
    match response.lastInserted with
    | some lastInserted =>
        if s.lastInserted < lastInserted then
          ({ s with inSync := true, awaitPrepareDecision := false },
            [⟨response.serverId.getD 0, .sync ⟨s.lastInserted⟩⟩])
        else (s, [])
    | none => (s, [])
  else (s, [])

def handleAcceptReply (s : Server) (status : Status) (request : AcceptReq)
    (response : AcceptRes) : Server :=
  if !s.awaitAcceptDecision then s
  else if status = .deadlineExceeded ∧ request.ballot.num = s.acceptNum.num ∧
      request.ballot.serverId = s.serverId then
    { s with acceptFailures := s.acceptFailures + 1 }
  else if status = .ok ∧ response.ballot.num = s.acceptNum.num ∧
      response.ballot.serverId = s.serverId then
    if response.ack then { s with acceptSuccesses := s.acceptSuccesses + 1 }
    else { s with acceptFailures := s.acceptFailures + 1 }
  else s

def fromLogEntry (e : LogEntry) : WALEntry :=
  ⟨e.tid, e.ballotNum, e.ballotServerId, e.txn, .ofInt e.type, .ofInt e.status⟩

/-- One turn of the loop over the synchronized entries. -/
def syncEntry (c : Constants) (isOpen : Bool) (s : Server) (e : LogEntry) : Server :=
  let entry := fromLogEntry e
  let s := { s with log := s.log ++ [entry], wal := s.wal.insertEntry isOpen entry }
  let s := if entry.status = .committed ∧ s.isClientInCluster c entry.txn.sender then
    s.applyBalance entry.txn.sender (-entry.txn.amount) else s
  if entry.status = .committed ∧ s.isClientInCluster c entry.txn.receiver then
    s.applyBalance entry.txn.receiver entry.txn.amount else s

def syncEntries (c : Constants) (fs : FileSystem) : ℕ → Server → List LogEntry → Server
  | _, s, [] => s
  | i, s, e :: es => syncEntries c fs (i + 1) (s.syncEntry c (fs.opens i) e) es

def handleSyncReply (c : Constants) (fs : FileSystem) (s : Server) (status : Status)
    (response : SyncRes) : Server :=
  let s := if status = .ok ∧ response.ack then
    let s := s.syncEntries c fs 0 response.logs
    { s with
      ballotNum := response.lastInsertedBallot.num
      lastInserted := s.lastInserted + response.logs.length
      lastInsertedBallot := response.lastInsertedBallot }
    else s
  { s with inSync := false }

/-! ### Dispatch -/

/-- `InCall::Proceed` on a received request, first or retried. -/
def proceed (c : Constants) (fs : FileSystem) (s : Server) : Request → Handled
  | .tpcPrepare r => s.processTpcPrepare c fs r
  | .tpcCommit r => ⟨s.processTpcDecision c fs r true, some .empty, []⟩
  | .tpcAbort r => ⟨s.processTpcDecision c fs r false, some .empty, []⟩
  | .transfer r => s.processTransferCall c fs r
  | .balance r => ⟨s, some (.balance (s.processGetBalanceCall r)), []⟩
  | .logs => ⟨s, some (.logs s.processGetLogsCall), []⟩
  | .prepare r => s.processPrepareCall r
  | .accept r => s.processAcceptCall c fs r
  | .commit r => ⟨s.processCommitCall c fs r, some .empty, []⟩
  | .sync r => ⟨s, some (.sync (s.processSyncCall r)), []⟩
  | .disconnect r => ⟨s.processDisconnectCall c r, some .empty, []⟩

/-- `OutCall::HandleRPCResponse`. A failed call leaves the reply object as it was built. -/
def handleRPCResponse (c : Constants) (fs : FileSystem) (s : Server) (request : Request)
    (status : Status) (response : Response) : Server × List OutCall :=
  match request, response with
  | .prepare r, .prepare res => s.handlePrepareReply status r res
  | .prepare r, _ => s.handlePrepareReply status r {}
  | .accept r, .accept res => (s.handleAcceptReply status r res, [])
  | .accept r, _ => (s.handleAcceptReply status r {}, [])
  | .sync _, .sync res => (s.handleSyncReply c fs status res, [])
  | .sync _, _ => (s.handleSyncReply c fs status {}, [])
  | _, _ => (s, [])

end Server
end TpcBank
