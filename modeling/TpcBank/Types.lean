import TpcBank.Library.Decimal
import Mathlib

/-! The data of the bank: transactions and log entries, ballots, and the messages of
`tpc.proto`. An `int32` or `int64` is an unbounded integer. -/
namespace TpcBank
open Decimal

structure Transaction where
  sender : ℤ
  receiver : ℤ
  amount : ℤ
  deriving DecidableEq, Repr

inductive TransactionType
  | intra
  | cross
  deriving DecidableEq, Repr

inductive TransactionStatus
  | noStatus
  | prepared
  | committed
  | aborted
  deriving DecidableEq, Repr

/-- The `int` an enumerator is sent as. -/
def TransactionType.toInt : TransactionType → ℤ
  | .intra => 0
  | .cross => 1

/-- `static_cast<types::TransactionType>`. A number that names no type, which the code keeps and
no server sends, becomes `CROSS`: the code only ever tests for `INTRA`. -/
def TransactionType.ofInt (n : ℤ) : TransactionType :=
  if n = 0 then .intra else .cross

def TransactionStatus.toInt : TransactionStatus → ℤ
  | .noStatus => 0
  | .prepared => 1
  | .committed => 2
  | .aborted => 3

/-- `static_cast<types::TransactionStatus>`. A number that names no status, which the code keeps
and no server sends, becomes `NO_STATUS`: both take no branch. -/
def TransactionStatus.ofInt (n : ℤ) : TransactionStatus :=
  if n = 1 then .prepared
  else if n = 2 then .committed
  else if n = 3 then .aborted
  else .noStatus

@[simp] theorem TransactionType.ofInt_toInt (t : TransactionType) : ofInt t.toInt = t := by
  cases t <;> rfl

@[simp] theorem TransactionStatus.ofInt_toInt (t : TransactionStatus) : ofInt t.toInt = t := by
  cases t <;> rfl

/-- An entry of a server's log. -/
structure WALEntry where
  tid : ℤ
  ballotNum : ℤ
  ballotServerId : ℤ
  txn : Transaction
  type : TransactionType
  status : TransactionStatus
  deriving DecidableEq, Repr

structure Ballot where
  num : ℤ := 0
  serverId : ℤ := 0
  deriving DecidableEq, Repr

structure TransferReq where
  txn : Transaction := ⟨0, 0, 0⟩
  tid : ℤ := 0
  deriving DecidableEq, Repr

structure TransferRes where
  ack : Bool := false
  tid : ℤ := 0
  deriving DecidableEq, Repr

structure TpcTid where
  tid : ℤ
  deriving DecidableEq, Repr

structure PrepareReq where
  ballot : Ballot
  lastInserted : ℤ
  deriving DecidableEq, Repr

structure PrepareRes where
  ack : Bool := false
  ballot : Ballot := {}
  acceptNum : Option Ballot := none
  acceptVal : Option TransferReq := none
  latestBallotNum : Option ℤ := none
  lastInserted : Option ℤ := none
  serverId : Option ℤ := none
  deriving DecidableEq, Repr

structure AcceptReq where
  ballot : Ballot
  r : TransferReq
  deriving DecidableEq, Repr

structure AcceptRes where
  ack : Bool := false
  ballot : Ballot := {}
  deriving DecidableEq, Repr

structure CommitReq where
  ballot : Ballot
  deriving DecidableEq, Repr

structure SyncReq where
  lastInserted : ℤ
  deriving DecidableEq, Repr

structure LogEntry where
  txn : Transaction
  tid : ℤ
  type : ℤ
  status : ℤ
  ballotNum : ℤ
  ballotServerId : ℤ
  deriving DecidableEq, Repr

structure SyncRes where
  ack : Bool := false
  logs : List LogEntry := []
  lastInsertedBallot : Ballot := {}
  deriving DecidableEq, Repr

structure BalanceReq where
  client : ℤ
  deriving DecidableEq, Repr

structure BalanceRes where
  amount : ℤ
  deriving DecidableEq, Repr

structure LogRes where
  logs : List LogEntry
  deriving DecidableEq, Repr

structure DisconnectReq where
  servers : List Text
  deriving DecidableEq, Repr

/-- A request of one of the eleven RPCs. -/
inductive Request
  | tpcPrepare (r : TransferReq)
  | tpcCommit (r : TpcTid)
  | tpcAbort (r : TpcTid)
  | transfer (r : TransferReq)
  | balance (r : BalanceReq)
  | logs
  | prepare (r : PrepareReq)
  | accept (r : AcceptReq)
  | commit (r : CommitReq)
  | sync (r : SyncReq)
  | disconnect (r : DisconnectReq)
  deriving DecidableEq, Repr

inductive Response
  | empty
  | transfer (r : TransferRes)
  | balance (r : BalanceRes)
  | logs (r : LogRes)
  | prepare (r : PrepareRes)
  | accept (r : AcceptRes)
  | sync (r : SyncRes)
  deriving DecidableEq, Repr

/-- How an RPC ended at its caller. The code only singles out `DEADLINE_EXCEEDED`. -/
inductive Status
  | ok
  | deadlineExceeded
  | otherError
  deriving DecidableEq, Repr

/-- A property of requests is decided RPC by RPC. -/
def Request.decidable {P : Request → Prop} (tpcPrepare : ∀ r, Decidable (P (.tpcPrepare r)))
    (tpcCommit : ∀ r, Decidable (P (.tpcCommit r))) (tpcAbort : ∀ r, Decidable (P (.tpcAbort r)))
    (transfer : ∀ r, Decidable (P (.transfer r))) (balance : ∀ r, Decidable (P (.balance r)))
    (logs : Decidable (P .logs)) (prepare : ∀ r, Decidable (P (.prepare r)))
    (accept : ∀ r, Decidable (P (.accept r))) (commit : ∀ r, Decidable (P (.commit r)))
    (sync : ∀ r, Decidable (P (.sync r))) (disconnect : ∀ r, Decidable (P (.disconnect r))) :
    ∀ r, Decidable (P r)
  | .tpcPrepare r => tpcPrepare r
  | .tpcCommit r => tpcCommit r
  | .tpcAbort r => tpcAbort r
  | .transfer r => transfer r
  | .balance r => balance r
  | .logs => logs
  | .prepare r => prepare r
  | .accept r => accept r
  | .commit r => commit r
  | .sync r => sync r
  | .disconnect r => disconnect r

/-- Requests that the client sends. The other four are sent between servers. -/
def Request.fromClient : Request → Bool
  | .prepare _ | .accept _ | .commit _ | .sync _ => false
  | _ => true

/-- What the environment decides about the WAL file during one handler: which of the
opens of the handler succeed, and what the uninitialised locals of a failed read hold. -/
structure FileSystem where
  opens : ℕ → Bool
  indeterminate : WALEntry

/-- Every open succeeds. -/
def FileSystem.working (fs : FileSystem) : Prop := ∀ i, fs.opens i = true

def FileSystem.allOpen : FileSystem := ⟨fun _ => true, ⟨0, 0, 0, ⟨0, 0, 0⟩, .intra, .noStatus⟩⟩

theorem FileSystem.allOpen_working : allOpen.working := fun _ => rfl

end TpcBank
