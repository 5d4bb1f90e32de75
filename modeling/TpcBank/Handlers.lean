import TpcBank.Server

/-! What each handler can do, stated once. The updates are brought to one record update
each, and the branches of a handler become the constructors of a predicate, so that an
invariant is proved by cases on what happened. -/
namespace TpcBank
open Decimal

/-- The clients of a transaction that belong to a cluster. -/
def Constants.items (c : Constants) (clusterId : ℤ) (txn : Transaction) : Finset ℤ :=
  ({txn.sender, txn.receiver} : Finset ℤ).filter fun x => c.getClusterIdFromClientId x = clusterId

@[simp] theorem Constants.mem_items {c : Constants} {clusterId x : ℤ} {txn : Transaction} :
    x ∈ c.items clusterId txn ↔
      (x = txn.sender ∨ x = txn.receiver) ∧ c.getClusterIdFromClientId x = clusterId := by
  simp [items]

namespace Server

variable {c : Constants} {fs : FileSystem} {s : Server}

@[simp] theorem isClientInCluster_iff {x : ℤ} :
    s.isClientInCluster c x = true ↔ c.getClusterIdFromClientId x = s.clusterId := by
  simp [isClientInCluster]

/-! ### Updates as one record update -/

theorem lockClient_eq (x : ℤ) :
    s.lockClient c x =
      { s with locks := if s.isClientInCluster c x then insert x s.locks else s.locks } := by
  unfold lockClient lock
  split_ifs <;> rfl

theorem unlockClient_eq (x : ℤ) :
    s.unlockClient c x =
      { s with locks := if s.isClientInCluster c x then s.locks.erase x else s.locks } := by
  unfold unlockClient unlock
  split_ifs <;> rfl

theorem lockInCluster_eq (txn : Transaction) :
    s.lockInCluster c txn = { s with locks := s.locks ∪ c.items s.clusterId txn } := by
  simp only [lockInCluster, lockClient_eq, Server.mk.injEq, true_and, and_true]
  ext x
  simp only [isClientInCluster_iff]
  split_ifs <;> simp only [Finset.mem_insert, Finset.mem_union, Constants.mem_items] <;> grind

theorem unlockInCluster_eq (txn : Transaction) :
    s.unlockInCluster c txn = { s with locks := s.locks \ c.items s.clusterId txn } := by
  simp only [unlockInCluster, unlockClient_eq, Server.mk.injEq, true_and, and_true]
  ext x
  simp only [isClientInCluster_iff]
  split_ifs <;> simp only [Finset.mem_erase, Finset.mem_sdiff, Constants.mem_items] <;> grind

theorem lockItems_eq (txn : Transaction) :
    s.lockItems c txn =
      { s with locks := insert txn.receiver (s.locks ∪ c.items s.clusterId txn) } := by
  have h : s.lockItems c txn = (s.lockInCluster c txn).lock txn.receiver := rfl
  rw [h, lockInCluster_eq]
  rfl

theorem unlockBoth_eq (txn : Transaction) :
    s.unlockBoth txn = { s with locks := (s.locks.erase txn.sender).erase txn.receiver } := rfl

theorem prepareTransaction_eq (request : TransferReq) (ballot : Ballot) :
    s.prepareTransaction fs request ballot =
      { s with
        wal := (s.wal.prepareTransaction fs request ballot).1
        log := s.log ++ [⟨request.tid, ballot.num, ballot.serverId, request.txn, .cross, .prepared⟩]
        lastInserted := s.log.length
        lastInsertedBallot := ballot } := rfl

/-- The balances after moving the amount of a transaction, whoever its clients are. -/
def movedBalances (balances : ℤ → ℤ) (txn : Transaction) : ℤ → ℤ := fun x =>
  balances x - (if txn.sender = x then txn.amount else 0) +
    (if txn.receiver = x then txn.amount else 0)

/-- The entry that stands for a failed open moves an amount from a client to itself. -/
theorem movedBalances_notFound (balances : ℤ → ℤ) :
    movedBalances balances WALEntry.notFound.txn = balances := by
  funext x
  unfold movedBalances WALEntry.notFound
  exact sub_add_cancel _ _

/-- The stored values after writing the balances of some clients, the last one first. -/
def storedBalances (db : Text → Option Text) (balances : ℤ → ℤ) (clients : List ℤ) :
    Text → Option Text :=
  clients.foldr (fun x db => Function.update db (decimal x) (some (decimal (balances x)))) db

theorem commitTransaction_eq (request : TransferReq) (ballot : Ballot) :
    s.commitTransaction fs request ballot =
      let r := s.wal.commitTransaction fs request ballot
      { s with
        wal := r.1
        log := s.log ++ [r.2]
        lastInserted := s.log.length
        lastInsertedBallot := ballot
        balances := movedBalances s.balances r.2.txn
        db := storedBalances s.db (movedBalances s.balances r.2.txn)
          [r.2.txn.receiver, r.2.txn.sender] } := by
  rcases hr : s.wal.commitTransaction fs request ballot with ⟨wal, entry⟩
  have hb : Function.update (Function.update s.balances entry.txn.sender
      (s.balances entry.txn.sender + -entry.txn.amount)) entry.txn.receiver
      (Function.update s.balances entry.txn.sender
        (s.balances entry.txn.sender + -entry.txn.amount) entry.txn.receiver + entry.txn.amount) =
      movedBalances s.balances entry.txn := by
    funext x
    simp only [Function.update_apply, movedBalances]
    split_ifs <;> grind
  simp only [commitTransaction, hr, insertLog, addBalance, updateBalance, hb, Server.mk.injEq,
    true_and, and_true]
  rfl

/-- The balances after the clients of the cluster took part in a transaction. -/
def clusterBalances (c : Constants) (clusterId : ℤ) (balances : ℤ → ℤ) (txn : Transaction) :
    ℤ → ℤ := fun x =>
  if c.getClusterIdFromClientId x = clusterId then movedBalances balances txn x else balances x

theorem clusterBalances_notFound (clusterId : ℤ) (balances : ℤ → ℤ) :
    clusterBalances c clusterId balances WALEntry.notFound.txn = balances := by
  funext x
  rw [clusterBalances, movedBalances_notFound, ite_self]

theorem finishCommit_cross (request : TransferReq) :
    (s.finishCommit fs request true).server =
      { s with
        promised := false
        accepted := false
        awaitPrepareDecision := false
        awaitAcceptDecision := false
        isPaxosRunning := false
        paxosTid := -1 } := rfl

theorem finishCommit_intra (request : TransferReq) :
    (s.finishCommit fs request false).server =
      let r := s.wal.commitTransaction fs request s.acceptNum
      { s with
        locks := (s.locks.erase request.txn.sender).erase request.txn.receiver
        wal := r.1
        log := s.log ++ [r.2]
        lastInserted := s.log.length
        lastInsertedBallot := s.acceptNum
        balances := movedBalances s.balances r.2.txn
        db := storedBalances s.db (movedBalances s.balances r.2.txn)
          [r.2.txn.receiver, r.2.txn.sender]
        promised := false
        accepted := false
        awaitPrepareDecision := false
        awaitAcceptDecision := false
        isPaxosRunning := false
        paxosTid := -1 } := by
  simp only [finishCommit, unlockBoth_eq, commitTransaction_eq]
  rfl

/-- The clients whose balance a transaction writes, the last written first. -/
def clusterClients (c : Constants) (clusterId : ℤ) (txn : Transaction) : List ℤ :=
  [txn.receiver, txn.sender].filter fun x => c.getClusterIdFromClientId x = clusterId

/-- Apply a committed transaction to the balances of the cluster. -/
def applyTxn (c : Constants) (s : Server) (txn : Transaction) : Server :=
  { s with
    balances := clusterBalances c s.clusterId s.balances txn
    db := storedBalances s.db (clusterBalances c s.clusterId s.balances txn)
      (clusterClients c s.clusterId txn) }

/-- `if (isClientInCluster(client))` the balance is changed and stored. -/
def applyClient (c : Constants) (s : Server) (x amount : ℤ) : Server :=
  if s.isClientInCluster c x then s.applyBalance x amount else s

theorem applyClient_eq (x amount : ℤ) :
    s.applyClient c x amount =
      { s with
        balances := if c.getClusterIdFromClientId x = s.clusterId
          then Function.update s.balances x (s.balances x + amount) else s.balances
        db := if c.getClusterIdFromClientId x = s.clusterId
          then Function.update s.db (decimal x) (some (decimal (s.balances x + amount)))
          else s.db } := by
  unfold applyClient applyBalance addBalance updateBalance
  simp only [isClientInCluster_iff]
  split_ifs <;> rfl

theorem applyClient_balances (txn : Transaction) :
    ((s.applyClient c txn.sender (-txn.amount)).applyClient c txn.receiver txn.amount).balances =
      clusterBalances c s.clusterId s.balances txn := by
  funext x
  simp only [applyClient_eq, clusterBalances, movedBalances]
  split_ifs <;> grind [Function.update_apply]

theorem applyClient_db (txn : Transaction) :
    ((s.applyClient c txn.sender (-txn.amount)).applyClient c txn.receiver txn.amount).db =
      storedBalances s.db (clusterBalances c s.clusterId s.balances txn)
        (clusterClients c s.clusterId txn) := by
  have hb := applyClient_balances (c := c) (s := s) txn
  rw [← hb]
  by_cases hr : c.getClusterIdFromClientId txn.receiver = s.clusterId <;>
    by_cases hs : c.getClusterIdFromClientId txn.sender = s.clusterId <;>
    simp only [applyClient_eq, storedBalances, clusterClients, hr, hs, if_true, if_false,
      List.filter_cons, List.filter_nil, decide_true, decide_false, List.foldr_cons,
      List.foldr_nil, Bool.false_eq_true, Function.update_self]
  · by_cases hne : txn.receiver = txn.sender
    · simp only [hne, Function.update_idem]
    · rw [Function.update_of_ne (Ne.symm hne)]
      simp only [Function.update_self]

theorem applyClient_both (txn : Transaction) :
    (s.applyClient c txn.sender (-txn.amount)).applyClient c txn.receiver txn.amount =
      s.applyTxn c txn := by
  rw [applyTxn, ← applyClient_db, ← applyClient_balances]
  simp only [applyClient_eq]

theorem settle_eq (x amount : ℤ) (isCommit : Bool) :
    s.settle c x amount isCommit =
      if isCommit then (s.unlockClient c x).applyClient c x amount else s.unlockClient c x := by
  unfold settle unlockClient applyClient
  simp only [isClientInCluster_iff]
  split_ifs <;> first | rfl | contradiction

/-- A decision: the entry read back is appended, its items are released and, on commit, the
balances change. -/
theorem processTpcDecision_eq (request : TpcTid) (isCommit : Bool)
    (hconn : s.iAmDisconnected = false) :
    s.processTpcDecision c fs request isCommit =
      let r := if isCommit then s.wal.commitTransactionTid fs request
        else s.wal.abortTransaction fs request
      let s' := { s with
        wal := r.1
        log := if r.2.tid ≠ -1 then s.log ++ [r.2] else s.log
        locks := s.locks \ c.items s.clusterId r.2.txn }
      if isCommit then s'.applyTxn c r.2.txn else s' := by
  have hunlock : ∀ t : Server, ∀ x y amount : ℤ,
      (t.applyClient c x amount).unlockClient c y = (t.unlockClient c y).applyClient c x amount := by
    intro t x y amount
    simp only [applyClient_eq, unlockClient_eq]
    rfl
  cases isCommit with
  | false =>
    simp only [processTpcDecision, hconn, settle_eq, Bool.false_eq_true, if_false]
    exact unlockInCluster_eq _
  | true =>
    simp only [processTpcDecision, hconn, settle_eq, Bool.false_eq_true, if_false, if_true, hunlock,
      applyClient_both]
    rw [← unlockInCluster, unlockInCluster_eq]

theorem processTpcDecision_disconnected (request : TpcTid) (isCommit : Bool)
    (h : s.iAmDisconnected = true) : s.processTpcDecision c fs request isCommit = s := by
  simp [processTpcDecision, h]

/-- The not-found entry has clients of no cluster, so applying it changes nothing. -/
theorem applyTxn_notFound (hcluster : 0 < s.clusterId) :
    s.applyTxn c WALEntry.notFound.txn = s := by
  have hne : c.getClusterIdFromClientId (-1) ≠ s.clusterId := by
    have := c.sentinel_client
    omega
  have hb : clusterBalances c s.clusterId s.balances WALEntry.notFound.txn = s.balances :=
    clusterBalances_notFound s.clusterId s.balances
  have hl : clusterClients c s.clusterId WALEntry.notFound.txn = [] := by
    simp [clusterClients, WALEntry.notFound, hne]
  rw [applyTxn, hb, hl]
  rfl

theorem items_notFound {clusterId : ℤ} (hcluster : 0 < clusterId) :
    c.items clusterId WALEntry.notFound.txn = ∅ := by
  have := c.sentinel_client
  ext x
  simp only [Constants.mem_items, WALEntry.notFound, or_self, Finset.notMem_empty, iff_false]
  rintro ⟨rfl, h⟩
  omega

/-- A decision on a transaction that is not pending does nothing. -/
theorem processTpcDecision_unknown {request : TpcTid} (isCommit : Bool)
    (hcluster : 0 < s.clusterId) (hindex : s.wal.Indexed) (hp : s.wal.pending request.tid = none) :
    s.processTpcDecision c fs request isCommit = s := by
  by_cases hconn : s.iAmDisconnected = true
  · exact processTpcDecision_disconnected request isCommit hconn
  have hw : (if isCommit then s.wal.commitTransactionTid fs request
      else s.wal.abortTransaction fs request) = (s.wal, WALEntry.notFound) := by
    cases isCommit <;> exact WAL.endTransaction_none hindex hp
  rw [processTpcDecision_eq request isCommit (by simpa using hconn), hw]
  dsimp only
  rw [items_notFound hcluster, Finset.sdiff_empty]
  cases isCommit with
  | false => rfl
  | true => exact applyTxn_notFound hcluster

/-- The status a decision gives to a transaction. -/
def decision (isCommit : Bool) : TransactionStatus :=
  if isCommit then .committed else .aborted

/-- A decision on a pending transaction releases its items and, on commit, applies it. -/
theorem processTpcDecision_found {request : TpcTid} {e : WALEntry} (isCommit : Bool)
    (hconn : s.iAmDisconnected = false) (hfs : fs.working) (hindex : s.wal.Indexed)
    (hp : s.wal.pending request.tid = some e) :
    ∃ wal : WAL, wal.Indexed ∧ wal.pending = Function.update s.wal.pending request.tid none ∧
      s.processTpcDecision c fs request isCommit =
        let s' := { s with
          wal
          log := if e.tid ≠ -1 then s.log ++ [{ e with status := decision isCommit }] else s.log
          locks := s.locks \ c.items s.clusterId e.txn }
        if isCommit then s'.applyTxn c e.txn else s' := by
  have hw : ∃ command, (if isCommit then s.wal.commitTransactionTid fs request
      else s.wal.abortTransaction fs request) =
        s.wal.endTransaction command (decision isCommit) fs request := by
    cases isCommit <;> exact ⟨_, rfl⟩
  obtain ⟨command, hw⟩ := hw
  obtain ⟨hindexed, hpending, hentry⟩ := WAL.endTransaction_some command
    (decision isCommit) hfs hindex hp
  refine ⟨_, hindexed, hpending, ?_⟩
  rw [processTpcDecision_eq request isCommit hconn, hw]
  simp only [hentry]

/-- A decision on a pending transaction appends its entry with the new status. -/
theorem processTpcDecision_pending {request : TpcTid} {e : WALEntry} (isCommit : Bool)
    (hconn : s.iAmDisconnected = false) (hfs : fs.working) (hindex : s.wal.Indexed)
    (hp : s.wal.pending request.tid = some e) (htid : request.tid ≠ -1) :
    ∃ wal : WAL, wal.Indexed ∧ wal.pending = Function.update s.wal.pending request.tid none ∧
      s.processTpcDecision c fs request isCommit =
        let s' := { s with
          wal
          log := s.log ++ [{ e with status := decision isCommit }]
          locks := s.locks \ c.items s.clusterId e.txn }
        if isCommit then s'.applyTxn c e.txn else s' := by
  obtain ⟨wal, hindexed, hpending, heq⟩ :=
    processTpcDecision_found (c := c) isCommit hconn hfs hindex hp
  have he : e.tid ≠ -1 := by rwa [(hindex.pending_fields hp).1]
  refine ⟨wal, hindexed, hpending, ?_⟩
  rw [heq]
  simp only [ne_eq, he, not_false_eq_true, if_true]

/-- One synchronized entry: it is appended to the log and the file, and a committed one
changes the balances of the cluster. No lock is taken. -/
theorem syncEntry_eq (isOpen : Bool) (e : LogEntry) :
    s.syncEntry c isOpen e =
      let entry := fromLogEntry e
      let s' := { s with log := s.log ++ [entry], wal := s.wal.insertEntry isOpen entry }
      if entry.status = .committed then s'.applyTxn c entry.txn else s' := by
  unfold syncEntry
  by_cases h : (fromLogEntry e).status = .committed
  · simp only [h, true_and, if_true]
    rw [← applyClient_both]
    rfl
  · simp only [h, false_and, if_false]

end Server
end TpcBank
