import TpcBank.Routing

/-! Leader and follower paths: a follower that obeys the messages of its leader one after the
other keeps the data of the leader, though the two update it by different code. -/
namespace TpcBank
open Decimal

/-- The reply to a Prepare has nothing to say about ballots or logs. -/
def Response.Plain : Response → Prop
  | .prepare reply => reply.latestBallotNum = none ∧ reply.lastInserted = none
  | _ => True

instance (response : Response) : Decidable response.Plain := by
  cases response <;> dsimp only [Response.Plain] <;> infer_instance

namespace Server

variable {c : Constants} {fs : FileSystem} {s ℓ d : Server} {input : Input} {r : Handled}

/-! ### The file system does not matter as long as it works -/

theorem prepareTransaction_working (hfs : fs.working) (request : TransferReq) (ballot : Ballot) :
    s.prepareTransaction fs request ballot = s.prepareTransaction .allOpen request ballot := by
  have hopen : FileSystem.allOpen.opens 0 = fs.opens 0 := (hfs 0).symm
  simp only [prepareTransaction, WAL.prepareTransaction, hopen]

theorem commitTransaction_working (hfs : fs.working) (request : TransferReq) (ballot : Ballot) :
    s.commitTransaction fs request ballot = s.commitTransaction .allOpen request ballot := by
  have hopen : FileSystem.allOpen.opens 0 = fs.opens 0 := (hfs 0).symm
  simp only [commitTransaction, WAL.commitTransaction, hopen]

theorem endTransaction_working {w : WAL} (hfs : fs.working) (hindex : w.Indexed) (command : Text)
    (status : TransactionStatus) (request : TpcTid) :
    w.endTransaction command status fs request =
      w.endTransaction command status .allOpen request := by
  unfold WAL.endTransaction
  cases hi : w.transferIndex request.tid with
  | none => rfl
  | some position =>
    obtain ⟨e, he, -⟩ := hindex request.tid position hi
    have hread : w.getTransactionFromFile fs position =
        w.getTransactionFromFile .allOpen position := by
      have hopen : FileSystem.allOpen.opens 0 = fs.opens 0 := (hfs 0).symm
      simp only [WAL.getTransactionFromFile, hopen, he.recordAt, Option.getD_some]
    have hopen : FileSystem.allOpen.opens 1 = fs.opens 1 := (hfs 1).symm
    simp only [hread, hopen]

theorem processTpcDecision_working (hfs : fs.working) (hindex : s.wal.Indexed) (request : TpcTid)
    (isCommit : Bool) :
    s.processTpcDecision c fs request isCommit =
      s.processTpcDecision c .allOpen request isCommit := by
  have hcommit : s.wal.commitTransactionTid fs request =
      s.wal.commitTransactionTid .allOpen request := endTransaction_working hfs hindex _ _ request
  have habort : s.wal.abortTransaction fs request =
      s.wal.abortTransaction .allOpen request := endTransaction_working hfs hindex _ _ request
  unfold processTpcDecision
  rw [hcommit, habort]

/-! ### What a follower does -/

/-- A message of the leader that a follower obeys: a Prepare or an Accept that it acknowledges,
or a Commit that releases what it accepted. -/
def Obeys (s : Server) : Request → Prop
  | .prepare request => s.iAmDisconnected = false ∧ s.ballotNum < request.ballot.num ∧
      request.lastInserted = s.lastInserted
  | .accept request => s.iAmDisconnected = false ∧ s.promised = true ∧
      request.ballot.num = s.promisedNum.num
  | .commit request => s.Releases request
  | _ => False

/-- The server after it has handled a message, with every file operation succeeding. -/
def after (c : Constants) (s : Server) (request : Request) : Server :=
  (s.proceed c .allOpen request).server

/-- The reply to a Prepare that is obeyed. -/
def acknowledgement (s : Server) (request : PrepareReq) : PrepareRes where
  ack := true
  ballot := request.ballot
  acceptNum := if s.accepted then some s.acceptNum else none
  acceptVal := if s.accepted then some s.acceptVal else none

theorem processPrepareCall_of_obeys {request : PrepareReq} (h : s.Obeys (.prepare request)) :
    s.processPrepareCall request =
      ⟨s.promise request, some (.prepare (s.acknowledgement request)), []⟩ := by
  obtain ⟨hconn, hnum, hlast⟩ := h
  unfold processPrepareCall
  rw [if_neg (by simp [hconn]), if_pos ⟨hnum, hlast⟩]
  rfl

theorem processAcceptCall_of_obeys {request : AcceptReq} (h : s.Obeys (.accept request)) :
    s.processAcceptCall c fs request =
      ⟨s.acceptRequest c fs request, some (.accept ⟨true, request.ballot⟩), []⟩ := by
  obtain ⟨hconn, hprom, hnum⟩ := h
  unfold processAcceptCall
  rw [if_neg (by simp [hconn]), if_pos ⟨hprom, hnum⟩]

/-- Obeying a message sends nothing, answers at once, and has one outcome. -/
theorem proceed_of_obeys {request : Request} (h : s.Obeys request) (hfs : fs.working) :
    ∃ response, s.proceed c fs request = ⟨s.after c request, some response, []⟩ ∧
      response.Plain := by
  cases request with
  | prepare request =>
    refine ⟨.prepare (s.acknowledgement request), ?_, rfl, rfl⟩
    simp only [after, proceed, processPrepareCall_of_obeys h]
  | accept request =>
    refine ⟨.accept ⟨true, request.ballot⟩, ?_, trivial⟩
    have hsame : s.acceptRequest c fs request = s.acceptRequest c .allOpen request := by
      rw [acceptRequest_eq, acceptRequest_eq]
      dsimp only
      rw [prepareTransaction_working hfs]
    simp only [after, proceed, processAcceptCall_of_obeys h, hsame]
  | commit request =>
    refine ⟨.empty, ?_, trivial⟩
    have hsame : s.releaseAccepted c fs = s.releaseAccepted c .allOpen := by
      by_cases htwo : s.inCluster c s.acceptVal.txn = 2
      · rw [releaseAccepted_intra htwo, releaseAccepted_intra htwo, commitTransaction_working hfs]
      · rw [releaseAccepted_other htwo, releaseAccepted_other htwo]
    have hreleases : s.Releases request := h
    simp only [after, proceed, processCommitCall_of_releases hreleases, hsame]
  | _ => exact h.elim

/-! ### The relation between a leader and a follower -/

/-- The data that leader and followers are to agree on. -/
structure Agrees (s s' : Server) : Prop where
  log : s'.log = s.log
  balances : s'.balances = s.balances
  lastInserted : s'.lastInserted = s.lastInserted
  lastInsertedBallot : s'.lastInsertedBallot = s.lastInsertedBallot
  ballotNum : s'.ballotNum = s.ballotNum
  indexed : ∀ tid, (s'.wal.transferIndex tid).isSome = (s.wal.transferIndex tid).isSome

theorem Agrees.refl (s : Server) : Agrees s s := ⟨rfl, rfl, rfl, rfl, rfl, fun _ => rfl⟩

theorem Agrees.symm {s' : Server} (h : Agrees s s') : Agrees s' s :=
  ⟨h.log.symm, h.balances.symm, h.lastInserted.symm, h.lastInsertedBallot.symm, h.ballotNum.symm,
    fun tid => (h.indexed tid).symm⟩

theorem Agrees.trans {s' s'' : Server} (h : Agrees s s') (h' : Agrees s' s'') : Agrees s s'' :=
  ⟨h'.log.trans h.log, h'.balances.trans h.balances, h'.lastInserted.trans h.lastInserted,
    h'.lastInsertedBallot.trans h.lastInsertedBallot, h'.ballotNum.trans h.ballotNum,
    fun tid => (h'.indexed tid).trans (h.indexed tid)⟩

/-- A follower that has obeyed all messages of its leader: the same data, the promise of the
ballot of the running round and, in the accept phase, its request. -/
structure Follows (c : Constants) (ℓ d : Server) : Prop where
  clusterId : d.clusterId = ℓ.clusterId
  indexed : ℓ.wal.Indexed ∧ d.wal.Indexed
  connected : ℓ.iAmDisconnected = false ∧ d.iAmDisconnected = false
  log : d.log = ℓ.log
  balances : d.balances = ℓ.balances
  pending : d.wal.pending = ℓ.wal.pending
  lastInserted : d.lastInserted = ℓ.lastInserted
  lastInsertedBallot : d.lastInsertedBallot = ℓ.lastInsertedBallot
  ballotNum : d.ballotNum = ℓ.ballotNum
  promised : ℓ.awaitPrepareDecision = true → d.promised = true ∧ d.promisedNum = ℓ.promisedNum
  accepted : ℓ.awaitAcceptDecision = true → d.promisedNum.num = ℓ.acceptNum.num ∧
    d.acceptNum = ℓ.acceptNum ∧ d.acceptVal = ℓ.acceptVal
  prepared : ℓ.awaitAcceptDecision = true → ℓ.inCluster c ℓ.acceptVal.txn = 1 →
    ℓ.lastInserted = ℓ.log.length - 1 ∧ ℓ.lastInsertedBallot = ℓ.acceptNum

theorem follows_init {L F : ℤ} (disk disk' : Disk)
    (hcluster : c.getClusterIdFromServerId F = c.getClusterIdFromServerId L) :
    Follows c (init c L disk) (init c F disk') where
  clusterId := hcluster
  indexed := by
    constructor <;>
      · intro tid position h
        cases h
  connected := ⟨rfl, rfl⟩
  log := rfl
  balances := by simp only [init, hcluster]
  pending := rfl
  lastInserted := rfl
  lastInsertedBallot := rfl
  ballotNum := rfl
  promised := by
    intro h
    cases h
  accepted := by
    intro h
    cases h
  prepared := by
    intro h
    cases h

theorem Follows.agrees (h : Follows c ℓ d) : Agrees ℓ d where
  log := h.log
  balances := h.balances
  lastInserted := h.lastInserted
  lastInsertedBallot := h.lastInsertedBallot
  ballotNum := h.ballotNum
  indexed := by
    intro tid
    have hpending := congrFun h.pending tid
    have hℓ := (h.indexed.1.pending_eq_none : ℓ.wal.pending tid = none ↔ _)
    have hd := (h.indexed.2.pending_eq_none : d.wal.pending tid = none ↔ _)
    rw [hpending] at hd
    rw [Bool.eq_iff_iff, Option.isSome_iff_ne_none, Option.isSome_iff_ne_none]
    exact not_congr (hd.symm.trans hℓ)

theorem Follows.inCluster (h : Follows c ℓ d) (txn : Transaction) :
    d.inCluster c txn = ℓ.inCluster c txn := by
  have hsame : d.isClientInCluster c = ℓ.isClientInCluster c := by
    funext x
    simp [isClientInCluster, h.clusterId]
  simp only [Server.inCluster, hsame]

/-- A decision that both handle between two rounds. -/
theorem Follows.decide (h : Follows c ℓ d) (hcluster : 0 < ℓ.clusterId)
    (hacc : ℓ.awaitAcceptDecision = false) {fs' : FileSystem} (hfs : fs.working)
    (hfs' : fs'.working) (request : TpcTid) (isCommit : Bool) :
    Follows c (ℓ.processTpcDecision c fs request isCommit)
      (d.processTpcDecision c fs' request isCommit) := by
  cases hp : ℓ.wal.pending request.tid with
  | none =>
    have hp' : d.wal.pending request.tid = none := (congrFun h.pending _).trans hp
    have hcluster' : 0 < d.clusterId := by rwa [h.clusterId]
    rwa [processTpcDecision_unknown isCommit hcluster h.indexed.1 hp,
      processTpcDecision_unknown isCommit hcluster' h.indexed.2 hp']
  | some e =>
    have hp' : d.wal.pending request.tid = some e := (congrFun h.pending _).trans hp
    obtain ⟨wal, hindexed, hpending, heq⟩ :=
      processTpcDecision_found (c := c) isCommit h.connected.1 hfs h.indexed.1 hp
    obtain ⟨wal', hindexed', hpending', heq'⟩ :=
      processTpcDecision_found (c := c) isCommit h.connected.2 hfs' h.indexed.2 hp'
    have hlog : (if e.tid ≠ -1 then d.log ++ [{ e with status := decision isCommit }]
        else d.log) = if e.tid ≠ -1 then ℓ.log ++ [{ e with status := decision isCommit }]
        else ℓ.log := by rw [h.log]
    have hsame : wal'.pending = wal.pending := by rw [hpending, hpending', h.pending]
    have hbalances : clusterBalances c d.clusterId d.balances e.txn =
        clusterBalances c ℓ.clusterId ℓ.balances e.txn := by rw [h.clusterId, h.balances]
    rw [heq, heq']
    cases isCommit with
    | false =>
      exact ⟨h.clusterId, ⟨hindexed, hindexed'⟩, h.connected, hlog, h.balances, hsame,
        h.lastInserted, h.lastInsertedBallot, h.ballotNum, h.promised, h.accepted,
        fun hawait => absurd (hacc.symm.trans hawait) (by decide)⟩
    | true =>
      exact ⟨h.clusterId, ⟨hindexed, hindexed'⟩, h.connected, hlog, hbalances, hsame,
        h.lastInserted, h.lastInsertedBallot, h.ballotNum, h.promised, h.accepted,
        fun hawait => absurd (hacc.symm.trans hawait) (by decide)⟩

/-! ### The leader -/

/-- What a leader handles in its rounds: polls of transfers with both clients in the cluster and
of cross-shard prepares with exactly one, the poll of the accept phase being of the request that
began it, and replies that are not about ballots or logs. -/
def Led (c : Constants) (s : Server) : Input → Prop
  | .request (.transfer request) => s.inCluster c request.txn = 2 ∧
      (s.awaitAcceptDecision = true → s.Owns request.tid → request = s.acceptVal)
  | .request (.tpcPrepare request) => s.inCluster c request.txn = 1 ∧
      (s.awaitAcceptDecision = true → s.Owns request.tid → request = s.acceptVal)
  | .request (.balance _) | .request .logs | .request (.sync _) => True
  | .request _ => False
  | .reply (.sync _) _ _ => False
  | .reply (.prepare _) status response => status = .ok → response.Plain
  | .reply _ _ _ => True

instance (s : Server) (input : Input) : Decidable (s.Led c input) := by
  refine Input.decidable (fun r => ?_) (fun r status response => ?_) input
  · apply Request.decidable (P := fun r => s.Led c (.request r))
    all_goals
      intros
      dsimp only [Led]
      infer_instance
  · apply Request.decidable (P := fun r => s.Led c (.reply r status response))
    all_goals
      intros
      dsimp only [Led]
      infer_instance

theorem Led.poll {isCrossShard : Bool} {request : TransferReq}
    (h : s.Led c (.request (.poll isCrossShard request))) :
    s.inCluster c request.txn = (if isCrossShard then 1 else 2) ∧
      (s.awaitAcceptDecision = true → s.Owns request.tid → request = s.acceptVal) := by
  cases isCrossShard <;> exact h

/-- The leader keeps the data of the follower in step as long as it sends nothing. -/
theorem Follows.frame {ℓ' : Server} (h : Follows c ℓ d) (hcluster : ℓ'.clusterId = ℓ.clusterId)
    (hconn : ℓ'.iAmDisconnected = ℓ.iAmDisconnected) (hdata : ℓ'.data = ℓ.data)
    (hlast : ℓ'.lastInserted = ℓ.lastInserted)
    (hballot : ℓ'.lastInsertedBallot = ℓ.lastInsertedBallot) (hnum : ℓ'.ballotNum = ℓ.ballotNum)
    (hprep : ℓ'.awaitPrepareDecision = true →
      ℓ.awaitPrepareDecision = true ∧ ℓ'.promisedNum = ℓ.promisedNum)
    (hacc : ℓ'.awaitAcceptDecision = true → ℓ.awaitAcceptDecision = true ∧
      ℓ'.acceptNum = ℓ.acceptNum ∧ ℓ'.acceptVal = ℓ.acceptVal) : Follows c ℓ' d := by
  have hwal : ℓ'.wal = ℓ.wal := congrArg Data.wal hdata
  have hlog : ℓ'.log = ℓ.log := congrArg Data.log hdata
  have hbalances : ℓ'.balances = ℓ.balances := congrArg Data.balances hdata
  constructor
  · rw [hcluster, h.clusterId]
  · rw [hwal]
    exact h.indexed
  · rw [hconn]
    exact h.connected
  · rw [hlog, h.log]
  · rw [hbalances, h.balances]
  · rw [hwal, h.pending]
  · rw [hlast, h.lastInserted]
  · rw [hballot, h.lastInsertedBallot]
  · rw [hnum, h.ballotNum]
  · intro hawait
    obtain ⟨hbefore, hsame⟩ := hprep hawait
    rw [hsame]
    exact h.promised hbefore
  · intro hawait
    obtain ⟨hbefore, hacceptNum, hacceptVal⟩ := hacc hawait
    rw [hacceptNum, hacceptVal]
    exact h.accepted hbefore
  · intro hawait
    obtain ⟨hbefore, hacceptNum, hacceptVal⟩ := hacc hawait
    have hcount : ℓ'.inCluster c ℓ'.acceptVal.txn = ℓ.inCluster c ℓ.acceptVal.txn := by
      have hsame : ℓ'.isClientInCluster c = ℓ.isClientInCluster c := by
        funext x
        simp [isClientInCluster, hcluster]
      simp only [Server.inCluster, hsame, hacceptVal]
    rw [hcount, hlast, hballot, hlog, hacceptNum]
    exact h.prepared hbefore

/-- The poll that opens a round, and the promise of the follower. -/
theorem Follows.open (h : Follows c ℓ d) (hacc : ℓ.awaitAcceptDecision = false)
    (request : TransferReq) :
    d.Obeys (.prepare ⟨⟨ℓ.ballotNum + 1, ℓ.serverId⟩, ℓ.lastInserted⟩) ∧
      Follows c (ℓ.startRound request).server
        (d.after c (.prepare ⟨⟨ℓ.ballotNum + 1, ℓ.serverId⟩, ℓ.lastInserted⟩)) := by
  have hobeys : d.Obeys (.prepare ⟨⟨ℓ.ballotNum + 1, ℓ.serverId⟩, ℓ.lastInserted⟩) := by
    refine ⟨h.connected.2, ?_, h.lastInserted.symm⟩
    rw [h.ballotNum]
    dsimp only
    omega
  refine ⟨hobeys, ?_⟩
  simp only [after, proceed, processPrepareCall_of_obeys hobeys]
  exact ⟨h.clusterId, h.indexed, h.connected, h.log, h.balances, h.pending, h.lastInserted,
    h.lastInsertedBallot, rfl, fun _ => ⟨rfl, rfl⟩,
    fun hawait => absurd (hacc.symm.trans hawait) (by decide),
    fun hawait => absurd (hacc.symm.trans hawait) (by decide)⟩

theorem Follows.obeys_accept (h : Follows c ℓ d) (hawait : ℓ.awaitPrepareDecision = true)
    (request : TransferReq) : d.Obeys (.accept ⟨ℓ.promisedNum, request⟩) := by
  obtain ⟨hpromised, hnum⟩ := h.promised hawait
  exact ⟨h.connected.2, hpromised, by rw [hnum]⟩

theorem Follows.obeys_commit (h : Follows c ℓ d) (hawait : ℓ.awaitAcceptDecision = true) :
    d.Obeys (.commit ⟨ℓ.acceptNum⟩) := by
  obtain ⟨hnum, hacceptNum, -⟩ := h.accepted hawait
  exact ⟨h.connected.2, hnum, by rw [hacceptNum]⟩

theorem after_accept {request : AcceptReq} (h : s.Obeys (.accept request)) :
    s.after c (.accept request) = s.acceptRequest c .allOpen request := by
  simp only [after, proceed, processAcceptCall_of_obeys h]

theorem after_commit {request : CommitReq} (h : s.Obeys (.commit request)) :
    s.after c (.commit request) = s.releaseAccepted c .allOpen := by
  have hreleases : s.Releases request := h
  simp only [after, proceed, processCommitCall_of_releases hreleases]

/-- The accept phase of a transfer inside the cluster changes no data at either server. -/
theorem Follows.propose_intra (h : Follows c ℓ d) (hawait : ℓ.awaitPrepareDecision = true)
    {request : TransferReq} (htwo : ℓ.inCluster c request.txn = 2) :
    Follows c (({ ℓ with awaitPrepareDecision := false }).startAccept c fs request false).server
      (d.after c (.accept ⟨ℓ.promisedNum, request⟩)) := by
  obtain ⟨hpromised, hnum⟩ := h.promised hawait
  have hone : d.inCluster c request.txn ≠ 1 := by
    rw [h.inCluster, htwo]
    decide
  rw [after_accept (h.obeys_accept hawait request), acceptRequest_eq]
  simp only [startAccept, lockItems_eq, if_neg hone, Bool.false_eq_true, if_false]
  refine ⟨h.clusterId, h.indexed, h.connected, h.log, h.balances, h.pending, h.lastInserted,
    h.lastInsertedBallot, h.ballotNum, fun hawait => absurd hawait Bool.false_ne_true,
    fun _ => ⟨?_, rfl, rfl⟩, fun _ hcross => ?_⟩
  · exact congrArg Ballot.num hnum
  · exact absurd (htwo.symm.trans hcross) (by decide)

/-- The accept phase of a cross-shard transaction prepares it at both servers. -/
theorem Follows.propose_cross (h : Follows c ℓ d) (hawait : ℓ.awaitPrepareDecision = true)
    {request : TransferReq} (hone : ℓ.inCluster c request.txn = 1) (hfs : fs.working) :
    Follows c (({ ℓ with awaitPrepareDecision := false }).startAccept c fs request true).server
      (d.after c (.accept ⟨ℓ.promisedNum, request⟩)) := by
  obtain ⟨hpromised, hnum⟩ := h.promised hawait
  have hone' : d.inCluster c request.txn = 1 := by rw [h.inCluster, hone]
  obtain ⟨hindexed, hpending⟩ :=
    WAL.prepareTransaction_spec (hfs 0) h.indexed.1 request ℓ.promisedNum
  obtain ⟨hindexed', hpending'⟩ :=
    WAL.prepareTransaction_spec (FileSystem.allOpen_working 0) h.indexed.2 request ℓ.promisedNum
  have hsame : (d.wal.prepareTransaction .allOpen request ℓ.promisedNum).1.pending =
      (ℓ.wal.prepareTransaction fs request ℓ.promisedNum).1.pending := by
    rw [hpending, hpending', h.pending]
  rw [after_accept (h.obeys_accept hawait request), acceptRequest_eq]
  simp only [startAccept, lockItems_eq, if_pos hone', if_true, prepareTransaction_eq]
  refine ⟨h.clusterId, ⟨hindexed, hindexed'⟩, h.connected, ?_, h.balances, hsame, ?_, rfl,
    h.ballotNum, fun hawait => absurd hawait Bool.false_ne_true, fun _ => ⟨?_, rfl, rfl⟩,
    fun _ _ => ⟨?_, rfl⟩⟩
  · dsimp only
    rw [h.log]
  · dsimp only
    rw [h.log]
  · exact congrArg Ballot.num hnum
  · simp

/-- The end of a cross-shard prepare changes no data at the leader, and the follower only moves
`last_inserted` to where it is. -/
theorem Follows.finish (h : Follows c ℓ d) (hawait : ℓ.awaitAcceptDecision = true)
    (hone : ℓ.inCluster c ℓ.acceptVal.txn = 1) (request : TransferReq) :
    Follows c (ℓ.finishCommit fs request true).server (d.after c (.commit ⟨ℓ.acceptNum⟩)) := by
  obtain ⟨hnum, hacceptNum, hacceptVal⟩ := h.accepted hawait
  obtain ⟨hlast, hballot⟩ := h.prepared hawait hone
  have htwo : d.inCluster c d.acceptVal.txn ≠ 2 := by
    rw [h.inCluster, hacceptVal, hone]
    decide
  rw [after_commit (h.obeys_commit hawait), releaseAccepted_other htwo, finishCommit_cross]
  refine ⟨h.clusterId, h.indexed, h.connected, h.log, h.balances, h.pending, ?_, ?_, h.ballotNum,
    nofun, nofun, nofun⟩
  · dsimp only
    rw [h.log, hlast]
  · dsimp only
    rw [hacceptNum, hballot]

/-- The end of a transfer inside the cluster commits it at both servers. -/
theorem Follows.commit (h : Follows c ℓ d) (hawait : ℓ.awaitAcceptDecision = true)
    (htwo : ℓ.inCluster c ℓ.acceptVal.txn = 2) (hfs : fs.working) :
    Follows c (ℓ.finishCommit fs ℓ.acceptVal false).server
      (d.after c (.commit ⟨ℓ.acceptNum⟩)) := by
  obtain ⟨hnum, hacceptNum, hacceptVal⟩ := h.accepted hawait
  have htwo' : d.inCluster c d.acceptVal.txn = 2 := by rw [h.inCluster, hacceptVal, htwo]
  obtain ⟨hindexed, hpending, hentry⟩ :=
    WAL.commitTransaction_spec (hfs 0) h.indexed.1 ℓ.acceptVal ℓ.acceptNum
  obtain ⟨hindexed', hpending', hentry'⟩ :=
    WAL.commitTransaction_spec (FileSystem.allOpen_working 0) h.indexed.2 ℓ.acceptVal ℓ.acceptNum
  rw [after_commit (h.obeys_commit hawait), releaseAccepted_intra htwo', finishCommit_intra,
    commitTransaction_eq]
  simp only [hacceptVal, hacceptNum, hentry, hentry']
  refine ⟨h.clusterId, ⟨hindexed, hindexed'⟩, h.connected, ?_, ?_, ?_, ?_, rfl, h.ballotNum,
    nofun, nofun, nofun⟩
  · dsimp only
    rw [h.log]
  · dsimp only
    rw [h.balances]
  · dsimp only
    rw [hpending, hpending', h.pending]
  · dsimp only
    rw [h.log]

theorem startAccept_sent (request : TransferReq) (isCrossShard : Bool) :
    (s.startAccept c fs request isCrossShard).sent =
      s.broadcast (.accept ⟨s.promisedNum, request⟩) := by
  simp only [startAccept, lockItems_eq]
  rfl

theorem react_prepareReply (request : PrepareReq) (status : Status) (response : Response) :
    s.react c fs (.reply (.prepare request) status response) =
      ⟨(s.handlePrepareReply status request response.toPrepare).1, none,
        (s.handlePrepareReply status request response.toPrepare).2⟩ := by
  cases response <;> rfl

theorem react_acceptReply (request : AcceptReq) (status : Status) (response : Response) :
    s.react c fs (.reply (.accept request) status response) =
      ⟨s.handleAcceptReply status request response.toAccept, none, []⟩ := by
  cases response <;> rfl

theorem Response.Plain.toPrepare {response : Response} (h : response.Plain) :
    response.toPrepare.latestBallotNum = none ∧ response.toPrepare.lastInserted = none := by
  cases response with
  | prepare reply => exact h
  | _ => exact ⟨rfl, rfl⟩

/-- The leader sends nothing and the follower stays in step, or it sends one message to all its
peers, and a follower that obeys it stays in step. -/
def Leads (c : Constants) (ℓ d : Server) (r : Handled) : Prop :=
  (r.sent = [] ∧ Follows c r.server d) ∨
    ∃ m, r.sent = ℓ.broadcast m ∧ d.Obeys m ∧ Follows c r.server (d.after c m)

theorem Follows.poll (h : Follows c ℓ d) (isCrossShard : Bool) {request : TransferReq}
    (hled : ℓ.Led c (.request (.poll isCrossShard request))) (hfs : fs.working) :
    Leads c ℓ d (ℓ.runPaxos c fs request isCrossShard) := by
  obtain ⟨hcount, hsame⟩ := hled.poll
  have hpoll : PollResult c fs ℓ request isCrossShard _ := runPaxos_result request isCrossShard
  generalize ℓ.runPaxos c fs request isCrossShard = r at hpoll ⊢
  cases hpoll with
  | retry => exact .inl ⟨rfl, h⟩
  | opened hown hprep hacc =>
    obtain ⟨hobeys, hfollows⟩ := h.open hacc request
    exact .inr ⟨_, rfl, hobeys, hfollows⟩
  | rejected hown hprep =>
    exact .inl ⟨rfl, h.frame rfl rfl rfl rfl rfl rfl nofun fun hacc => ⟨hacc, rfl, rfl⟩⟩
  | accepting hown hprep hmaj hcond =>
    cases isCrossShard with
    | false =>
      exact .inr ⟨_, startAccept_sent request false, h.obeys_accept hprep request,
        h.propose_intra hprep hcount⟩
    | true =>
      exact .inr ⟨_, startAccept_sent request true, h.obeys_accept hprep request,
        h.propose_cross hprep hcount hfs⟩
  | committed hown hprep hacc hmaj =>
    obtain rfl := hsame hacc hown
    cases isCrossShard with
    | false => exact .inr ⟨_, rfl, h.obeys_commit hacc, h.commit hacc hcount hfs⟩
    | true => exact .inr ⟨_, rfl, h.obeys_commit hacc, h.finish hacc hcount _⟩
  | failed hown hprep hacc hmaj hfail =>
    refine .inl ⟨rfl, ?_⟩
    cases isCrossShard <;>
      exact h.frame rfl rfl rfl rfl rfl rfl (fun hp => ⟨hp, rfl⟩) nofun

/-- One handler of the leader. -/
theorem Follows.step (h : Follows c ℓ d) (hled : ℓ.Led c input) (hfs : fs.working) :
    Leads c ℓ d (ℓ.react c fs input) := by
  cases input with
  | request request =>
    cases request with
    | transfer request => exact h.poll false hled hfs
    | tpcPrepare request => exact h.poll true hled hfs
    | balance request => exact .inl ⟨rfl, h⟩
    | logs => exact .inl ⟨rfl, h⟩
    | sync request => exact .inl ⟨rfl, h⟩
    | _ => exact hled.elim
  | reply request status response =>
    cases request with
    | prepare request =>
      rw [react_prepareReply]
      have hreply := handlePrepareReply_result (s := ℓ) status request response.toPrepare
      generalize ℓ.handlePrepareReply status request response.toPrepare = result at hreply ⊢
      cases hreply with
      | ignored => exact .inl ⟨rfl, h⟩
      | failed hprep =>
        exact .inl ⟨rfl, h.frame rfl rfl rfl rfl rfl rfl (fun hp => ⟨hp, rfl⟩)
          fun hacc => ⟨hacc, rfl, rfl⟩⟩
      | counted ahead sent hprep hok hnum hid hsent hdst =>
        obtain ⟨hlatest, hlast⟩ := Response.Plain.toPrepare (hled hok)
        have hnil : sent = [] := by
          apply List.eq_nil_iff_forall_not_mem.mpr
          intro o ho
          obtain ⟨-, l, hl⟩ := hdst o ho
          rw [hlast] at hl
          cases hl
        refine .inl ⟨hnil, h.frame rfl rfl rfl rfl rfl ?_ (fun _ => ⟨hprep, rfl⟩)
          fun hacc => ⟨hacc, rfl, rfl⟩⟩
        simp [countPrepare, hlatest]
    | accept request =>
      rw [react_acceptReply]
      have hreply := handleAcceptReply_result (s := ℓ) status request response.toAccept
      generalize ℓ.handleAcceptReply status request response.toAccept = result at hreply ⊢
      cases hreply with
      | ignored => exact .inl ⟨rfl, h⟩
      | failed hacc =>
        exact .inl ⟨rfl, h.frame rfl rfl rfl rfl rfl rfl (fun hp => ⟨hp, rfl⟩)
          fun hacc => ⟨hacc, rfl, rfl⟩⟩
      | succeeded hacc hok hnum hid hack =>
        exact .inl ⟨rfl, h.frame rfl rfl rfl rfl rfl rfl (fun hp => ⟨hp, rfl⟩)
          fun hacc => ⟨hacc, rfl, rfl⟩⟩
    | sync request => exact hled.elim
    | _ => exact .inl ⟨rfl, h⟩

/-- A leader in its rounds asks nobody for a log. -/
theorem Led.sent (h : s.Led c input) {o : OutCall} (ho : o ∈ (s.react c fs input).sent)
    (q : SyncReq) : o.request ≠ .sync q := by
  have hacted : s.Acted c fs input _ := react_acted input
  rcases hacted.sent_cases ho with ⟨-, hto⟩ | ⟨-, hq | ⟨v, hq⟩ | hq⟩
  · rcases hto with ⟨request, rfl, -⟩ | ⟨request, response, rfl, -, l, hl⟩
    · exact h.elim
    · rw [(Response.Plain.toPrepare (h rfl)).2] at hl
      cases hl
  all_goals
    rw [hq]
    nofun

/-- Between two rounds a reply changes nothing. -/
theorem react_reply_idle {request : Request} (status : Status) (response : Response)
    (hsync : ∀ q, request ≠ .sync q) (hprep : s.awaitPrepareDecision = false)
    (hacc : s.awaitAcceptDecision = false) :
    s.react c fs (.reply request status response) = ⟨s, none, []⟩ := by
  cases request with
  | prepare request => simp [react_prepareReply, handlePrepareReply, hprep]
  | accept request => simp [react_acceptReply, handleAcceptReply, hacc]
  | sync request => exact absurd rfl (hsync request)
  | _ => rfl

end Server
end TpcBank
