import TpcBank.Outcomes

/-! Everything one handler of a server can do: the new state, the response and the calls it
sends, with the guards that lead there. The data of the server, which is its log, its WAL,
the balances and their stored texts, is kept apart from the fields of the protocol. -/
namespace TpcBank
open Decimal

/-- What a server reacts to: a request, or the end of a call it sent. -/
inductive Input
  | request (r : Request)
  | reply (r : Request) (status : Status) (response : Response)
  deriving DecidableEq

/-- A property of inputs is decided for the requests and for the replies. -/
def Input.decidable {P : Input → Prop} (request : ∀ r, Decidable (P (.request r)))
    (reply : ∀ r status response, Decidable (P (.reply r status response))) :
    ∀ input, Decidable (P input)
  | .request r => request r
  | .reply r status response => reply r status response

/-! The reply object of a call, which a failed call leaves as it was built. -/

def Response.toPrepare : Response → PrepareRes
  | .prepare r => r
  | _ => {}

def Response.toAccept : Response → AcceptRes
  | .accept r => r
  | _ => {}

def Response.toSync : Response → SyncRes
  | .sync r => r
  | _ => {}

theorem Response.eq_sync_of_ack {response : Response} (h : response.toSync.ack = true) :
    ∃ res, response = .sync res := by
  cases response with
  | sync res => exact ⟨res, rfl⟩
  | _ => simp [toSync] at h

/-- The request of a poll of `runPaxos`. -/
def Request.poll (isCrossShard : Bool) (request : TransferReq) : Request :=
  if isCrossShard then .tpcPrepare request else .transfer request

/-- The request that a poll works on. -/
def Request.polled : Request → Option TransferReq
  | .transfer request | .tpcPrepare request => some request
  | _ => none

@[simp] theorem Request.polled_poll (isCrossShard : Bool) (request : TransferReq) :
    (Request.poll isCrossShard request).polled = some request := by
  cases isCrossShard <;> rfl

def Request.decision (isCommit : Bool) (request : TpcTid) : Request :=
  if isCommit then .tpcCommit request else .tpcAbort request

@[simp] theorem Request.poll_eq {isCrossShard : Bool} {request : TransferReq} {r : Request} :
    Request.poll isCrossShard request = r ↔
      isCrossShard = true ∧ r = .tpcPrepare request ∨
        isCrossShard = false ∧ r = .transfer request := by
  cases isCrossShard <;> simp [poll, eq_comm]

@[simp] theorem Request.decision_eq {isCommit : Bool} {request : TpcTid} {r : Request} :
    Request.decision isCommit request = r ↔
      isCommit = true ∧ r = .tpcCommit request ∨ isCommit = false ∧ r = .tpcAbort request := by
  cases isCommit <;> simp [decision, eq_comm]

structure Data where
  wal : WAL
  log : List WALEntry
  balances : ℤ → ℤ
  db : Text → Option Text

namespace Server

def data (s : Server) : Data := ⟨s.wal, s.log, s.balances, s.db⟩

@[simp] theorem data_wal (s : Server) : s.data.wal = s.wal := rfl
@[simp] theorem data_log (s : Server) : s.data.log = s.log := rfl
@[simp] theorem data_balances (s : Server) : s.data.balances = s.balances := rfl
@[simp] theorem data_db (s : Server) : s.data.db = s.db := rfl

/-- One handler of a server. -/
def react (c : Constants) (fs : FileSystem) (s : Server) : Input → Handled
  | .request r => s.proceed c fs r
  | .reply r status response =>
      let (server, sent) := s.handleRPCResponse c fs r status response
      ⟨server, none, sent⟩

/-- Responses that promise nothing and report nothing of the log to other servers. -/
inductive Plain : Input → Response → Prop
  | empty (input : Input) (h : (∃ r, input = .request (.commit r)) ∨
      ∃ isCommit r, .request (.decision isCommit r) = input) : Plain input .empty
  | balance (request : BalanceReq) (res : BalanceRes) : Plain (.request (.balance request)) (.balance res)
  | logs (res : LogRes) : Plain (.request .logs) (.logs res)
  | accept (request : AcceptReq) :
      Plain (.request (.accept request)) (.accept ⟨false, request.ballot⟩)

inductive Acted (c : Constants) (fs : FileSystem) (s : Server) : Input → Handled → Prop
  /-- Nothing changes: a poll to be retried, a read, or a message that is ignored. -/
  | idle (input : Input) (response : Option Response) (hplain : ∀ r ∈ response, Plain input r) :
      Acted c fs s input ⟨s, response, []⟩
  | opened (isCrossShard : Bool) (request : TransferReq) (hown : s.Owns request.tid)
      (hprep : s.awaitPrepareDecision = false) (hacc : s.awaitAcceptDecision = false) :
      Acted c fs s (.request (.poll isCrossShard request)) (s.startRound request)
  | rejected (isCrossShard : Bool) (request : TransferReq) (hown : s.Owns request.tid)
      (hprep : s.awaitPrepareDecision = true) :
      Acted c fs s (.request (.poll isCrossShard request))
        ⟨{ s with awaitPrepareDecision := false, isPaxosRunning := false, paxosTid := -1 },
          transferRes false request.tid, []⟩
  | accepting (isCrossShard : Bool) (request : TransferReq) (d : Data)
      (hown : s.Owns request.tid) (hprep : s.awaitPrepareDecision = true)
      (hmaj : majority ≤ s.prepareSuccesses) (hcond : s.conditionsNotMet c request.txn = false)
      (hd : d = if isCrossShard then (s.prepareTransaction fs request s.promisedNum).data
        else s.data) :
      Acted c fs s (.request (.poll isCrossShard request))
        ⟨{ s with
            wal := d.wal
            log := d.log
            balances := d.balances
            db := d.db
            awaitPrepareDecision := false
            locks := insert request.txn.receiver (s.locks ∪ c.items s.clusterId request.txn)
            accepted := true
            acceptNum := s.promisedNum
            acceptVal := request
            awaitAcceptDecision := true
            acceptSuccesses := 1
            acceptFailures := 0
            lastInserted := if isCrossShard then s.log.length else s.lastInserted
            lastInsertedBallot := if isCrossShard then s.promisedNum else s.lastInsertedBallot },
          none, s.broadcast (.accept ⟨s.promisedNum, request⟩)⟩
  | finished (request : TransferReq) (hown : s.Owns request.tid)
      (hprep : s.awaitPrepareDecision = false) (hacc : s.awaitAcceptDecision = true)
      (hmaj : majority ≤ s.acceptSuccesses) :
      Acted c fs s (.request (.tpcPrepare request))
        ⟨{ s with
            promised := false
            accepted := false
            awaitPrepareDecision := false
            awaitAcceptDecision := false
            isPaxosRunning := false
            paxosTid := -1 },
          transferRes true request.tid, s.broadcast (.commit ⟨s.acceptNum⟩)⟩
  | committed (request : TransferReq) (d : Data) (hown : s.Owns request.tid)
      (hprep : s.awaitPrepareDecision = false) (hacc : s.awaitAcceptDecision = true)
      (hmaj : majority ≤ s.acceptSuccesses)
      (hd : d = (s.commitTransaction fs request s.acceptNum).data) :
      Acted c fs s (.request (.transfer request))
        ⟨{ s with
            wal := d.wal
            log := d.log
            balances := d.balances
            db := d.db
            locks := (s.locks.erase request.txn.sender).erase request.txn.receiver
            lastInserted := s.log.length
            lastInsertedBallot := s.acceptNum
            promised := false
            accepted := false
            awaitPrepareDecision := false
            awaitAcceptDecision := false
            isPaxosRunning := false
            paxosTid := -1 },
          transferRes true request.tid, s.broadcast (.commit ⟨s.acceptNum⟩)⟩
  | failed (isCrossShard : Bool) (request : TransferReq) (hown : s.Owns request.tid)
      (hprep : s.awaitPrepareDecision = false) (hacc : s.awaitAcceptDecision = true)
      (hmaj : ¬ majority ≤ s.acceptSuccesses) (hfail : majority ≤ s.acceptFailures) :
      Acted c fs s (.request (.poll isCrossShard request))
        ⟨{ s with
            awaitAcceptDecision := false
            isPaxosRunning := false
            paxosTid := -1
            locks := if isCrossShard then s.locks
              else (s.locks.erase request.txn.sender).erase request.txn.receiver },
          transferRes false request.tid, []⟩
  | promised (request : PrepareReq) (hconn : s.iAmDisconnected = false)
      (hnum : s.ballotNum < request.ballot.num) (hlast : request.lastInserted = s.lastInserted) :
      Acted c fs s (.request (.prepare request))
        ⟨{ s with
            promised := true
            promisedNum := request.ballot
            ballotNum := request.ballot.num },
          some (.prepare {
            ack := true
            ballot := request.ballot
            acceptNum := if s.accepted then some s.acceptNum else none
            acceptVal := if s.accepted then some s.acceptVal else none }), []⟩
  | refused (request : PrepareReq) (inSync : Bool) (res : PrepareRes) (sent : List OutCall)
      (hack : res.ack = false) (hballot : res.ballot = request.ballot)
      (hlatest : ∀ num ∈ res.latestBallotNum, num = s.ballotNum ∧ request.ballot.num ≤ num)
      (hsent : ∀ o ∈ sent, o.request = .sync ⟨s.lastInserted⟩ ∧
        o.dst = request.ballot.serverId ∧ s.lastInserted < request.lastInserted)
      (hserver : ∀ l ∈ res.lastInserted, res.serverId = some s.serverId) :
      Acted c fs s (.request (.prepare request)) ⟨{ s with inSync }, some (.prepare res), sent⟩
  | accepted (request : AcceptReq) (d : Data) (hconn : s.iAmDisconnected = false)
      (hprom : s.promised = true) (hnum : request.ballot.num = s.promisedNum.num)
      (hd : d = if s.inCluster c request.r.txn = 1
        then (s.prepareTransaction fs request.r request.ballot).data else s.data) :
      Acted c fs s (.request (.accept request))
        ⟨{ s with
            wal := d.wal
            log := d.log
            balances := d.balances
            db := d.db
            accepted := true
            acceptNum := request.ballot
            acceptVal := request.r
            locks := s.locks ∪ c.items s.clusterId request.r.txn
            lastInserted := if s.inCluster c request.r.txn = 1 then s.log.length else s.lastInserted
            lastInsertedBallot := if s.inCluster c request.r.txn = 1 then request.ballot
              else s.lastInsertedBallot },
          some (.accept ⟨true, request.ballot⟩), []⟩
  | released (request : CommitReq) (d : Data) (hconn : s.iAmDisconnected = false)
      (hprom : s.promisedNum.num = request.ballot.num)
      (hacc : s.acceptNum.num = request.ballot.num)
      (hd : d = if s.inCluster c s.acceptVal.txn = 2
        then (s.commitTransaction fs s.acceptVal s.acceptNum).data else s.data) :
      Acted c fs s (.request (.commit request))
        ⟨{ s with
            wal := d.wal
            log := d.log
            balances := d.balances
            db := d.db
            locks := s.locks \ c.items s.clusterId s.acceptVal.txn
            lastInserted := if s.inCluster c s.acceptVal.txn = 2 then s.log.length
              else s.log.length - 1
            lastInsertedBallot := s.acceptNum
            promised := false
            accepted := false },
          some .empty, []⟩
  | decided (isCommit : Bool) (request : TpcTid) (d : Data) (locks : Finset ℤ)
      (hconn : s.iAmDisconnected = false)
      (hd : d = (s.processTpcDecision c fs request isCommit).data)
      (hlocks : locks = (s.processTpcDecision c fs request isCommit).locks) :
      Acted c fs s (.request (.decision isCommit request))
        ⟨{ s with wal := d.wal, log := d.log, balances := d.balances, db := d.db, locks := locks },
          some .empty, []⟩
  | answered (request : SyncReq) :
      Acted c fs s (.request (.sync request)) ⟨s, some (.sync (s.processSyncCall request)), []⟩
  | disconnected (request : DisconnectReq) (iAmDisconnected : Bool) :
      Acted c fs s (.request (.disconnect request)) ⟨{ s with iAmDisconnected }, some .empty, []⟩
  | prepareFailed (request : PrepareReq) (status : Status) (response : Response)
      (hprep : s.awaitPrepareDecision = true) :
      Acted c fs s (.reply (.prepare request) status response)
        ⟨{ s with prepareFailures := s.prepareFailures + 1 }, none, []⟩
  | prepareCounted (request : PrepareReq) (response : Response) (ahead : Bool)
      (sent : List OutCall) (hprep : s.awaitPrepareDecision = true)
      (hnum : response.toPrepare.ballot.num = s.promisedNum.num)
      (hid : response.toPrepare.ballot.serverId = s.serverId)
      (hsent : ∀ o ∈ sent, o.request = .sync ⟨s.lastInserted⟩)
      (hdst : ∀ o ∈ sent, o.dst = response.toPrepare.serverId.getD 0 ∧
        ∃ l, l ∈ response.toPrepare.lastInserted) :
      Acted c fs s (.reply (.prepare request) .ok response)
        ⟨s.countPrepare response.toPrepare ahead, none, sent⟩
  | acceptFailed (request : AcceptReq) (status : Status) (response : Response)
      (hacc : s.awaitAcceptDecision = true) :
      Acted c fs s (.reply (.accept request) status response)
        ⟨{ s with acceptFailures := s.acceptFailures + 1 }, none, []⟩
  | acceptCounted (request : AcceptReq) (response : Response)
      (hacc : s.awaitAcceptDecision = true)
      (hnum : response.toAccept.ballot.num = s.acceptNum.num)
      (hid : response.toAccept.ballot.serverId = s.serverId)
      (hack : response.toAccept.ack = true) :
      Acted c fs s (.reply (.accept request) .ok response)
        ⟨{ s with acceptSuccesses := s.acceptSuccesses + 1 }, none, []⟩
  | synced (request : SyncReq) (response : SyncRes) (d : Data) (hack : response.ack = true)
      (hd : d = (s.syncEntries c fs 0 response.logs).data) :
      Acted c fs s (.reply (.sync request) .ok (.sync response))
        ⟨{ s with
            wal := d.wal
            log := d.log
            balances := d.balances
            db := d.db
            ballotNum := response.lastInsertedBallot.num
            lastInserted := s.lastInserted + response.logs.length
            lastInsertedBallot := response.lastInsertedBallot
            inSync := false }, none, []⟩
  | syncRefused (request : SyncReq) (status : Status) (response : Response)
      (hack : status = .ok → response.toSync.ack = false) :
      Acted c fs s (.reply (.sync request) status response) ⟨{ s with inSync := false }, none, []⟩

variable {c : Constants} {fs : FileSystem} {s : Server}

theorem runPaxos_acted (isCrossShard : Bool) (request : TransferReq) :
    Acted c fs s (.request (.poll isCrossShard request)) (s.runPaxos c fs request isCrossShard) := by
  have h : PollResult c fs s request isCrossShard _ := runPaxos_result request isCrossShard
  generalize s.runPaxos c fs request isCrossShard = result at h ⊢
  cases h with
  | retry => exact .idle _ none (by simp)
  | opened hown hprep hacc => exact .opened isCrossShard request hown hprep hacc
  | rejected hown hprep => exact .rejected isCrossShard request hown hprep
  | accepting hown hprep hmaj hcond =>
    have h : Acted c fs s _ _ := .accepting isCrossShard request _ hown hprep hmaj hcond rfl
    convert h using 1
    simp only [startAccept, lockItems_eq]
    cases isCrossShard <;> rfl
  | committed hown hprep hacc hmaj =>
    cases isCrossShard with
    | true => exact .finished request hown hprep hacc hmaj
    | false =>
      have h : Acted c fs s _ _ := .committed request _ hown hprep hacc hmaj rfl
      show Acted c fs s (.request (.transfer request)) (s.finishCommit fs request false)
      convert h using 1
      simp only [finishCommit, unlockBoth_eq, commitTransaction_eq]
      rfl
  | failed hown hprep hacc hmaj hfail =>
    have h : Acted c fs s _ _ := .failed isCrossShard request hown hprep hacc hmaj hfail
    convert h using 1
    cases isCrossShard <;> rfl

theorem processPrepareCall_acted (request : PrepareReq) :
    Acted c fs s (.request (.prepare request)) (s.processPrepareCall request) := by
  have h := processPrepareCall_result (s := s) request
  generalize s.processPrepareCall request = result at h ⊢
  cases h with
  | promised hconn hnum hlast => exact .promised request hconn hnum hlast
  | refused inSync res sent hack hballot hlatest hsent hserver =>
    exact .refused request inSync res sent hack hballot hlatest hsent hserver

theorem processAcceptCall_acted (request : AcceptReq) :
    Acted c fs s (.request (.accept request)) (s.processAcceptCall c fs request) := by
  have h : AcceptResult c fs s request _ := processAcceptCall_result request
  generalize s.processAcceptCall c fs request = result at h ⊢
  cases h with
  | accepted hconn hprom hnum =>
    have h : Acted c fs s _ _ := .accepted request _ hconn hprom hnum rfl
    convert h using 1
    rw [acceptRequest_eq]
    dsimp only
    split_ifs <;> rfl
  | refused => exact .idle _ _ (by simpa using Plain.accept request)

theorem processCommitCall_acted (request : CommitReq) :
    Acted c fs s (.request (.commit request)) ⟨s.processCommitCall c fs request, some .empty, []⟩ := by
  have h : CommitResult c fs s request _ := processCommitCall_result request
  generalize s.processCommitCall c fs request = result at h ⊢
  cases h with
  | released hconn hprom hacc =>
    have h : Acted c fs s _ _ := .released request _ hconn hprom hacc rfl
    convert h using 1
    by_cases htwo : s.inCluster c s.acceptVal.txn = 2
    · rw [releaseAccepted_intra htwo]
      simp only [htwo, if_true, commitTransaction_eq]
      rfl
    · rw [releaseAccepted_other htwo]
      simp only [htwo, if_false]
      rfl
  | ignored => exact .idle _ _ (by simpa using Plain.empty _ (.inl ⟨request, rfl⟩))

theorem processTpcDecision_acted (isCommit : Bool) (request : TpcTid) :
    Acted c fs s (.request (.decision isCommit request))
      ⟨s.processTpcDecision c fs request isCommit, some .empty, []⟩ := by
  by_cases hconn : s.iAmDisconnected = true
  · rw [processTpcDecision_disconnected request isCommit hconn]
    exact .idle _ _ (by simpa using Plain.empty _ (.inr ⟨isCommit, request, rfl⟩))
  · have hconn : s.iAmDisconnected = false := by simpa using hconn
    have h : Acted c fs s _ _ := .decided isCommit request _ _ hconn rfl rfl
    convert h using 1
    rw [processTpcDecision_eq request isCommit hconn]
    cases isCommit <;> rfl

theorem handlePrepareReply_acted (request : PrepareReq) (status : Status) (response : Response) :
    Acted c fs s (.reply (.prepare request) status response)
      ⟨(s.handlePrepareReply status request response.toPrepare).1, none,
        (s.handlePrepareReply status request response.toPrepare).2⟩ := by
  have h := handlePrepareReply_result (s := s) status request response.toPrepare
  generalize s.handlePrepareReply status request response.toPrepare = result at h ⊢
  cases h with
  | ignored => exact .idle _ none (by simp)
  | failed hprep => exact .prepareFailed request status response hprep
  | counted ahead sent hprep hok hnum hid hsent hdst =>
    subst hok
    exact .prepareCounted request response ahead sent hprep hnum hid hsent hdst

theorem handleAcceptReply_acted (request : AcceptReq) (status : Status) (response : Response) :
    Acted c fs s (.reply (.accept request) status response)
      ⟨s.handleAcceptReply status request response.toAccept, none, []⟩ := by
  have h := handleAcceptReply_result (s := s) status request response.toAccept
  generalize s.handleAcceptReply status request response.toAccept = result at h ⊢
  cases h with
  | ignored => exact .idle _ none (by simp)
  | failed hacc => exact .acceptFailed request status response hacc
  | succeeded hacc hok hnum hid hack =>
    subst hok
    exact .acceptCounted request response hacc hnum hid hack

theorem syncEntries_eq (i : ℕ) (logs : List LogEntry) :
    s.syncEntries c fs i logs =
      { s with
        wal := (s.syncEntries c fs i logs).wal
        log := (s.syncEntries c fs i logs).log
        balances := (s.syncEntries c fs i logs).balances
        db := (s.syncEntries c fs i logs).db } := by
  induction logs generalizing i s with
  | nil => rfl
  | cons e logs ih =>
    rw [syncEntries, ih, syncEntry_eq]
    dsimp only
    split_ifs <;> rfl

theorem handleSyncReply_acted (request : SyncReq) (status : Status) (response : Response) :
    Acted c fs s (.reply (.sync request) status response)
      ⟨s.handleSyncReply c fs status response.toSync, none, []⟩ := by
  by_cases hack : status = .ok ∧ response.toSync.ack = true
  · obtain ⟨rfl, hack⟩ := hack
    obtain ⟨res, rfl⟩ := Response.eq_sync_of_ack hack
    have h : Acted c fs s _ _ := .synced request res _ hack rfl
    convert h using 1
    have hack : res.ack = true := hack
    simp only [handleSyncReply, Response.toSync, hack, and_self, if_true]
    rw [syncEntries_eq]
    rfl
  · have h : Acted c fs s _ _ := .syncRefused request status response (by simpa using hack)
    convert h using 1
    simp only [handleSyncReply, hack, if_false]

/-- Every handler does one of these things. -/
theorem react_acted (input : Input) : Acted c fs s input (s.react c fs input) := by
  cases input with
  | request r =>
    cases r with
    | tpcPrepare r => exact runPaxos_acted true r
    | tpcCommit r => exact processTpcDecision_acted true r
    | tpcAbort r => exact processTpcDecision_acted false r
    | transfer r => exact runPaxos_acted false r
    | balance r => exact .idle _ _ (by simpa using Plain.balance r _)
    | logs => exact .idle _ _ (by simpa using Plain.logs _)
    | prepare r => exact processPrepareCall_acted r
    | accept r => exact processAcceptCall_acted r
    | commit r => exact processCommitCall_acted r
    | sync r => exact .answered r
    | disconnect r => exact .disconnected r _
  | reply r status response =>
    cases r with
    | prepare r =>
      have h : Acted c fs s _ _ := handlePrepareReply_acted r status response
      cases response <;> exact h
    | accept r =>
      have h : Acted c fs s _ _ := handleAcceptReply_acted r status response
      cases response <;> exact h
    | sync r =>
      have h : Acted c fs s _ _ := handleSyncReply_acted r status response
      cases response <;> exact h
    | _ => exact .idle _ none (by simp)

/-- A server awaits at most one decision, and only while it runs a round. -/
structure Phases (s : Server) : Prop where
  prepare : s.awaitPrepareDecision = true → s.isPaxosRunning = true
  accept : s.awaitAcceptDecision = true → s.isPaxosRunning = true
  one : s.awaitPrepareDecision = true → s.awaitAcceptDecision = false

theorem Acted.phases {input : Input} {r : Handled} (h : Acted c fs s input r) (hs : s.Phases) : r.server.Phases := by
  obtain ⟨hprepare, haccept, hone⟩ := hs
  cases h with
  | opened isCrossShard request hown hprep hacc => exact ⟨fun _ => rfl, fun _ => rfl, fun _ => hacc⟩
  | rejected isCrossShard request hown hprep =>
    refine ⟨nofun, fun h => ?_, nofun⟩
    have h : s.awaitAcceptDecision = true := h
    rw [hone hprep] at h
    cases h
  | accepting isCrossShard request d hown hprep =>
    exact ⟨nofun, fun _ => hprepare hprep, nofun⟩
  | finished => exact ⟨nofun, nofun, nofun⟩
  | committed => exact ⟨nofun, nofun, nofun⟩
  | failed isCrossShard request hown hprep =>
    refine ⟨fun h => ?_, nofun, fun _ => rfl⟩
    have h : s.awaitPrepareDecision = true := h
    rw [hprep] at h
    cases h
  | prepareCounted request response ahead sent hprep =>
    exact ⟨fun _ => hprepare hprep, haccept, fun _ => hone hprep⟩
  | _ => exact ⟨hprepare, haccept, hone⟩

end Server
end TpcBank
