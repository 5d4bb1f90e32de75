import TpcBank.Handlers

/-! The outcomes of the handlers with several branches, one constructor for each branch with
the guards that lead to it. -/
namespace TpcBank
namespace Server

variable {c : Constants} {fs : FileSystem} {s : Server}

/-- A poll goes on with the round of its own tid. -/
def Owns (s : Server) (tid : ℤ) : Prop :=
  s.inSync = false ∧ (s.isPaxosRunning = true → s.paxosTid = tid)

instance (tid : ℤ) : Decidable (s.Owns tid) :=
  inferInstanceAs (Decidable (_ ∧ _))

/-- A poll that goes on to the accept phase. -/
def Proposes (c : Constants) (s : Server) (request : TransferReq) : Prop :=
  s.Owns request.tid ∧ s.awaitPrepareDecision = true ∧ majority ≤ s.prepareSuccesses ∧
    s.conditionsNotMet c request.txn = false

instance (c : Constants) (s : Server) (request : TransferReq) : Decidable (s.Proposes c request) :=
  inferInstanceAs (Decidable (_ ∧ _))

/-- A poll that finds a majority of accepts. -/
def Commits (s : Server) (request : TransferReq) : Prop :=
  s.Owns request.tid ∧ s.awaitPrepareDecision = false ∧ s.awaitAcceptDecision = true ∧
    majority ≤ s.acceptSuccesses

instance (s : Server) (request : TransferReq) : Decidable (s.Commits request) :=
  inferInstanceAs (Decidable (_ ∧ _))

/-- A poll that finds a majority of accept failures first. -/
def Fails (s : Server) (request : TransferReq) : Prop :=
  s.Owns request.tid ∧ s.awaitPrepareDecision = false ∧ s.awaitAcceptDecision = true ∧
    ¬ majority ≤ s.acceptSuccesses ∧ majority ≤ s.acceptFailures

instance (s : Server) (request : TransferReq) : Decidable (s.Fails request) :=
  inferInstanceAs (Decidable (_ ∧ _))

/-- What a poll of `runPaxos` does. -/
inductive PollResult (c : Constants) (fs : FileSystem) (s : Server) (request : TransferReq)
    (isCrossShard : Bool) : Handled → Prop
  | retry : PollResult c fs s request isCrossShard ⟨s, none, []⟩
  | opened (hown : s.Owns request.tid) (hprep : s.awaitPrepareDecision = false)
      (hacc : s.awaitAcceptDecision = false) :
      PollResult c fs s request isCrossShard (s.startRound request)
  | rejected (hown : s.Owns request.tid) (hprep : s.awaitPrepareDecision = true) :
      PollResult c fs s request isCrossShard
        ⟨({ s with awaitPrepareDecision := false }).endPaxos, transferRes false request.tid, []⟩
  | accepting (hown : s.Owns request.tid) (hprep : s.awaitPrepareDecision = true)
      (hmaj : majority ≤ s.prepareSuccesses) (hcond : s.conditionsNotMet c request.txn = false) :
      PollResult c fs s request isCrossShard
        (({ s with awaitPrepareDecision := false }).startAccept c fs request isCrossShard)
  | committed (hown : s.Owns request.tid) (hprep : s.awaitPrepareDecision = false)
      (hacc : s.awaitAcceptDecision = true) (hmaj : majority ≤ s.acceptSuccesses) :
      PollResult c fs s request isCrossShard (s.finishCommit fs request isCrossShard)
  | failed (hown : s.Owns request.tid) (hprep : s.awaitPrepareDecision = false)
      (hacc : s.awaitAcceptDecision = true) (hmaj : ¬ majority ≤ s.acceptSuccesses)
      (hfail : majority ≤ s.acceptFailures) :
      PollResult c fs s request isCrossShard
        ⟨if isCrossShard then ({ s with awaitAcceptDecision := false }).endPaxos
          else (({ s with awaitAcceptDecision := false }).endPaxos).unlockBoth request.txn,
          transferRes false request.tid, []⟩

theorem runPaxos_result (request : TransferReq) (isCrossShard : Bool) :
    PollResult c fs s request isCrossShard (s.runPaxos c fs request isCrossShard) := by
  unfold runPaxos
  by_cases hsync : s.inSync = true
  · rw [if_pos hsync]
    exact .retry
  by_cases htid : (s.isPaxosRunning && decide (s.paxosTid ≠ request.tid)) = true
  · rw [if_neg hsync, if_pos htid]
    exact .retry
  have hown : s.Owns request.tid := by
    refine ⟨by simpa using hsync, fun hrun => ?_⟩
    by_contra hne
    simp [hrun, hne] at htid
  rw [if_neg hsync, if_neg htid]
  by_cases hprep : s.awaitPrepareDecision = true
  · simp only [hprep, Bool.not_true, Bool.false_and, Bool.false_eq_true, if_false, if_true]
    unfold pollPrepare
    by_cases hmaj : majority ≤ s.prepareSuccesses
    · rw [if_pos hmaj]
      cases hcond : s.conditionsNotMet c request.txn with
      | true =>
        rw [if_pos (by exact hcond)]
        exact .rejected hown hprep
      | false =>
        have hneg : ¬ ({ s with awaitPrepareDecision := false }).conditionsNotMet c request.txn = true := by
          intro h
          exact absurd (hcond.symm.trans h) (by decide)
        rw [if_neg hneg]
        exact .accepting hown hprep hmaj hcond
    · rw [if_neg hmaj]
      by_cases hfail : majority ≤ s.prepareFailures
      · rw [if_pos hfail]
        exact .rejected hown hprep
      · rw [if_neg hfail]
        exact .retry
  · have hprep : s.awaitPrepareDecision = false := by simpa using hprep
    by_cases hacc : s.awaitAcceptDecision = true
    · simp only [hprep, hacc, Bool.not_true, Bool.and_false, Bool.false_eq_true, if_false]
      unfold pollAccept
      by_cases hmaj : majority ≤ s.acceptSuccesses
      · rw [if_pos hmaj]
        exact .committed hown hprep hacc hmaj
      · rw [if_neg hmaj]
        by_cases hfail : majority ≤ s.acceptFailures
        · rw [if_pos hfail]
          exact .failed hown hprep hacc hmaj hfail
        · rw [if_neg hfail]
          exact .retry
    · have hacc : s.awaitAcceptDecision = false := by simpa using hacc
      simp only [hprep, hacc, Bool.not_false, Bool.and_self, if_true]
      exact .opened hown hprep hacc

theorem runPaxos_of_proposes {request : TransferReq} (h : s.Proposes c request)
    (isCrossShard : Bool) :
    s.runPaxos c fs request isCrossShard =
      ({ s with awaitPrepareDecision := false }).startAccept c fs request isCrossShard := by
  obtain ⟨⟨hsync, htid⟩, hprep, hmaj, hcond⟩ := h
  unfold runPaxos
  rw [if_neg (by simp [hsync]), if_neg (by simpa using htid), if_neg (by simp [hprep]),
    if_pos hprep]
  unfold pollPrepare
  rw [if_pos hmaj]
  have hneg : ¬ ({ s with awaitPrepareDecision := false }).conditionsNotMet c request.txn = true := by
    intro h
    exact absurd (hcond.symm.trans h) (by decide)
  rw [if_neg hneg]

theorem runPaxos_of_commits {request : TransferReq} (h : s.Commits request) (isCrossShard : Bool) :
    s.runPaxos c fs request isCrossShard = s.finishCommit fs request isCrossShard := by
  obtain ⟨⟨hsync, htid⟩, hprep, hacc, hmaj⟩ := h
  unfold runPaxos
  rw [if_neg (by simp [hsync]), if_neg (by simpa using htid), if_neg (by simp [hprep, hacc]),
    if_neg (by simp [hprep])]
  unfold pollAccept
  rw [if_pos hmaj]

theorem runPaxos_of_fails {request : TransferReq} (h : s.Fails request) (isCrossShard : Bool) :
    s.runPaxos c fs request isCrossShard =
      ⟨if isCrossShard then ({ s with awaitAcceptDecision := false }).endPaxos
        else (({ s with awaitAcceptDecision := false }).endPaxos).unlockBoth request.txn,
        transferRes false request.tid, []⟩ := by
  obtain ⟨⟨hsync, htid⟩, hprep, hacc, hmaj, hfail⟩ := h
  unfold runPaxos
  rw [if_neg (by simp [hsync]), if_neg (by simpa using htid), if_neg (by simp [hprep, hacc]),
    if_neg (by simp [hprep])]
  unfold pollAccept
  rw [if_neg hmaj, if_pos hfail]

/-- The promise a follower gives. -/
def promise (s : Server) (request : PrepareReq) : Server :=
  { s with promised := true, promisedNum := request.ballot, ballotNum := request.ballot.num }

/-- What `processPrepareCall` does. -/
inductive PrepareResult (s : Server) (request : PrepareReq) : Handled → Prop
  | promised (hconn : s.iAmDisconnected = false) (hnum : s.ballotNum < request.ballot.num)
      (hlast : request.lastInserted = s.lastInserted) :
      PrepareResult s request ⟨s.promise request, some (.prepare {
        ack := true
        ballot := request.ballot
        acceptNum := if s.accepted then some s.acceptNum else none
        acceptVal := if s.accepted then some s.acceptVal else none }), []⟩
  | refused (inSync : Bool) (res : PrepareRes) (sent : List OutCall) (hack : res.ack = false)
      (hballot : res.ballot = request.ballot)
      (hlatest : ∀ num ∈ res.latestBallotNum, num = s.ballotNum ∧ request.ballot.num ≤ num)
      (hsent : ∀ o ∈ sent, o.request = .sync ⟨s.lastInserted⟩ ∧
        o.dst = request.ballot.serverId ∧ s.lastInserted < request.lastInserted)
      (hserver : ∀ l ∈ res.lastInserted, res.serverId = some s.serverId) :
      PrepareResult s request ⟨{ s with inSync }, some (.prepare res), sent⟩

theorem processPrepareCall_result (request : PrepareReq) :
    PrepareResult s request (s.processPrepareCall request) := by
  unfold processPrepareCall
  by_cases hconn : s.iAmDisconnected = true
  · rw [if_pos hconn]
    exact .refused s.inSync { ballot := request.ballot } [] rfl rfl (by simp) (by simp) (by simp)
  rw [if_neg hconn]
  by_cases hok : s.ballotNum < request.ballot.num ∧ request.lastInserted = s.lastInserted
  · rw [if_pos hok]
    exact .promised (by simpa using hconn) hok.1 hok.2
  · rw [if_neg hok]
    refine .refused _ _ _ rfl rfl ?_ ?_ fun _ _ => rfl
    · intro num hnum
      by_cases hle : request.ballot.num ≤ s.ballotNum
      · simp only [hle, if_true, Option.mem_def, Option.some.injEq] at hnum
        exact ⟨hnum.symm, hnum ▸ hle⟩
      · simp [hle] at hnum
    · intro o ho
      by_cases hb : s.ballotNum < request.ballot.num ∧ s.lastInserted < request.lastInserted
      · simp only [hb, and_self, decide_true, if_true, List.mem_singleton] at ho
        subst ho
        exact ⟨rfl, rfl, hb.2⟩
      · simp [hb] at ho

/-- What `processAcceptCall` does. -/
inductive AcceptResult (c : Constants) (fs : FileSystem) (s : Server) (request : AcceptReq) :
    Handled → Prop
  | accepted (hconn : s.iAmDisconnected = false) (hprom : s.promised = true)
      (hnum : request.ballot.num = s.promisedNum.num) :
      AcceptResult c fs s request
        ⟨s.acceptRequest c fs request, some (.accept ⟨true, request.ballot⟩), []⟩
  | refused : AcceptResult c fs s request ⟨s, some (.accept ⟨false, request.ballot⟩), []⟩

theorem processAcceptCall_result (request : AcceptReq) :
    AcceptResult c fs s request (s.processAcceptCall c fs request) := by
  unfold processAcceptCall
  by_cases hconn : s.iAmDisconnected = true
  · rw [if_pos hconn]
    exact .refused
  rw [if_neg hconn]
  by_cases hok : s.promised = true ∧ request.ballot.num = s.promisedNum.num
  · rw [if_pos hok]
    exact .accepted (by simpa using hconn) hok.1 hok.2
  · rw [if_neg hok]
    exact .refused

/-- The server that accepted a request: its items are locked, and a transaction with one
client in the cluster is prepared. -/
theorem acceptRequest_eq (request : AcceptReq) :
    s.acceptRequest c fs request =
      let s' := { s with
        accepted := true
        acceptNum := request.ballot
        acceptVal := request.r
        locks := s.locks ∪ c.items s.clusterId request.r.txn }
      if s.inCluster c request.r.txn = 1 then s'.prepareTransaction fs request.r request.ballot
      else s' := by
  unfold acceptRequest
  simp only [lockInCluster_eq]
  rfl

/-- A Commit that releases the accepted transaction. -/
def Releases (s : Server) (request : CommitReq) : Prop :=
  s.iAmDisconnected = false ∧ s.promisedNum.num = request.ballot.num ∧
    s.acceptNum.num = request.ballot.num

instance (s : Server) (request : CommitReq) : Decidable (s.Releases request) :=
  inferInstanceAs (Decidable (_ ∧ _))

/-- What `processCommitCall` does. -/
inductive CommitResult (c : Constants) (fs : FileSystem) (s : Server) (request : CommitReq) :
    Server → Prop
  | released (hconn : s.iAmDisconnected = false) (hprom : s.promisedNum.num = request.ballot.num)
      (hacc : s.acceptNum.num = request.ballot.num) :
      CommitResult c fs s request (s.releaseAccepted c fs)
  | ignored : CommitResult c fs s request s

theorem processCommitCall_result (request : CommitReq) :
    CommitResult c fs s request (s.processCommitCall c fs request) := by
  unfold processCommitCall
  by_cases hconn : s.iAmDisconnected = true
  · rw [if_pos hconn]
    exact .ignored
  rw [if_neg hconn]
  by_cases hok : s.promisedNum.num = request.ballot.num ∧ s.acceptNum.num = request.ballot.num
  · rw [if_pos hok]
    exact .released (by simpa using hconn) hok.1 hok.2
  · rw [if_neg hok]
    exact .ignored

theorem processCommitCall_of_releases {request : CommitReq} (h : s.Releases request) :
    s.processCommitCall c fs request = s.releaseAccepted c fs := by
  obtain ⟨hconn, hprom, hacc⟩ := h
  unfold processCommitCall
  rw [if_neg (by simp [hconn]), if_pos ⟨hprom, hacc⟩]

/-- Releasing a transaction of the cluster commits it. -/
theorem releaseAccepted_intra (h : s.inCluster c s.acceptVal.txn = 2) :
    s.releaseAccepted c fs =
      { ({ s with locks := s.locks \ c.items s.clusterId s.acceptVal.txn }).commitTransaction fs
          s.acceptVal s.acceptNum with
        promised := false
        accepted := false } := by
  have h' : ∀ locks last ballot, ({ s with
      locks := locks, lastInserted := last, lastInsertedBallot := ballot } : Server).inCluster c
        s.acceptVal.txn = 2 := fun _ _ _ => h
  unfold releaseAccepted
  simp only [unlockInCluster_eq, h', if_true, commitTransaction_eq]

/-- Releasing any other transaction only unlocks its items and moves `last_inserted`. -/
theorem releaseAccepted_other (h : s.inCluster c s.acceptVal.txn ≠ 2) :
    s.releaseAccepted c fs =
      { s with
        locks := s.locks \ c.items s.clusterId s.acceptVal.txn
        lastInserted := s.log.length - 1
        lastInsertedBallot := s.acceptNum
        promised := false
        accepted := false } := by
  have h' : ∀ locks last ballot, ({ s with
      locks := locks, lastInserted := last, lastInsertedBallot := ballot } : Server).inCluster c
        s.acceptVal.txn ≠ 2 := fun _ _ _ => h
  unfold releaseAccepted
  simp only [unlockInCluster_eq, h', if_false]

/-- The server after a counted reply to its Prepare. -/
def countPrepare (s : Server) (response : PrepareRes) (ahead : Bool) : Server :=
  { s with
    prepareSuccesses := if response.ack then s.prepareSuccesses + 1 else s.prepareSuccesses
    prepareFailures := if response.ack then s.prepareFailures else s.prepareFailures + 1
    ballotNum := response.latestBallotNum.getD s.ballotNum
    awaitPrepareDecision := response.latestBallotNum.isNone && !ahead
    inSync := s.inSync || ahead }

/-- What `handlePrepareReply` does. -/
inductive PrepareReplyResult (s : Server) (status : Status) (response : PrepareRes) :
    Server × List OutCall → Prop
  | ignored : PrepareReplyResult s status response (s, [])
  | failed (hprep : s.awaitPrepareDecision = true) :
      PrepareReplyResult s status response ({ s with prepareFailures := s.prepareFailures + 1 }, [])
  | counted (ahead : Bool) (sent : List OutCall) (hprep : s.awaitPrepareDecision = true)
      (hok : status = .ok) (hnum : response.ballot.num = s.promisedNum.num)
      (hid : response.ballot.serverId = s.serverId)
      (hsent : ∀ o ∈ sent, o.request = .sync ⟨s.lastInserted⟩)
      (hdst : ∀ o ∈ sent, o.dst = response.serverId.getD 0 ∧ ∃ l, l ∈ response.lastInserted) :
      PrepareReplyResult s status response (s.countPrepare response ahead, sent)

theorem handlePrepareReply_result (status : Status) (request : PrepareReq)
    (response : PrepareRes) :
    PrepareReplyResult s status response (s.handlePrepareReply status request response) := by
  unfold handlePrepareReply
  by_cases hprep : s.awaitPrepareDecision = true
  swap
  · rw [if_pos (by simpa using hprep)]
    exact .ignored
  rw [if_neg (by simp [hprep])]
  by_cases hdead : status = .deadlineExceeded ∧ request.ballot.num = s.promisedNum.num ∧
      request.ballot.serverId = s.serverId
  · rw [if_pos hdead]
    exact .failed hprep
  rw [if_neg hdead]
  by_cases hok : status = .ok ∧ response.ballot.num = s.promisedNum.num ∧
      response.ballot.serverId = s.serverId
  swap
  · rw [if_neg hok]
    exact .ignored
  rw [if_pos hok]
  have hcount := fun ahead sent hsent hdst => (.counted ahead sent hprep hok.1 hok.2.1 hok.2.2
    hsent hdst : PrepareReplyResult s status response _)
  by_cases hahead : ∃ l, response.lastInserted = some l ∧ s.lastInserted < l
  · obtain ⟨l, hl, hlt⟩ := hahead
    convert hcount true [⟨response.serverId.getD 0, .sync ⟨s.lastInserted⟩⟩] (by simp)
      (by simp [hl]) using 1
    cases hack : response.ack <;> cases hlat : response.latestBallotNum <;>
      simp [countPrepare, hack, hlat, hl, hlt]
  · convert hcount false [] (by simp) (by simp) using 1
    cases hl : response.lastInserted with
    | none =>
      cases hack : response.ack <;> cases hlat : response.latestBallotNum <;>
        simp [countPrepare, hack, hlat, hprep]
    | some l =>
      have hlt : ¬ s.lastInserted < l := fun hlt => hahead ⟨l, hl, hlt⟩
      cases hack : response.ack <;> cases hlat : response.latestBallotNum <;>
        simp [countPrepare, hack, hlat, hlt, hprep]

/-- What `handleAcceptReply` does. -/
inductive AcceptReplyResult (s : Server) (status : Status) (response : AcceptRes) : Server → Prop
  | ignored : AcceptReplyResult s status response s
  | failed (hacc : s.awaitAcceptDecision = true) :
      AcceptReplyResult s status response { s with acceptFailures := s.acceptFailures + 1 }
  | succeeded (hacc : s.awaitAcceptDecision = true) (hok : status = .ok)
      (hnum : response.ballot.num = s.acceptNum.num)
      (hid : response.ballot.serverId = s.serverId) (hack : response.ack = true) :
      AcceptReplyResult s status response { s with acceptSuccesses := s.acceptSuccesses + 1 }

theorem handleAcceptReply_result (status : Status) (request : AcceptReq) (response : AcceptRes) :
    AcceptReplyResult s status response (s.handleAcceptReply status request response) := by
  unfold handleAcceptReply
  by_cases hacc : s.awaitAcceptDecision = true
  swap
  · rw [if_pos (by simpa using hacc)]
    exact .ignored
  rw [if_neg (by simp [hacc])]
  by_cases hdead : status = .deadlineExceeded ∧ request.ballot.num = s.acceptNum.num ∧
      request.ballot.serverId = s.serverId
  · rw [if_pos hdead]
    exact .failed hacc
  rw [if_neg hdead]
  by_cases hok : status = .ok ∧ response.ballot.num = s.acceptNum.num ∧
      response.ballot.serverId = s.serverId
  swap
  · rw [if_neg hok]
    exact .ignored
  rw [if_pos hok]
  by_cases hack : response.ack = true
  · rw [if_pos hack]
    exact .succeeded hacc hok.1 hok.2.1 hok.2.2 hack
  · rw [if_neg hack]
    exact .failed hacc

end Server
end TpcBank
