import TpcBank.AtMostOnce

/-! The rounds of a cluster when no transfer is cross-shard: what a handler does to them and to
the log, and the conditions under which one round respects what another has decided. -/
namespace TpcBank
open Transition

namespace Server

/-! ### The conditions -/

/-- An accepted request that a proposer may pass over: one under a ballot of its own, or one that
its log has as COMMITTED. -/
def PassedOver (id : ℤ) (log : List WALEntry) (ballot : Ballot) (request : TransferReq) : Prop :=
  ballot.serverId = id ∨ request.tid ∈ committedTids log

instance (id : ℤ) (log : List WALEntry) (ballot : Ballot) (request : TransferReq) :
    Decidable (PassedOver id log ballot request) :=
  inferInstanceAs (Decidable (_ ∨ _))

/-- A server opens a round only when it may pass over the request that it has accepted. -/
def OpensFree (s : Server) (_ : FileSystem) : Input → Prop
  | .request r => ∀ request ∈ r.polled, s.Owns request.tid → s.awaitPrepareDecision = false →
      s.awaitAcceptDecision = false → s.accepted = true →
        PassedOver s.serverId s.log s.acceptNum s.acceptVal
  | _ => True

instance (s : Server) (fs : FileSystem) (input : Input) : Decidable (s.OpensFree fs input) := by
  refine Input.decidable (fun r => ?_) (fun r status response => isTrue trivial) input
  dsimp only [OpensFree]
  infer_instance

/-- The accepted request that a promise reports may be passed over by the proposer. -/
def ReportsFree (log : List WALEntry) (reply : PrepareRes) : Prop :=
  ∀ ballot ∈ reply.acceptNum, ∀ request ∈ reply.acceptVal,
    PassedOver reply.ballot.serverId log ballot request

theorem ReportsFree.later {log log' : List WALEntry} {reply : PrepareRes}
    (h : ReportsFree log reply) (hpre : log <+: log') : ReportsFree log' reply := by
  obtain ⟨new, rfl⟩ := hpre
  intro ballot hballot request hrequest
  rcases h ballot hballot request hrequest with hself | hmem
  · exact .inl hself
  · rw [PassedOver, committedTids_append]
    exact .inr (List.mem_append_left _ hmem)

instance (log : List WALEntry) (reply : PrepareRes) : Decidable (ReportsFree log reply) :=
  inferInstanceAs (Decidable (∀ ballot ∈ reply.acceptNum, ∀ request ∈ reply.acceptVal, _))

/-- An Accept is accepted only under the promise of its own ballot. -/
def AcceptsPromised (s : Server) (_ : FileSystem) : Input → Prop
  | .request (.accept request) => s.promised = true →
      request.ballot.num = s.promisedNum.num → request.ballot = s.promisedNum
  | _ => True

instance (s : Server) (fs : FileSystem) (input : Input) :
    Decidable (s.AcceptsPromised fs input) := by
  refine Input.decidable (fun r => ?_) (fun r status response => isTrue trivial) input
  apply Request.decidable (P := fun r => s.AcceptsPromised fs (.request r))
  all_goals
    intros
    dsimp only [AcceptsPromised]
    infer_instance

/-- A server synchronizes no entries while it awaits the prepare decision on its own ballot. -/
def SyncsBetween (s : Server) (_ : FileSystem) : Input → Prop
  | .reply (.sync _) status response => status = .ok → response.toSync.ack = true →
      s.awaitPrepareDecision = true → s.promisedNum.serverId ≠ s.serverId
  | _ => True

instance (s : Server) (fs : FileSystem) (input : Input) : Decidable (s.SyncsBetween fs input) := by
  refine Input.decidable (fun r => isTrue trivial) (fun r status response => ?_) input
  apply Request.decidable (P := fun r => s.SyncsBetween fs (.reply r status response))
  all_goals
    intros
    dsimp only [SyncsBetween]
    infer_instance

/-! ### What a handler does -/

variable {c : Constants} {fs : FileSystem} {s : Server} {input : Input} {r : Handled}

/-- What a handler can do to the rounds and to the log, without cross-shard transfers. -/
inductive Move (c : Constants) (s : Server) : Input → Handled → Prop
  /-- The log, the promise and the accepted request stay; a round may be given up. -/
  | still (input : Input) (t : Server) (response : Option Response) (sent : List OutCall)
      (hpreparing : t.awaitPrepareDecision = true → s.awaitPrepareDecision = true)
      (htid : s.awaitAcceptDecision = true → t.paxosTid = s.paxosTid)
      (hsent : ∀ o ∈ sent, o.request = .sync ⟨s.lastInserted⟩)
      (hrefused : ∀ res ∈ response, res.toPrepare.ack = false ∧ res.toAccept.ack = false) :
      Move c s input
        ⟨{ s with
            iAmDisconnected := t.iAmDisconnected
            isPaxosRunning := t.isPaxosRunning
            paxosTid := t.paxosTid
            ballotNum := t.ballotNum
            inSync := t.inSync
            prepareSuccesses := t.prepareSuccesses
            prepareFailures := t.prepareFailures
            acceptFailures := t.acceptFailures
            awaitPrepareDecision := t.awaitPrepareDecision },
          response, sent⟩
  | opened (request : TransferReq) (hown : s.Owns request.tid)
      (hprep : s.awaitPrepareDecision = false) (hacc : s.awaitAcceptDecision = false) :
      Move c s (.request (.transfer request)) (s.startRound request)
  | proposed (request : TransferReq) (locks : Finset ℤ) (hproposes : s.Proposes c request) :
      Move c s (.request (.transfer request))
        ⟨{ s with
            awaitPrepareDecision := false
            locks
            accepted := true
            acceptNum := s.promisedNum
            acceptVal := request
            awaitAcceptDecision := true
            acceptSuccesses := 1
            acceptFailures := 0 },
          none, s.broadcast (.accept ⟨s.promisedNum, request⟩)⟩
  | committed (request : TransferReq) (d : Data) (locks : Finset ℤ) (hcommits : s.Commits request)
      (hlog : d.log = s.log ++ [committedEntry request s.acceptNum]) :
      Move c s (.request (.transfer request))
        ⟨{ s with
            wal := d.wal
            log := d.log
            balances := d.balances
            db := d.db
            locks
            lastInserted := s.log.length
            lastInsertedBallot := s.acceptNum
            promised := false
            accepted := false
            awaitPrepareDecision := false
            awaitAcceptDecision := false
            isPaxosRunning := false
            paxosTid := -1 },
          transferRes true request.tid, s.broadcast (.commit ⟨s.acceptNum⟩)⟩
  | failed (request : TransferReq) (locks : Finset ℤ) (hown : s.Owns request.tid)
      (hprep : s.awaitPrepareDecision = false) (hacc : s.awaitAcceptDecision = true) :
      Move c s (.request (.transfer request))
        ⟨{ s with
            awaitAcceptDecision := false
            isPaxosRunning := false
            paxosTid := -1
            locks },
          transferRes false request.tid, []⟩
  | promised (request : PrepareReq) (hnum : s.ballotNum < request.ballot.num)
      (hlast : request.lastInserted = s.lastInserted) :
      Move c s (.request (.prepare request))
        ⟨{ s with
            promised := true
            promisedNum := request.ballot
            ballotNum := request.ballot.num },
          some (.prepare {
            ack := true
            ballot := request.ballot
            acceptNum := if s.accepted then some s.acceptNum else none
            acceptVal := if s.accepted then some s.acceptVal else none }), []⟩
  | accepted (request : AcceptReq) (locks : Finset ℤ) (hprom : s.promised = true)
      (hnum : request.ballot.num = s.promisedNum.num) :
      Move c s (.request (.accept request))
        ⟨{ s with
            accepted := true
            acceptNum := request.ballot
            acceptVal := request.r
            locks },
          some (.accept ⟨true, request.ballot⟩), []⟩
  | released (request : CommitReq) (d : Data) (locks : Finset ℤ) (hreleases : s.Releases request)
      (htwo : s.inCluster c s.acceptVal.txn = 2)
      (hlog : d.log = s.log ++ [committedEntry s.acceptVal s.acceptNum]) :
      Move c s (.request (.commit request))
        ⟨{ s with
            wal := d.wal
            log := d.log
            balances := d.balances
            db := d.db
            locks
            lastInserted := s.log.length
            lastInsertedBallot := s.acceptNum
            promised := false
            accepted := false },
          some .empty, []⟩
  | synced (request : SyncReq) (response : SyncRes) (d : Data) (hack : response.ack = true)
      (hlog : d.log = s.log ++ response.logs.map fromLogEntry) :
      Move c s (.reply (.sync request) .ok (.sync response))
        ⟨{ s with
            wal := d.wal
            log := d.log
            balances := d.balances
            db := d.db
            ballotNum := response.lastInsertedBallot.num
            lastInserted := s.lastInserted + response.logs.length
            lastInsertedBallot := response.lastInsertedBallot
            inSync := false }, none, []⟩
  | counted (request : AcceptReq) (response : Response) (hacc : s.awaitAcceptDecision = true)
      (hnum : response.toAccept.ballot.num = s.acceptNum.num)
      (hid : response.toAccept.ballot.serverId = s.serverId)
      (hack : response.toAccept.ack = true) :
      Move c s (.reply (.accept request) .ok response)
        ⟨{ s with acceptSuccesses := s.acceptSuccesses + 1 }, none, []⟩

/-- An input that has nothing to do with cross-shard transfers. -/
def Local (c : Constants) (s : Server) : Input → Prop
  | .request (.tpcPrepare _) | .request (.tpcCommit _) | .request (.tpcAbort _) => False
  | .request (.accept request) => s.inCluster c request.r.txn = 2
  | .request (.commit request) => s.Releases request → s.inCluster c s.acceptVal.txn = 2
  | _ => True

theorem commitTransaction_data_log (hfs : fs.working) {request : TransferReq} {ballot : Ballot} :
    (s.commitTransaction fs request ballot).data.log =
      s.log ++ [committedEntry request ballot] := by
  rw [data_log, commitTransaction_log, if_pos (hfs 0)]

theorem Acted.move (h : Acted c fs s input r) (hs : s.Phases) (hlocal : s.Local c input)
    (hfs : fs.working) : Move c s input r := by
  have hpoll : ∀ {isCrossShard : Bool} {request : TransferReq},
      s.Local c (.request (.poll isCrossShard request)) → isCrossShard = false := by
    intro isCrossShard request hlocal
    cases isCrossShard with
    | true => exact hlocal.elim
    | false => rfl
  have hnone : ∀ res ∈ (none : Option Response), res.toPrepare.ack = false ∧
      res.toAccept.ack = false := fun res hres => absurd hres (Option.not_mem_none res)
  cases h with
  | idle input response hplain =>
    refine .still input s response [] id (fun _ => rfl) (List.forall_mem_nil _) fun res hres => ?_
    cases hplain res hres <;> exact ⟨rfl, rfl⟩
  | opened isCrossShard request hown hprep hacc =>
    obtain rfl := hpoll hlocal
    exact .opened request hown hprep hacc
  | rejected isCrossShard request hown hprep =>
    refine .still _ { s with awaitPrepareDecision := false, isPaxosRunning := false, paxosTid := -1 }
      _ [] nofun ?_ (List.forall_mem_nil _) ?_
    · intro hacc
      rw [hs.one hprep] at hacc
      cases hacc
    · rintro res ⟨⟩
      exact ⟨rfl, rfl⟩
  | accepting isCrossShard request d hown hprep hmaj hcond hd =>
    obtain rfl := hpoll hlocal
    subst hd
    exact .proposed request _ ⟨hown, hprep, hmaj, hcond⟩
  | finished => exact hlocal.elim
  | committed request d hown hprep hacc hmaj hd =>
    refine .committed request d _ ⟨hown, hprep, hacc, hmaj⟩ ?_
    rw [hd, commitTransaction_data_log hfs]
  | failed isCrossShard request hown hprep hacc =>
    obtain rfl := hpoll hlocal
    exact .failed request _ hown hprep hacc
  | promised request hconn hnum hlast => exact .promised request hnum hlast
  | refused request inSync res sent hack hballot hlatest hsent =>
    refine .still _ { s with inSync } _ sent id (fun _ => rfl) (fun o ho => (hsent o ho).1) ?_
    rintro res' ⟨⟩
    exact ⟨hack, rfl⟩
  | accepted request d hconn hprom hnum hd =>
    have hone : s.inCluster c request.r.txn ≠ 1 := by
      rw [show s.inCluster c request.r.txn = 2 from hlocal]
      decide
    rw [if_neg hone] at hd
    subst hd
    simp only [if_neg hone]
    exact .accepted request _ hprom hnum
  | released request d hconn hprom hacc hd =>
    have htwo := hlocal ⟨hconn, hprom, hacc⟩
    rw [if_pos htwo] at hd
    simp only [if_pos htwo]
    refine .released request d _ ⟨hconn, hprom, hacc⟩ htwo ?_
    rw [hd, commitTransaction_data_log hfs]
  | decided isCommit request =>
    cases isCommit <;> exact hlocal.elim
  | answered request =>
    refine .still _ s _ [] id (fun _ => rfl) (List.forall_mem_nil _) ?_
    rintro res ⟨⟩
    exact ⟨rfl, rfl⟩
  | disconnected request iAmDisconnected =>
    refine .still _ { s with iAmDisconnected } _ [] id (fun _ => rfl) (List.forall_mem_nil _) ?_
    rintro res ⟨⟩
    exact ⟨rfl, rfl⟩
  | prepareFailed request status response hprep =>
    exact .still _ { s with prepareFailures := s.prepareFailures + 1 } none [] id (fun _ => rfl)
      (List.forall_mem_nil _) hnone
  | prepareCounted request response ahead sent hprep hnum hid hsent =>
    exact .still _ (s.countPrepare response.toPrepare ahead) none sent (fun _ => hprep)
      (fun _ => rfl) hsent hnone
  | acceptFailed request status response hacc =>
    exact .still _ { s with acceptFailures := s.acceptFailures + 1 } none [] id (fun _ => rfl)
      (List.forall_mem_nil _) hnone
  | acceptCounted request response hacc hnum hid hack =>
    exact .counted request response hacc hnum hid hack
  | synced request response d hack hd =>
    refine .synced request response d hack ?_
    rw [hd, data_log, syncEntries_log]
  | syncRefused request status response hack =>
    exact .still _ { s with inSync := false } none [] id (fun _ => rfl) (List.forall_mem_nil _) hnone

end Server
end TpcBank
