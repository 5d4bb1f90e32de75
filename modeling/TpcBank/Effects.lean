import TpcBank.Actions

/-! What one handler does to the data of a server, whatever it does to the rest. -/
namespace TpcBank
namespace Server

def handle (c : Constants) (fs : FileSystem) (s : Server) (input : Input) : Server :=
  (s.react c fs input).server

/-- The ways in which a handler touches the data, each with the message it reacts to, its
response and the branch it takes. -/
inductive Effect (c : Constants) (fs : FileSystem) (s : Server) :
    Input → Option Response → Data → Prop
  | kept (input : Input) (response : Option Response) : Effect c fs s input response s.data
  | leaderPrepared (request : TransferReq) (hproposes : s.Proposes c request) :
      Effect c fs s (.request (.tpcPrepare request)) none
        (s.prepareTransaction fs request s.promisedNum).data
  | followerPrepared (request : AcceptReq) (response : Option Response)
      (hconn : s.iAmDisconnected = false) (hprom : s.promised = true)
      (hnum : request.ballot.num = s.promisedNum.num) (hone : s.inCluster c request.r.txn = 1) :
      Effect c fs s (.request (.accept request)) response
        (s.prepareTransaction fs request.r request.ballot).data
  | leaderCommitted (request : TransferReq) (hcommits : s.Commits request) :
      Effect c fs s (.request (.transfer request)) (transferRes true request.tid)
        (s.commitTransaction fs request s.acceptNum).data
  | followerCommitted (request : CommitReq) (response : Option Response)
      (hreleases : s.Releases request) (htwo : s.inCluster c s.acceptVal.txn = 2) :
      Effect c fs s (.request (.commit request)) response
        (s.commitTransaction fs s.acceptVal s.acceptNum).data
  | decided (request : TpcTid) (isCommit : Bool) (response : Option Response)
      (hconn : s.iAmDisconnected = false) :
      Effect c fs s (.request (.decision isCommit request)) response
        (s.processTpcDecision c fs request isCommit).data
  | synced (request : SyncReq) (response : SyncRes) (hack : response.ack = true) :
      Effect c fs s (.reply (.sync request) .ok (.sync response)) none
        (s.syncEntries c fs 0 response.logs).data

variable {c : Constants} {fs : FileSystem} {s : Server}

theorem Acted.effect {input : Input} {r : Handled} (h : Acted c fs s input r) :
    Effect c fs s input r.response r.server.data := by
  cases h with
  | accepting isCrossShard request d hown hprep hmaj hcond hd =>
    subst hd
    cases isCrossShard with
    | true => exact .leaderPrepared request ⟨hown, hprep, hmaj, hcond⟩
    | false => exact .kept _ _
  | committed request d hown hprep hacc hmaj hd =>
    subst hd
    exact .leaderCommitted request ⟨hown, hprep, hacc, hmaj⟩
  | accepted request d hconn hprom hnum hd =>
    show Effect c fs s _ _ d
    rw [hd]
    split_ifs with hone
    · exact .followerPrepared request _ hconn hprom hnum hone
    · exact .kept _ _
  | released request d hconn hprom hacc hd =>
    show Effect c fs s _ _ d
    rw [hd]
    split_ifs with htwo
    · exact .followerCommitted request _ ⟨hconn, hprom, hacc⟩ htwo
    · exact .kept _ _
  | decided isCommit request d locks hconn hd =>
    subst hd
    exact .decided request isCommit _ hconn
  | synced request response d hack hd =>
    subst hd
    exact .synced request response hack
  | _ => exact .kept _ _

/-- The fields that no handler changes. -/
def identity (s : Server) : ℤ × ℤ × List ℤ := (s.serverId, s.clusterId, s.stubs)

theorem Acted.identity {input : Input} {r : Handled} (h : Acted c fs s input r) :
    r.server.identity = s.identity := by
  cases h <;> rfl

theorem syncEntry_identity (isOpen : Bool) (e : LogEntry) :
    (s.syncEntry c isOpen e).identity = s.identity := by
  rw [syncEntry_eq]
  dsimp only
  split_ifs <;> rfl

end Server
end TpcBank
