import TpcBank.Effects

/-! What one handler does to the log and to the undecided prepared transactions, when the
WAL file opens. The WAL text does not matter any more after this. -/
namespace TpcBank

/-- The entry of a prepared cross-shard transaction. -/
def preparedEntry (request : TransferReq) (ballot : Ballot) : WALEntry :=
  ⟨request.tid, ballot.num, ballot.serverId, request.txn, .cross, .prepared⟩

/-- The entry of a committed intra-shard transaction. -/
def committedEntry (request : TransferReq) (ballot : Ballot) : WALEntry :=
  ⟨request.tid, ballot.num, ballot.serverId, request.txn, .intra, .committed⟩

namespace Server

/-- The undecided transactions after a list of synchronized entries. -/
def syncPending (pending : ℤ → Option WALEntry) (logs : List LogEntry) : ℤ → Option WALEntry :=
  logs.foldl (fun pending e => WAL.insertPending pending (fromLogEntry e)) pending

theorem syncPending_cons (pending : ℤ → Option WALEntry) (e : LogEntry) (logs : List LogEntry) :
    syncPending pending (e :: logs) = syncPending (WAL.insertPending pending (fromLogEntry e)) logs :=
  rfl

theorem syncPending_invariant {I : (ℤ → Option WALEntry) → Prop} {logs : List LogEntry}
    {pending : ℤ → Option WALEntry} (h : I pending)
    (hstep : ∀ pending, ∀ e ∈ logs, I pending → I (WAL.insertPending pending (fromLogEntry e))) :
    I (syncPending pending logs) := by
  induction logs generalizing pending with
  | nil => exact h
  | cons e logs ih =>
    exact ih (hstep pending e List.mem_cons_self h)
      fun pending e he => hstep pending e (List.mem_cons_of_mem _ he)

theorem insertPending_some {pending : ℤ → Option WALEntry} {e w : WALEntry} {tid : ℤ}
    (h : WAL.insertPending pending e tid = some w) :
    pending tid = some w ∨ e.status = .prepared ∧ tid = e.tid ∧ w = { e with type := .cross } := by
  unfold WAL.insertPending at h
  by_cases ht : tid = e.tid
  · subst ht
    cases hs : e.status <;> simp [hs] at h
    · exact .inl h
    · exact .inr ⟨rfl, rfl, h.symm.trans (by rw [← hs])⟩
  · cases hs : e.status <;> simp only [hs, ne_eq, ht, not_false_eq_true, Function.update_of_ne] at h <;>
      exact .inl h

/-- The new log and the new undecided transactions, for each kind of effect. -/
inductive LogEffect (c : Constants) (s : Server) :
    Input → Option Response → List WALEntry → (ℤ → Option WALEntry) → Prop
  | kept (input : Input) (response : Option Response) :
      LogEffect c s input response s.log s.wal.pending
  | leaderPrepared (request : TransferReq) (hproposes : s.Proposes c request) :
      LogEffect c s (.request (.tpcPrepare request)) none
        (s.log ++ [preparedEntry request s.promisedNum])
        (Function.update s.wal.pending request.tid (some (preparedEntry request s.promisedNum)))
  | followerPrepared (request : AcceptReq) (response : Option Response)
      (hconn : s.iAmDisconnected = false) (hprom : s.promised = true)
      (hnum : request.ballot.num = s.promisedNum.num) (hone : s.inCluster c request.r.txn = 1) :
      LogEffect c s (.request (.accept request)) response
        (s.log ++ [preparedEntry request.r request.ballot])
        (Function.update s.wal.pending request.r.tid
          (some (preparedEntry request.r request.ballot)))
  | leaderCommitted (request : TransferReq) (hcommits : s.Commits request) :
      LogEffect c s (.request (.transfer request)) (transferRes true request.tid)
        (s.log ++ [committedEntry request s.acceptNum]) s.wal.pending
  | followerCommitted (request : CommitReq) (response : Option Response)
      (hreleases : s.Releases request) (htwo : s.inCluster c s.acceptVal.txn = 2) :
      LogEffect c s (.request (.commit request)) response
        (s.log ++ [committedEntry s.acceptVal s.acceptNum]) s.wal.pending
  | decided (isCommit : Bool) (request : TpcTid) (e : WALEntry) (response : Option Response)
      (hconn : s.iAmDisconnected = false)
      (hpending : s.wal.pending request.tid = some e) (htid : e.tid = request.tid)
      (htype : e.type = .cross) :
      LogEffect c s (.request (.decision isCommit request)) response
        (if e.tid ≠ -1 then s.log ++ [{ e with status := decision isCommit }] else s.log)
        (Function.update s.wal.pending request.tid none)
  | synced (request : SyncReq) (response : SyncRes) (hack : response.ack = true) :
      LogEffect c s (.reply (.sync request) .ok (.sync response)) none
        (s.log ++ response.logs.map fromLogEntry) (syncPending s.wal.pending response.logs)

variable {c : Constants} {fs : FileSystem} {s : Server} {input : Input}

theorem syncEntry_log (isOpen : Bool) (e : LogEntry) :
    (s.syncEntry c isOpen e).log = s.log ++ [fromLogEntry e] := by
  rw [syncEntry_eq]
  dsimp only
  split_ifs <;> rfl

theorem syncEntry_wal (isOpen : Bool) (e : LogEntry) :
    (s.syncEntry c isOpen e).wal = s.wal.insertEntry isOpen (fromLogEntry e) := by
  rw [syncEntry_eq]
  dsimp only
  split_ifs <;> rfl

theorem syncEntries_log (i : ℕ) (logs : List LogEntry) :
    (s.syncEntries c fs i logs).log = s.log ++ logs.map fromLogEntry := by
  induction logs generalizing i s with
  | nil => simp [syncEntries]
  | cons e logs ih => simp [syncEntries, ih, syncEntry_log]

theorem syncEntries_wal (hfs : fs.working) (i : ℕ) (logs : List LogEntry)
    (hindex : s.wal.Indexed) :
    (s.syncEntries c fs i logs).wal.Indexed ∧
      (s.syncEntries c fs i logs).wal.pending = syncPending s.wal.pending logs := by
  induction logs generalizing i s with
  | nil => exact ⟨hindex, rfl⟩
  | cons e logs ih =>
    obtain ⟨hindexed, hpending⟩ := WAL.insertEntry_spec hindex (fromLogEntry e)
    rw [← syncEntry_wal (c := c)] at hindexed hpending
    have htail := ih (s := s.syncEntry c true e) (i + 1) hindexed
    rw [hpending] at htail
    rw [syncEntries, hfs i]
    exact htail

theorem processTpcDecision_log (hfs : fs.working) (hindex : s.wal.Indexed)
    (hconn : s.iAmDisconnected = false) (isCommit : Bool) (request : TpcTid)
    (response : Option Response) :
    (s.processTpcDecision c fs request isCommit).wal.Indexed ∧
      LogEffect c s (.request (.decision isCommit request)) response
        (s.processTpcDecision c fs request isCommit).log
        (s.processTpcDecision c fs request isCommit).wal.pending := by
  have hw : ∃ command, (if isCommit then s.wal.commitTransactionTid fs request
      else s.wal.abortTransaction fs request) =
        s.wal.endTransaction command (decision isCommit) fs request := by
    cases isCommit <;> exact ⟨_, rfl⟩
  obtain ⟨command, hw⟩ := hw
  have heq : s.processTpcDecision c fs request isCommit = _ :=
    processTpcDecision_eq request isCommit hconn
  rw [hw] at heq
  have hwal : (s.processTpcDecision c fs request isCommit).wal =
      (s.wal.endTransaction command (decision isCommit) fs request).1 := by
    rw [heq]
    cases isCommit <;> rfl
  have hlog : (s.processTpcDecision c fs request isCommit).log =
      if (s.wal.endTransaction command (decision isCommit) fs request).2.tid ≠ -1
      then s.log ++ [(s.wal.endTransaction command (decision isCommit) fs request).2]
      else s.log := by
    rw [heq]
    cases isCommit <;> rfl
  rw [hwal, hlog]
  cases hp : s.wal.pending request.tid with
  | none =>
    rw [WAL.endTransaction_none hindex hp]
    exact ⟨hindex, .kept _ _⟩
  | some e =>
    obtain ⟨hindexed, hpending, hentry⟩ := WAL.endTransaction_some command
      (decision isCommit) hfs hindex hp
    obtain ⟨htid, htype, -⟩ := hindex.pending_fields hp
    rw [hpending, hentry]
    exact ⟨hindexed, .decided isCommit request e response hconn hp htid htype⟩

/-- Every effect on the data is one of these effects on the log. -/
theorem Effect.logEffect {response : Option Response} {d : Data}
    (h : Effect c fs s input response d) (hfs : fs.working) (hindex : s.wal.Indexed) :
    d.wal.Indexed ∧ LogEffect c s input response d.log d.wal.pending := by
  cases h with
  | kept => exact ⟨hindex, .kept _ _⟩
  | leaderPrepared request hproposes =>
    obtain ⟨hindexed, hpending⟩ :=
      WAL.prepareTransaction_spec (hfs 0) hindex request s.promisedNum
    refine ⟨hindexed, ?_⟩
    rw [data_log, data_wal, prepareTransaction_eq, hpending]
    exact .leaderPrepared request hproposes
  | followerPrepared request response hconn hprom hnum hone =>
    obtain ⟨hindexed, hpending⟩ :=
      WAL.prepareTransaction_spec (hfs 0) hindex request.r request.ballot
    refine ⟨hindexed, ?_⟩
    rw [data_log, data_wal, prepareTransaction_eq, hpending]
    exact .followerPrepared request response hconn hprom hnum hone
  | leaderCommitted request hcommits =>
    obtain ⟨hindexed, hpending, hentry⟩ :=
      WAL.commitTransaction_spec (hfs 0) hindex request s.acceptNum
    rw [data_log, data_wal, commitTransaction_eq]
    dsimp only
    rw [hpending, hentry]
    exact ⟨hindexed, .leaderCommitted request hcommits⟩
  | followerCommitted request response hreleases htwo =>
    obtain ⟨hindexed, hpending, hentry⟩ :=
      WAL.commitTransaction_spec (hfs 0) hindex s.acceptVal s.acceptNum
    rw [data_log, data_wal, commitTransaction_eq]
    dsimp only
    rw [hpending, hentry]
    exact ⟨hindexed, .followerCommitted request response hreleases htwo⟩
  | decided request isCommit response hconn =>
    exact processTpcDecision_log hfs hindex hconn isCommit request response
  | synced request response hack =>
    obtain ⟨hindexed, hpending⟩ := syncEntries_wal (c := c) hfs 0 response.logs hindex
    refine ⟨hindexed, ?_⟩
    rw [data_log, data_wal, syncEntries_log, hpending]
    exact .synced request response hack

/-- Handlers only extend the log, whatever the file does. -/
theorem Acted.log_grows {r : Handled} (h : Acted c fs s input r) : s.log <+: r.server.log := by
  have heffect := h.effect
  rw [← data_log r.server]
  generalize r.response = response, r.server.data = d at heffect
  cases heffect with
  | kept => exact List.prefix_rfl
  | leaderPrepared => exact List.prefix_append _ _
  | followerPrepared => exact List.prefix_append _ _
  | leaderCommitted =>
    rw [commitTransaction_eq]
    exact List.prefix_append _ _
  | followerCommitted =>
    rw [commitTransaction_eq]
    exact List.prefix_append _ _
  | decided request isCommit response hconn =>
    rw [processTpcDecision_eq request isCommit hconn]
    cases isCommit <;> dsimp only [data, applyTxn] <;> split_ifs <;>
      first | exact List.prefix_append _ _ | exact List.prefix_rfl
  | synced request response =>
    rw [data_log, syncEntries_log]
    exact List.prefix_append _ _

end Server
end TpcBank
