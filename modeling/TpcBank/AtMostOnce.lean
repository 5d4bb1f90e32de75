import TpcBank.LogEffects
import TpcBank.Rounds

/-! Which tids a handler applies, and when a log applies a tid at most once. -/
namespace TpcBank
open Transition

/-- The tids of the COMMITTED entries of a log, in their order. -/
def committedTids (log : List WALEntry) : List ℤ :=
  (log.filter fun e => e.status = .committed).map WALEntry.tid

@[simp] theorem committedTids_nil : committedTids [] = [] := rfl

@[simp] theorem committedTids_append (log log' : List WALEntry) :
    committedTids (log ++ log') = committedTids log ++ committedTids log' := by
  simp [committedTids]

theorem committedTids_singleton (e : WALEntry) :
    committedTids [e] = if e.status = .committed then [e.tid] else [] := by
  by_cases h : e.status = .committed <;> simp [committedTids, h]

/-- Every tid is COMMITTED at most once. -/
def AtMostOnce (log : List WALEntry) : Prop := (committedTids log).Nodup

instance (log : List WALEntry) : Decidable (AtMostOnce log) :=
  inferInstanceAs (Decidable (List.Nodup _))

theorem atMostOnce_append {log new : List WALEntry} :
    AtMostOnce (log ++ new) ↔ AtMostOnce log ∧ AtMostOnce new ∧
      ∀ tid ∈ committedTids new, tid ∉ committedTids log := by
  unfold AtMostOnce
  rw [committedTids_append, List.nodup_append]
  constructor
  · rintro ⟨hlog, hnew, hdisjoint⟩
    exact ⟨hlog, hnew, fun tid hmem hmem' => hdisjoint tid hmem' tid hmem rfl⟩
  · rintro ⟨hlog, hnew, hdisjoint⟩
    refine ⟨hlog, hnew, ?_⟩
    rintro tid hmem tid' hmem' rfl
    exact hdisjoint tid hmem' hmem

theorem atMostOnce_snoc {log : List WALEntry} {e : WALEntry} :
    AtMostOnce (log ++ [e]) ↔
      AtMostOnce log ∧ (e.status = .committed → e.tid ∉ committedTids log) := by
  rw [atMostOnce_append]
  by_cases h : e.status = .committed <;> simp [AtMostOnce, committedTids_singleton, h]

theorem AtMostOnce.earlier {log log' : List WALEntry} (h : AtMostOnce log') (hpre : log <+: log') :
    AtMostOnce log := by
  obtain ⟨new, rfl⟩ := hpre
  exact (atMostOnce_append.mp h).1

namespace Server

/-- No handler applies a tid that the log of its server has as COMMITTED: neither the commit
poll, nor a matching Commit, nor a commit decision, nor the entries of a Sync reply, which
moreover apply no tid twice. -/
def AppliesOnce (c : Constants) (s : Server) (fs : FileSystem) : Input → Prop
  | .request (.transfer request) =>
      s.Commits request → fs.opens 0 = true → request.tid ∉ committedTids s.log
  | .request (.commit request) =>
      s.Releases request → s.inCluster c s.acceptVal.txn = 2 → fs.opens 0 = true →
        s.acceptVal.tid ∉ committedTids s.log
  | .request (.tpcCommit request) =>
      s.iAmDisconnected = false → fs.opens 1 = true →
        ∀ position ∈ s.wal.transferIndex request.tid,
          (s.wal.getTransactionFromFile fs position).tid ≠ -1 →
            (s.wal.getTransactionFromFile fs position).tid ∉ committedTids s.log
  | .reply (.sync _) status (.sync response) =>
      status = .ok → response.ack = true → AtMostOnce (response.logs.map fromLogEntry) ∧
        ∀ tid ∈ committedTids (response.logs.map fromLogEntry), tid ∉ committedTids s.log
  | _ => True

instance (c : Constants) (s : Server) (fs : FileSystem) (input : Input) :
    Decidable (s.AppliesOnce c fs input) := by
  refine Input.decidable (fun r => ?_) (fun r status response => ?_) input
  · apply Request.decidable (P := fun r => s.AppliesOnce c fs (.request r))
    all_goals
      intros
      dsimp only [AppliesOnce]
      infer_instance
  · apply Request.decidable (P := fun r => s.AppliesOnce c fs (.reply r status response))
    case sync =>
      exact fun r => response.casesOn (motive := fun response =>
        Decidable (s.AppliesOnce c fs (.reply (.sync r) status response)))
        (isTrue trivial) (fun _ => isTrue trivial) (fun _ => isTrue trivial)
        (fun _ => isTrue trivial) (fun _ => isTrue trivial) (fun _ => isTrue trivial)
        fun _ => inferInstanceAs (Decidable (_ → _ → _ ∧ _))
    all_goals
      intros
      exact isTrue trivial

variable {c : Constants} {fs : FileSystem} {s : Server} {input : Input} {r : Handled}

theorem commitTransaction_log (request : TransferReq) (ballot : Ballot) :
    (s.commitTransaction fs request ballot).log =
      s.log ++ [if fs.opens 0 then committedEntry request ballot else WALEntry.notFound] := by
  rw [commitTransaction_eq]
  unfold WAL.commitTransaction committedEntry
  dsimp only
  split_ifs <;> rfl

theorem atMostOnce_commit {request : TransferReq} {ballot : Ballot} :
    AtMostOnce (s.commitTransaction fs request ballot).log ↔
      AtMostOnce s.log ∧ (fs.opens 0 = true → request.tid ∉ committedTids s.log) := by
  rw [commitTransaction_log, atMostOnce_snoc]
  cases fs.opens 0 <;> simp [committedEntry, WALEntry.notFound]

theorem processTpcDecision_log_eq (request : TpcTid) (isCommit : Bool)
    (hconn : s.iAmDisconnected = false) :
    (s.processTpcDecision c fs request isCommit).log =
      let e := if isCommit then (s.wal.commitTransactionTid fs request).2
        else (s.wal.abortTransaction fs request).2
      if e.tid ≠ -1 then s.log ++ [e] else s.log := by
  rw [processTpcDecision_eq request isCommit hconn]
  cases isCommit <;> rfl

theorem atMostOnce_decision {request : TpcTid} (hconn : s.iAmDisconnected = false) :
    AtMostOnce (s.processTpcDecision c fs request true).log ↔ AtMostOnce s.log ∧
      (fs.opens 1 = true → ∀ position ∈ s.wal.transferIndex request.tid,
        (s.wal.getTransactionFromFile fs position).tid ≠ -1 →
          (s.wal.getTransactionFromFile fs position).tid ∉ committedTids s.log) := by
  rw [processTpcDecision_log_eq request true hconn]
  simp only [if_true, WAL.commitTransactionTid, WAL.endTransaction]
  cases hp : s.wal.transferIndex request.tid with
  | none => simp [WALEntry.notFound]
  | some position =>
    cases hopen : fs.opens 1 with
    | false => simp [WALEntry.notFound]
    | true =>
      by_cases htid : (s.wal.getTransactionFromFile fs position).tid = -1
      · simp [htid]
      · simp [htid, atMostOnce_snoc]

theorem atMostOnce_abort {request : TpcTid} (hconn : s.iAmDisconnected = false) :
    AtMostOnce (s.processTpcDecision c fs request false).log ↔ AtMostOnce s.log := by
  have hstatus : (s.wal.abortTransaction fs request).2.status ≠ .committed := by
    unfold WAL.abortTransaction WAL.endTransaction
    cases s.wal.transferIndex request.tid with
    | none => simp [WALEntry.notFound]
    | some position =>
      dsimp only
      split_ifs <;> simp [WALEntry.notFound]
  rw [processTpcDecision_log_eq request false hconn]
  simp only [Bool.false_eq_true, if_false]
  split_ifs
  · rw [atMostOnce_snoc]
    exact and_iff_left fun h => absurd h hstatus
  · rfl

/-- A handler that meets the condition keeps the log at most once. -/
theorem Acted.atMostOnce (h : Acted c fs s input r) (honce : s.AppliesOnce c fs input)
    (hlog : AtMostOnce s.log) : AtMostOnce r.server.log := by
  have heffect := h.effect
  rw [← data_log r.server]
  generalize r.response = response, r.server.data = d at heffect
  cases heffect with
  | kept => exact hlog
  | leaderPrepared request => exact atMostOnce_snoc.mpr ⟨hlog, nofun⟩
  | followerPrepared request => exact atMostOnce_snoc.mpr ⟨hlog, nofun⟩
  | leaderCommitted request hcommits => exact atMostOnce_commit.mpr ⟨hlog, honce hcommits⟩
  | followerCommitted request response hreleases htwo =>
    exact atMostOnce_commit.mpr ⟨hlog, honce hreleases htwo⟩
  | decided request isCommit response hconn =>
    cases isCommit with
    | true => exact (atMostOnce_decision hconn).mpr ⟨hlog, honce hconn⟩
    | false => exact (atMostOnce_abort hconn).mpr hlog
  | synced request response hack =>
    rw [data_log, syncEntries_log, atMostOnce_append]
    exact ⟨hlog, honce rfl hack⟩

/-- A handler after which the log is at most once meets the condition. -/
theorem appliesOnce_of_atMostOnce (h : AtMostOnce (s.react c fs input).server.log) :
    s.AppliesOnce c fs input := by
  unfold AppliesOnce
  split
  · rename_i request
    intro hcommits
    have hlog : (s.react c fs (.request (.transfer request))).server.log =
        (s.commitTransaction fs request s.acceptNum).log := by
      show (s.runPaxos c fs request false).server.log = _
      rw [runPaxos_of_commits hcommits, finishCommit_intra, commitTransaction_eq]
    rw [hlog] at h
    exact (atMostOnce_commit.mp h).2
  · rename_i request
    intro hreleases htwo
    have hlog : (s.react c fs (.request (.commit request))).server.log =
        (s.commitTransaction fs s.acceptVal s.acceptNum).log := by
      show (s.processCommitCall c fs request).log = _
      rw [processCommitCall_of_releases hreleases, releaseAccepted_intra htwo,
        commitTransaction_eq, commitTransaction_eq]
    rw [hlog] at h
    exact (atMostOnce_commit.mp h).2
  · rename_i request
    intro hconn
    exact ((atMostOnce_decision hconn).mp h).2
  · rename_i request status response
    rintro rfl hack
    have hlog : (s.react c fs (.reply (.sync request) .ok (.sync response))).server.log =
        s.log ++ response.logs.map fromLogEntry := by
      show (s.handleSyncReply c fs .ok response).log = _
      simp [handleSyncReply, hack, syncEntries_log]
    rw [hlog, atMostOnce_append] at h
    exact h.2
  · trivial

end Server

namespace Network

variable {c : Constants} {n n' : Network} {e : Event}

theorem Stepped.log_grows (h : Stepped c n e n') (x : ℤ) :
    (n.servers x).log <+: (n'.servers x).log :=
  h.server_invariant (I := fun x s => (n.servers x).log <+: s.log)
    (fun _ => List.prefix_rfl) (fun _ _ _ _ _ hr => hr.log_grows) x

/-- Every tid is COMMITTED at most once in every log in exactly the runs in which no step
applies a tid that its server has as COMMITTED already. -/
theorem atMostOnce_iff {disk : ℤ → Disk} {es : List Event}
    (h : Reaches c (fun _ _ => True) disk es n) :
    (∀ x, AtMostOnce (n.servers x).log) ↔ Reaches c (Each (Server.AppliesOnce c)) disk es n := by
  constructor
  · intro honce
    induction h with
    | refl => exact .refl
    | @snoc es n n' e hrun _ hstep ih =>
      refine (ih fun x => (honce x).earlier ((step_stepped hstep).log_grows x)).snoc ?_ hstep
      apply each_of_acts
      intro id fs input hacts
      apply Server.appliesOnce_of_atMostOnce (c := c)
      have hid := honce id
      rwa [step_acts hstep hacts, Function.update_self] at hid
  · intro hguard x
    refine hguard.invariant (I := fun n => ∀ x, AtMostOnce (n.servers x).log)
      (fun _ => show AtMostOnce [] from List.nodup_nil) ?_ x
    intro n e n' hn hg hstep
    exact (step_stepped hstep).server_invariant (I := fun _ s => AtMostOnce s.log) hn
      fun id _ _ _ hacts hr => hr.atMostOnce (hg.acts hacts) (hn id)

theorem atMostOnce_promisedRun :
    ∃ n, run (step .single) (init .single fun _ => .empty) promisedRun = some n ∧
      ∀ x, AtMostOnce (n.servers x).log := by
  obtain ⟨n, hn⟩ := Option.isSome_iff_exists.mp
    (show (runIf (step .single) (Each (Server.AppliesOnce .single)) (init .single fun _ => .empty)
      promisedRun).isSome = true by decide +kernel)
  have hguard := runs_of_runIf hn
  exact ⟨n, hguard.run_eq, (atMostOnce_iff (hguard.mono fun _ _ _ => trivial)).mpr hguard⟩

/-- The Commit of a transfer reaches server 2 after server 2 has synchronized the transfer. -/
def lateCommitRun : List Event :=
  [.call 1 (.transfer ⟨⟨1, 2, 3⟩, 1⟩), .arrives 0, .arrives 1, .returns 1, .arrives 0, .arrives 3,
    .returns 3, .arrives 0, .call 1 (.transfer ⟨⟨3, 4, 1⟩, 2⟩), .arrives 7, .arrives 8, .arrives 10,
    .returns 10, .arrives 5]

theorem not_atMostOnce_lateCommitRun :
    ∃ n, run (step .single) (init .single fun _ => .empty) lateCommitRun = some n ∧
      ¬ AtMostOnce (n.servers 2).log := by
  obtain ⟨n, hn, hbad⟩ := (Option.any_eq_true _ _).mp
    (show (run (step .single) (init .single fun _ => .empty) lateCommitRun).any
      (fun n => decide (¬ AtMostOnce (n.servers 2).log)) = true by decide +kernel)
  exact ⟨n, hn, of_decide_eq_true hbad⟩

end Network
end TpcBank
