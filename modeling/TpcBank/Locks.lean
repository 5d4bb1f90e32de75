import TpcBank.Steps
import TpcBank.Undecided

/-! Two-phase locking: from its prepare to its decision, a cross-shard transaction keeps its
clients locked, as long as no handler unlocks a client of another undecided transaction. -/
namespace TpcBank
open Transition

/-! ### Locks and undecided transactions -/

/-- The clients of every undecided transaction that belong to the cluster are locked. -/
def LocksHeld (c : Constants) (clusterId : ℤ) (undecided : ℤ → Option WALEntry)
    (locks : Finset ℤ) : Prop :=
  ∀ tid e, undecided tid = some e → c.items clusterId e.txn ⊆ locks

/-- None of some clients belongs to an undecided transaction. -/
def Spares (c : Constants) (clusterId : ℤ) (undecided : ℤ → Option WALEntry)
    (items : Finset ℤ) : Prop :=
  ∀ tid e, undecided tid = some e → Disjoint items (c.items clusterId e.txn)

namespace LocksHeld

variable {c : Constants} {clusterId : ℤ} {undecided undecided' : ℤ → Option WALEntry}
  {locks locks' : Finset ℤ}

theorem mono (h : LocksHeld c clusterId undecided locks) (hlocks : locks ⊆ locks') :
    LocksHeld c clusterId undecided locks' :=
  fun tid e he => (h tid e he).trans hlocks

theorem update (h : LocksHeld c clusterId undecided locks) {tid : ℤ} {o : Option WALEntry}
    (ho : ∀ e ∈ o, c.items clusterId e.txn ⊆ locks) :
    LocksHeld c clusterId (Function.update undecided tid o) locks := by
  intro tid' e he
  by_cases ht : tid' = tid
  · subst ht
    rw [Function.update_self] at he
    exact ho e he
  · rw [Function.update_of_ne ht] at he
    exact h tid' e he

/-- Unlocking is harmless exactly when it spares the transactions that stay undecided. -/
theorem sdiff_iff (h : LocksHeld c clusterId undecided locks)
    (hsub : ∀ tid e, undecided' tid = some e → undecided tid = some e) (items : Finset ℤ) :
    LocksHeld c clusterId undecided' (locks \ items) ↔ Spares c clusterId undecided' items := by
  constructor
  · intro hheld tid e he
    exact Finset.disjoint_of_subset_right (hheld tid e he) Finset.disjoint_sdiff
  · intro hspares tid e he
    exact Finset.subset_sdiff.mpr ⟨h tid e (hsub tid e he), (hspares tid e he).symm⟩

end LocksHeld

namespace Server

variable {c : Constants} {fs : FileSystem} {s : Server} {input : Input} {r : Handled}

/-- A synchronization keeps the locks held exactly when the clients of the entries that it leaves
undecided are locked already: a synchronized entry takes no lock. -/
theorem locksHeld_sync_iff {clusterId : ℤ} {undecided : ℤ → Option WALEntry} {locks : Finset ℤ}
    (h : LocksHeld c clusterId undecided locks) (i : ℕ) (logs : List LogEntry) :
    LocksHeld c clusterId (syncUndecided fs i undecided logs) locks ↔
      ∀ tid, ∀ e ∈ logs, syncUndecided fs i undecided logs tid = some (fromLogEntry e) →
        c.items clusterId e.txn ⊆ locks := by
  constructor
  · intro hheld tid e _ he
    exact hheld tid _ he
  · intro hbrought tid e he
    rcases syncUndecided_cases he with hold | ⟨entry, hmem, rfl⟩
    · exact h tid e hold
    · exact hbrought tid entry hmem he

/-! ### One handler -/

/-- While the server is connected, the transactions in its index have their clients of the cluster
locked. -/
def Locked (c : Constants) (s : Server) : Prop :=
  s.iAmDisconnected = false → ∀ tid, s.wal.Has tid →
    ∃ e ∈ s.undecided tid, c.items s.clusterId e.txn ⊆ s.locks

/-- While the server is connected, its undecided transactions hold their locks. -/
def HoldsLocks (c : Constants) (s : Server) : Prop :=
  s.iAmDisconnected = false → LocksHeld c s.clusterId s.undecided s.locks

/-- Every tid in the index is of a transaction that the log has. -/
theorem locked_iff (hlogged : s.wal.Logged s.log) : s.Locked c ↔ s.HoldsLocks c := by
  refine forall_congr' fun _ => ⟨fun h tid e he => ?_, fun h tid hhas => ?_⟩
  · have hhas : s.wal.Has tid := (hlogged.isSome_iff tid).mp (Option.isSome_iff_exists.mpr ⟨e, he⟩)
    obtain ⟨e', he', hitems⟩ := h tid hhas
    obtain rfl := Option.some.inj (he'.symm.trans he)
    exact hitems
  · obtain ⟨e, he⟩ := Option.isSome_iff_exists.mp ((hlogged.isSome_iff tid).mpr hhas)
    exact ⟨e, he, h tid e he⟩

/-- A poll of a connected server goes on to the accept phase only for a transaction that
shares no client of the cluster with an undecided one. -/
def StartsNoConflict (c : Constants) (s : Server) : Prop :=
  s.iAmDisconnected = false → ∀ request, s.Proposes c request →
    Spares c s.clusterId s.undecided (c.items s.clusterId request.txn)

theorem HoldsLocks.startsNoConflict (h : s.HoldsLocks c) : s.StartsNoConflict c := by
  intro hconn request hproposes tid e he
  have hcond := hproposes.2.2.2
  unfold conditionsNotMet at hcond
  simp only [Bool.or_eq_false_iff, Bool.and_eq_false_imp, isClientInCluster_iff,
    decide_eq_false_iff_not] at hcond
  obtain ⟨⟨hsender, hreceiver⟩, -⟩ := hcond
  rw [Finset.disjoint_left]
  intro x hx hx'
  obtain ⟨rfl | rfl, hcluster⟩ := Constants.mem_items.mp hx
  · exact hsender hcluster (h hconn tid e he hx')
  · exact hreceiver hcluster (h hconn tid e he hx')

/-- The transaction that a decision reads back from the file. -/
def readBack (fs : FileSystem) (s : Server) (request : TpcTid) : Transaction :=
  match s.wal.transferIndex request.tid with
  | some position =>
      if fs.opens 1 then (s.wal.getTransactionFromFile fs position).txn else WALEntry.notFound.txn
  | none => WALEntry.notFound.txn

/-- No handler of a connected server unlocks a client of a transaction that stays undecided:
neither the end of an intra-shard round, nor a matching Commit, nor a decision. The entries that
a Sync reply leaves undecided have their clients locked already, and a server that connects again
has its locks. -/
def KeepsLocks (c : Constants) (s : Server) (fs : FileSystem) : Input → Prop
  | .request (.transfer request) => s.iAmDisconnected = false →
      s.Commits request ∨ s.Fails request →
        Spares c s.clusterId s.undecided {request.txn.sender, request.txn.receiver}
  | .request (.commit request) => s.Releases request →
      Spares c s.clusterId s.undecided (c.items s.clusterId s.acceptVal.txn)
  | .request (.tpcCommit request) | .request (.tpcAbort request) => s.iAmDisconnected = false →
      Spares c s.clusterId
        (if fs.opens 1 then Function.update s.undecided request.tid none else s.undecided)
        (c.items s.clusterId (s.readBack fs request))
  | .request (.disconnect request) => s.iAmDisconnected = true →
      (∀ name ∈ request.servers, idOfName c name ≠ s.serverId) →
        LocksHeld c s.clusterId s.undecided s.locks
  | .reply (.sync _) status (.sync response) => s.iAmDisconnected = false → status = .ok →
      response.ack = true → ∀ tid, ∀ e ∈ response.logs,
        syncUndecided fs 0 s.undecided response.logs tid = some (fromLogEntry e) →
          c.items s.clusterId e.txn ⊆ s.locks
  | _ => True

theorem erase_erase_eq_sdiff (locks : Finset ℤ) (txn : Transaction) :
    (locks.erase txn.sender).erase txn.receiver = locks \ {txn.sender, txn.receiver} := by
  ext x
  simp only [Finset.mem_erase, Finset.mem_sdiff, Finset.mem_insert, Finset.mem_singleton]
  tauto

/-- A decision unlocks the clients of the transaction it reads back. -/
theorem processTpcDecision_locks (c : Constants) (fs : FileSystem)
    (hconn : s.iAmDisconnected = false) (request : TpcTid) (isCommit : Bool) :
    (s.processTpcDecision c fs request isCommit).locks =
      s.locks \ c.items s.clusterId (s.readBack fs request) := by
  have hw : ∃ command, (if isCommit then s.wal.commitTransactionTid fs request
      else s.wal.abortTransaction fs request) =
        s.wal.endTransaction command (decision isCommit) fs request := by
    cases isCommit <;> exact ⟨_, rfl⟩
  obtain ⟨command, hw⟩ := hw
  have hread : (s.wal.endTransaction command (decision isCommit) fs request).2.txn =
      s.readBack fs request := by
    unfold WAL.endTransaction readBack
    cases s.wal.transferIndex request.tid with
    | none => rfl
    | some position =>
      dsimp only
      split_ifs <;> rfl
  have heq : s.processTpcDecision c fs request isCommit = _ :=
    processTpcDecision_eq request isCommit hconn
  rw [hw] at heq
  rw [heq, ← hread]
  cases isCommit <;> rfl

theorem forgotten_sub {undecided : ℤ → Option WALEntry} (request : TpcTid) :
    ∀ tid e, (if fs.opens 1 then Function.update undecided request.tid none else undecided) tid =
      some e → undecided tid = some e := by
  intro tid e he
  split_ifs at he
  · by_cases ht : tid = request.tid
    · subst ht
      simp at he
    · rwa [Function.update_of_ne ht] at he
  · exact he

theorem sdiff_held {undecided : ℤ → Option WALEntry}
    (h : LocksHeld c s.clusterId s.undecided s.locks) (hundecided : undecided = s.undecided)
    {items : Finset ℤ} (hspares : Spares c s.clusterId s.undecided items) :
    LocksHeld c s.clusterId undecided (s.locks \ items) := by
  subst hundecided
  exact (h.sdiff_iff (fun _ _ he => he) items).mpr hspares

/-- A handler that meets the condition keeps the locks held. -/
theorem Acted.holdsLocks (h : Acted c fs s input r) (hlogged : s.wal.Logged s.log)
    (hheld : s.HoldsLocks c) (hkeeps : s.KeepsLocks c fs input)
    (hinput : ∀ q, input ≠ .request (.disconnect q)) : r.server.HoldsLocks c := by
  cases h with
  | accepting isCrossShard request d hown hprep hmaj hcond hd =>
    subst hd
    intro hconn
    have hlocks : LocksHeld c s.clusterId s.undecided
        (insert request.txn.receiver (s.locks ∪ c.items s.clusterId request.txn)) :=
      (hheld hconn).mono (Finset.subset_union_left.trans (Finset.subset_insert _ _))
    cases isCrossShard with
    | false => exact hlocks
    | true =>
      show LocksHeld c s.clusterId (s.prepareTransaction fs request s.promisedNum).undecided _
      rw [prepareTransaction_undecided]
      refine hlocks.update fun e he => ?_
      obtain rfl := Option.some.inj he
      exact Finset.subset_union_right.trans (Finset.subset_insert _ _)
  | committed request d hown hprep hacc hmaj hd =>
    subst hd
    intro hconn
    dsimp only
    rw [erase_erase_eq_sdiff]
    exact sdiff_held (hheld hconn) (commitTransaction_undecided fs s request s.acceptNum)
      (hkeeps hconn (.inl ⟨hown, hprep, hacc, hmaj⟩))
  | failed isCrossShard request hown hprep hacc hmaj hfail =>
    intro hconn
    cases isCrossShard with
    | true => exact hheld hconn
    | false =>
      dsimp only
      rw [if_neg (by simp), erase_erase_eq_sdiff]
      exact sdiff_held (hheld hconn) rfl (hkeeps hconn (.inr ⟨hown, hprep, hacc, hmaj, hfail⟩))
  | accepted request d hconn hprom hnum hd =>
    intro hconn
    have hlocks : LocksHeld c s.clusterId s.undecided
        (s.locks ∪ c.items s.clusterId request.r.txn) :=
      (hheld hconn).mono Finset.subset_union_left
    by_cases hone : s.inCluster c request.r.txn = 1
    · rw [if_pos hone] at hd
      subst hd
      show LocksHeld c s.clusterId (s.prepareTransaction fs request.r request.ballot).undecided _
      rw [prepareTransaction_undecided]
      refine hlocks.update fun e he => ?_
      obtain rfl := Option.some.inj he
      exact Finset.subset_union_right
    · rw [if_neg hone] at hd
      subst hd
      exact hlocks
  | released request d hconn hprom hacc hd =>
    intro hconn
    have hspares := hkeeps ⟨hconn, hprom, hacc⟩
    by_cases htwo : s.inCluster c s.acceptVal.txn = 2
    · rw [if_pos htwo] at hd
      subst hd
      exact sdiff_held (hheld hconn) (commitTransaction_undecided fs s s.acceptVal s.acceptNum)
        hspares
    · rw [if_neg htwo] at hd
      subst hd
      exact sdiff_held (hheld hconn) rfl hspares
  | decided isCommit request d locks hconn hd hlocks =>
    subst hd hlocks
    intro _
    show LocksHeld c s.clusterId (s.processTpcDecision c fs request isCommit).undecided
      (s.processTpcDecision c fs request isCommit).locks
    rw [processTpcDecision_locks c fs hconn, processTpcDecision_undecided hconn]
    refine ((hheld hconn).sdiff_iff (forgotten_sub request) _).mpr ?_
    cases isCommit <;> exact hkeeps hconn
  | disconnected request => exact absurd rfl (hinput request)
  | synced request response d hack hd =>
    subst hd
    intro hconn
    show LocksHeld c s.clusterId (s.syncEntries c fs 0 response.logs).undecided s.locks
    rw [(syncEntries_undecided 0 response.logs hlogged).2]
    exact (locksHeld_sync_iff (hheld hconn) 0 response.logs).mpr (hkeeps hconn rfl hack)
  | _ => exact hheld

theorem spares_of_sdiff {undecided : ℤ → Option WALEntry} {locks items : Finset ℤ}
    (h : LocksHeld c s.clusterId undecided locks) (hundecided : undecided = s.undecided)
    (hlocks : locks = s.locks \ items) (hheld : LocksHeld c s.clusterId s.undecided s.locks) :
    Spares c s.clusterId s.undecided items := by
  subst hundecided hlocks
  exact (hheld.sdiff_iff (fun _ _ he => he) items).mp h

theorem decision_spares {request : TpcTid} (isCommit : Bool) (hheld : s.HoldsLocks c)
    (hafter : (s.react c fs (.request (.decision isCommit request))).server.HoldsLocks c)
    (hconn : s.iAmDisconnected = false) :
    Spares c s.clusterId
      (if fs.opens 1 then Function.update s.undecided request.tid none else s.undecided)
      (c.items s.clusterId (s.readBack fs request)) := by
  have hserver : (s.react c fs (.request (.decision isCommit request))).server =
      s.processTpcDecision c fs request isCommit := by
    cases isCommit <;> rfl
  have hsame : (s.processTpcDecision c fs request isCommit).clusterId = s.clusterId ∧
      (s.processTpcDecision c fs request isCommit).iAmDisconnected = s.iAmDisconnected := by
    rw [processTpcDecision_eq request isCommit hconn]
    cases isCommit <;> exact ⟨rfl, rfl⟩
  rw [hserver] at hafter
  have hlocks := hafter (hsame.2.trans hconn)
  rw [hsame.1, processTpcDecision_locks c fs hconn, processTpcDecision_undecided hconn] at hlocks
  exact ((hheld hconn).sdiff_iff (forgotten_sub request) _).mp hlocks

/-- A handler after which the locks are held meets the condition. -/
theorem keepsLocks_of_holdsLocks (hlogged : s.wal.Logged s.log) (hheld : s.HoldsLocks c)
    (hafter : (s.react c fs input).server.HoldsLocks c) : s.KeepsLocks c fs input := by
  unfold KeepsLocks
  split
  · rename_i request
    rintro hconn (hcommits | hfails)
    · have hserver : (s.react c fs (.request (.transfer request))).server =
          (s.finishCommit fs request false).server :=
        congrArg Handled.server (runPaxos_of_commits hcommits false)
      have hundecided := commitTransaction_undecided fs s request s.acceptNum
      rw [commitTransaction_eq] at hundecided
      rw [hserver, finishCommit_intra] at hafter
      exact spares_of_sdiff (hafter hconn) hundecided (erase_erase_eq_sdiff _ _) (hheld hconn)
    · have hserver : (s.react c fs (.request (.transfer request))).server =
          (({ s with awaitAcceptDecision := false }).endPaxos).unlockBoth request.txn :=
        congrArg Handled.server (runPaxos_of_fails hfails false)
      rw [hserver, unlockBoth_eq] at hafter
      exact spares_of_sdiff (hafter hconn) rfl (erase_erase_eq_sdiff _ _) (hheld hconn)
  · rename_i request
    intro hreleases
    have hconn := hreleases.1
    have hserver : (s.react c fs (.request (.commit request))).server = s.releaseAccepted c fs :=
      processCommitCall_of_releases hreleases
    rw [hserver] at hafter
    by_cases htwo : s.inCluster c s.acceptVal.txn = 2
    · have hundecided := commitTransaction_undecided fs s s.acceptVal s.acceptNum
      rw [commitTransaction_eq] at hundecided
      rw [releaseAccepted_intra htwo, commitTransaction_eq] at hafter
      exact spares_of_sdiff (hafter hconn) hundecided rfl (hheld hconn)
    · rw [releaseAccepted_other htwo] at hafter
      exact spares_of_sdiff (hafter hconn) rfl rfl (hheld hconn)
  · rename_i request
    exact fun hconn => decision_spares true hheld hafter hconn
  · rename_i request
    exact fun hconn => decision_spares false hheld hafter hconn
  · rename_i request
    intro _ hnames
    refine hafter ?_
    show (request.servers.any fun name => Decidable.decide (idOfName c name = s.serverId)) = false
    rw [List.any_eq_false]
    simpa using hnames
  · rename_i request status response
    rintro hconn rfl hack
    have hserver : (s.react c fs (.reply (.sync request) .ok (.sync response))).server =
        { s with
          wal := (s.syncEntries c fs 0 response.logs).wal
          log := (s.syncEntries c fs 0 response.logs).log
          balances := (s.syncEntries c fs 0 response.logs).balances
          db := (s.syncEntries c fs 0 response.logs).db
          ballotNum := response.lastInsertedBallot.num
          lastInserted := s.lastInserted + response.logs.length
          lastInsertedBallot := response.lastInsertedBallot
          inSync := false } := by
      show s.handleSyncReply c fs .ok response = _
      simp only [handleSyncReply, hack, and_self, if_true]
      rw [syncEntries_eq]
    rw [hserver] at hafter
    have hlocks : LocksHeld c s.clusterId (s.syncEntries c fs 0 response.logs).undecided s.locks :=
      hafter hconn
    rw [(syncEntries_undecided 0 response.logs hlogged).2] at hlocks
    exact (locksHeld_sync_iff (hheld hconn) 0 response.logs).mp hlocks
  · trivial

theorem react_holdsLocks_iff (hlogged : s.wal.Logged s.log) (hheld : s.HoldsLocks c) :
    (s.react c fs input).server.HoldsLocks c ↔ s.KeepsLocks c fs input := by
  refine ⟨keepsLocks_of_holdsLocks hlogged hheld, fun hkeeps => ?_⟩
  by_cases hinput : ∃ q, input = .request (.disconnect q)
  · obtain ⟨q, rfl⟩ := hinput
    intro hconn
    have hconn : (q.servers.any fun name => Decidable.decide (idOfName c name = s.serverId)) = false :=
      hconn
    show LocksHeld c s.clusterId s.undecided s.locks
    cases hbefore : s.iAmDisconnected with
    | false => exact hheld hbefore
    | true => exact hkeeps hbefore (by simpa [List.any_eq_false] using hconn)
  · exact (react_acted input).holdsLocks hlogged hheld hkeeps fun q hq => hinput ⟨q, hq⟩

end Server

/-! ### Every run -/

namespace Network

variable {c : Constants} {n n' : Network} {e : Event}

/-- Every connected server of the network holds the locks of the transactions in its index, and
so starts no conflicting one. -/
def AllLocked (c : Constants) (n : Network) : Prop :=
  ∀ x, (n.servers x).Locked c ∧ (n.servers x).StartsNoConflict c

theorem allLocked_iff_holdsLocks (hlogged : ∀ x, (n.servers x).wal.Logged (n.servers x).log) :
    AllLocked c n ↔ ∀ x, (n.servers x).HoldsLocks c := by
  constructor
  · exact fun h x => (Server.locked_iff (hlogged x)).mp (h x).1
  · exact fun h x => ⟨(Server.locked_iff (hlogged x)).mpr (h x), (h x).startsNoConflict⟩

theorem logged_step (hlogged : ∀ x, (n.servers x).wal.Logged (n.servers x).log)
    (h : step c n e = some n') (x : ℤ) : (n'.servers x).wal.Logged (n'.servers x).log :=
  (step_stepped h).server_invariant (I := fun _ s => s.wal.Logged s.log) hlogged
    (fun id _ _ _ _ hr => hr.logged (hlogged id)) x

theorem step_allLocked_iff (hlogged : ∀ x, (n.servers x).wal.Logged (n.servers x).log)
    (hlocked : AllLocked c n) (h : step c n e = some n') :
    AllLocked c n' ↔ Each (Server.KeepsLocks c) n e := by
  rw [allLocked_iff_holdsLocks hlogged] at hlocked
  rw [allLocked_iff_holdsLocks (logged_step hlogged h)]
  constructor
  · intro hafter
    apply each_of_acts
    intro id fs input hacts
    rw [← Server.react_holdsLocks_iff (hlogged id) (hlocked id)]
    have hid := hafter id
    rwa [step_acts h hacts, Function.update_self] at hid
  · intro hkeeps x
    cases (step_stepped h).changeAt x with
    | same hserver =>
      rw [hserver]
      exact hlocked x
    | handled fs input r hacts =>
      rw [step_acts h hacts, Function.update_self]
      exact (Server.react_holdsLocks_iff (hlogged x) (hlocked x)).mpr (hkeeps.acts hacts)

/-- In every state of a run every connected server holds the locks of the transactions in its
index exactly when no step of the run unlocks a client of another one. -/
theorem allLocked_iff {disk : ℤ → Disk} {es : List Event}
    (h : Reaches c (fun _ _ => True) disk es n) :
    Throughout (step c) (AllLocked c) (init c disk) es ↔
      Reaches c (Each (Server.KeepsLocks c)) disk es n := by
  have hlogged : ∀ x, ((init c disk).servers x).wal.Logged ((init c disk).servers x).log :=
    fun x tid hhas => absurd rfl hhas
  refine h.throughout_iff (J := fun n => ∀ x, (n.servers x).wal.Logged (n.servers x).log) ?_
    hlogged ?_ ?_
  · refine (allLocked_iff_holdsLocks hlogged).mpr fun x _ tid e he => ?_
    cases he
  · exact fun n e n' hlogged _ hstep => logged_step hlogged hstep
  · exact fun n e n' hlogged hlocked hstep => step_allLocked_iff hlogged hlocked hstep

/-- The inputs of a prepare and an accept phase, which unlock nothing. -/
def Locking (_ : Server) (_ : FileSystem) : Input → Prop
  | .request (.tpcPrepare _) | .request (.prepare _) | .request (.accept _)
  | .reply (.prepare _) _ _ | .reply (.accept _) _ _ => True
  | _ => False

instance (s : Server) (fs : FileSystem) (input : Input) : Decidable (Locking s fs input) := by
  refine Input.decidable (fun r => ?_) (fun r status response => ?_) input
  · apply Request.decidable (P := fun r => Locking s fs (.request r))
    all_goals
      intros
      dsimp only [Locking]
      infer_instance
  · apply Request.decidable (P := fun r => Locking s fs (.reply r status response))
    all_goals
      intros
      dsimp only [Locking]
      infer_instance

theorem Locking.keepsLocks {s : Server} {fs : FileSystem} {input : Input}
    (h : Locking s fs input) : s.KeepsLocks c fs input := by
  unfold Locking at h
  split at h <;> trivial

/-- Servers 1 and 2 prepare their half of a cross-shard transaction. -/
def preparedRun : List Event :=
  [.call 1 (.tpcPrepare ⟨⟨1, 1001, 3⟩, 1⟩), .arrives 0, .arrives 1, .returns 1, .arrives 0,
    .arrives 3, .returns 3, .arrives 0]

theorem allLocked_preparedRun :
    ∃ n, run (step .standard) (init .standard fun _ => .empty) preparedRun = some n ∧
      (n.servers 2).undecided 1 = some ⟨1, 1, 1, ⟨1, 1001, 3⟩, .cross, .prepared⟩ ∧
      Throughout (step .standard) (AllLocked .standard) (init .standard fun _ => .empty)
        preparedRun := by
  obtain ⟨n, hn, hundecided⟩ := (Option.any_eq_true _ _).mp
    (show (runIf (step .standard) (Each Locking) (init .standard fun _ => .empty)
      preparedRun).any (fun n => decide ((n.servers 2).undecided 1 =
        some ⟨1, 1, 1, ⟨1, 1001, 3⟩, .cross, .prepared⟩)) = true by decide +kernel)
  have hguard := runs_of_runIf hn
  exact ⟨n, hguard.run_eq, of_decide_eq_true hundecided,
    (allLocked_iff (hguard.mono fun _ _ _ => trivial)).mpr
      (hguard.mono fun _ _ h => h.mono fun _ _ _ hl => hl.keepsLocks)⟩

/-- The Commit of the prepare round unlocks the client of server 2 before the decision. -/
def unlockedRun : List Event := preparedRun ++ [.arrives 5]

theorem not_allLocked_unlockedRun :
    ¬ Throughout (step .standard) (AllLocked .standard) (init .standard fun _ => .empty)
      unlockedRun := by
  intro hall
  obtain ⟨n, hn, hbad⟩ := (Option.any_eq_true _ _).mp
    (show (run (step .standard) (init .standard fun _ => .empty) unlockedRun).any
      (fun n => decide ((n.servers 2).iAmDisconnected = false ∧ (n.servers 2).wal.Has 1 ∧
        (n.servers 2).undecided 1 = some ⟨1, 1, 1, ⟨1, 1001, 3⟩, .cross, .prepared⟩ ∧
        ¬ Constants.standard.items (n.servers 2).clusterId ⟨1, 1001, 3⟩ ⊆ (n.servers 2).locks)) =
      true by decide +kernel)
  obtain ⟨hconn, hhas, hundecided, hunlocked⟩ := of_decide_eq_true hbad
  obtain ⟨e, he, hitems⟩ := (hall _ [] n (List.append_nil _).symm hn 2).1 hconn 1 hhas
  obtain rfl := Option.some.inj (hundecided.symm.trans he)
  exact hunlocked hitems

end Network
end TpcBank
