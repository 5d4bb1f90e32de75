import TpcBank.Effects
import TpcBank.Library.Ledger
import TpcBank.Library.Transition

/-! The balances of a cluster are the replay of the committed entries of the log, under any
sequence of handlers with any messages. -/
namespace TpcBank
open Decimal Ledger

/-! ### A log as a ledger -/

def WALEntry.posting (e : WALEntry) : Posting ℤ ℤ :=
  ⟨e.txn.sender, e.txn.receiver, e.txn.amount⟩

/-- The postings of the committed entries. -/
def committed (log : List WALEntry) : List (Posting ℤ ℤ) :=
  (log.filter fun e => e.status = .committed).map WALEntry.posting

@[simp] theorem committed_nil : committed [] = [] := rfl

@[simp] theorem committed_append (log log' : List WALEntry) :
    committed (log ++ log') = committed log ++ committed log' := by
  simp [committed]

theorem net_committed_snoc (log : List WALEntry) (e : WALEntry) (x : ℤ) :
    net (committed (log ++ [e])) x =
      net (committed log) x + if e.status = .committed then e.posting.effect x else 0 := by
  rw [committed_append, net_append]
  by_cases h : e.status = .committed <;> simp [committed, h]

theorem movedBalances_eq (balances : ℤ → ℤ) (e : WALEntry) (x : ℤ) :
    Server.movedBalances balances e.txn x = balances x + e.posting.effect x := by
  exact sub_add_eq_add_sub _ _ _ |>.trans (add_sub_assoc _ _ _)

theorem storedBalances_apply (db : Text → Option Text) (balances : ℤ → ℤ) (clients : List ℤ)
    (x : ℤ) :
    Server.storedBalances db balances clients (decimal x) =
      if x ∈ clients then some (decimal (balances x)) else db (decimal x) := by
  induction clients with
  | nil => rfl
  | cons y clients ih =>
    simp only [Server.storedBalances, List.foldr_cons] at ih ⊢
    by_cases hxy : x = y
    · subst hxy
      simp
    · have hne : decimal x ≠ decimal y := fun h => hxy (decimal_injective h)
      rw [Function.update_of_ne hne, ih]
      simp [hxy]

/-! ### The invariant -/

/-- The clients whose balances a cluster keeps. -/
def Constants.IsClientOf (c : Constants) (clusterId x : ℤ) : Prop :=
  1 ≤ x ∧ x ≤ totalClients ∧ c.getClusterIdFromClientId x = clusterId

/-- The balances are the replay of the log, and the store holds their decimal texts. -/
structure Replayed (c : Constants) (clusterId : ℤ) (d : Data) : Prop where
  indexed : d.wal.Indexed
  positive : ∀ tid e, d.wal.pending tid = some e → 0 < tid
  balances : ∀ x, c.IsClientOf clusterId x → d.balances x = 10 + net (committed d.log) x
  stored : ∀ x, c.IsClientOf clusterId x → d.db (decimal x) = some (decimal (d.balances x))

theorem replayed_init (c : Constants) (id : ℤ) (disk : Disk) :
    Replayed c (c.getClusterIdFromServerId id) (Server.init c id disk).data where
  indexed := by
    intro tid position h
    simp [Server.init, Server.data] at h
  positive := by
    intro tid e h
    simp [Server.init, Server.data, WAL.pending] at h
  balances := by
    intro x hx
    simp [Server.init, Server.data, Constants.isClientInCluster, hx.1, hx.2.1, hx.2.2]
  stored := by
    intro x hx
    have hmem : clientIds.any (fun i => c.isClientInCluster i (c.getClusterIdFromServerId id) &&
        decide (decimal x = decimal i)) = true :=
      List.any_eq_true.mpr ⟨x, mem_clientIds.mpr ⟨hx.1, hx.2.1⟩, by
        simp [Constants.isClientInCluster, hx.2.2]⟩
    have hten : decimal 10 = "10".toList := by decide
    simp only [Server.init, Server.data]
    rw [if_pos hmem, if_pos ⟨hx.1, hx.2.1, by simp [Constants.isClientInCluster, hx.2.2]⟩, hten]

namespace Replayed

variable {c : Constants} {fs : FileSystem} {s : Server}

theorem prepareTransaction (h : Replayed c s.clusterId s.data) (hfs : fs.working)
    {request : TransferReq} (hpos : 0 < request.tid) (ballot : Ballot) :
    Replayed c s.clusterId (s.prepareTransaction fs request ballot).data := by
  have hw : s.wal.Indexed := h.indexed
  obtain ⟨hindexed, hpending⟩ := WAL.prepareTransaction_spec (hfs 0) hw request ballot
  rw [Server.prepareTransaction_eq]
  refine ⟨hindexed, ?_, ?_, h.stored⟩
  · intro tid e he
    rw [Server.data_wal, hpending] at he
    by_cases ht : tid = request.tid
    · rwa [ht]
    · exact h.positive tid e (by rwa [Function.update_of_ne ht] at he)
  · intro x hx
    simpa [net_committed_snoc, -committed_append] using h.balances x hx

theorem commitTransaction (h : Replayed c s.clusterId s.data) (hfs : fs.working)
    (request : TransferReq) (ballot : Ballot) :
    Replayed c s.clusterId (s.commitTransaction fs request ballot).data := by
  have hw : s.wal.Indexed := h.indexed
  obtain ⟨hindexed, hpending, hentry⟩ := WAL.commitTransaction_spec (hfs 0) hw request ballot
  rw [Server.commitTransaction_eq]
  refine ⟨hindexed, ?_, ?_, ?_⟩
  · intro tid e he
    rw [Server.data_wal, hpending] at he
    exact h.positive tid e he
  · intro x hx
    have hx := h.balances x hx
    simp only [Server.data_balances, Server.data_log] at hx ⊢
    rw [movedBalances_eq, net_committed_snoc, hx, hentry, if_pos rfl, add_assoc]
  · intro x hx
    have hx := h.stored x hx
    simp only [Server.data_balances, Server.data_db] at hx ⊢
    rw [storedBalances_apply]
    split_ifs with hmem
    · rfl
    · rw [hx]
      simp only [List.mem_cons, List.not_mem_nil, or_false, not_or] at hmem
      simp [Server.movedBalances, Ne.symm hmem.1, Ne.symm hmem.2]

/-- Applying a committed entry to the cluster while it is appended to the log. -/
theorem applyTxn {e : WALEntry} {s' : Server} (h : Replayed c s.clusterId s.data)
    (hcluster : s'.clusterId = s.clusterId) (hbalances : s'.balances = s.balances)
    (hdb : s'.db = s.db) (hindexed : s'.wal.Indexed)
    (hpositive : ∀ tid e, s'.wal.pending tid = some e → 0 < tid)
    (hnet : ∀ x, c.IsClientOf s.clusterId x →
      net (committed s'.log) x = net (committed s.log) x + e.posting.effect x) :
    Replayed c s.clusterId (s'.applyTxn c e.txn).data := by
  refine ⟨hindexed, hpositive, ?_, ?_⟩
  · intro x hx
    have hb := h.balances x hx
    simp only [Server.data, Server.applyTxn, Server.clusterBalances, hcluster, hbalances] at hb ⊢
    rw [if_pos hx.2.2, movedBalances_eq, hb, hnet x hx, add_assoc]
  · intro x hx
    have hs := h.stored x hx
    simp only [Server.data, Server.applyTxn, hcluster, hbalances, hdb] at hs ⊢
    rw [storedBalances_apply]
    split_ifs with hmem
    · rfl
    · have hne : e.txn.sender ≠ x ∧ e.txn.receiver ≠ x := by
        constructor <;> rintro rfl <;> simp [Server.clusterClients, hx.2.2] at hmem
      rw [hs]
      simp [Server.clusterBalances, Server.movedBalances, hne.1, hne.2]

/-- An entry that is appended without an effect on the balances. -/
theorem append {e : WALEntry} {s' : Server} (h : Replayed c s.clusterId s.data)
    (hbalances : s'.balances = s.balances) (hdb : s'.db = s.db)
    (hindexed : s'.wal.Indexed) (hpositive : ∀ tid e, s'.wal.pending tid = some e → 0 < tid)
    (hlog : s'.log = s.log ++ [e]) (hstatus : e.status ≠ .committed) :
    Replayed c s.clusterId s'.data := by
  refine ⟨hindexed, hpositive, ?_, ?_⟩
  · intro x hx
    have hb := h.balances x hx
    simp only [Server.data, hbalances, hlog, net_committed_snoc, if_neg hstatus, add_zero] at hb ⊢
    exact hb
  · intro x hx
    simpa [Server.data, hbalances, hdb] using h.stored x hx

theorem processTpcDecision (h : Replayed c s.clusterId s.data) (hcluster : 0 < s.clusterId)
    (hfs : fs.working) (hconn : s.iAmDisconnected = false) (request : TpcTid) (isCommit : Bool) :
    Replayed c s.clusterId (s.processTpcDecision c fs request isCommit).data := by
  have hindex : s.wal.Indexed := h.indexed
  cases hp : s.wal.pending request.tid with
  | none => rwa [Server.processTpcDecision_unknown isCommit hcluster hindex hp]
  | some e =>
    have hpos : 0 < request.tid := h.positive _ _ hp
    obtain ⟨wal, hindexed, hpending, heq⟩ := Server.processTpcDecision_pending (c := c) isCommit
      hconn hfs hindex hp (by omega)
    have hpositive : ∀ tid e', wal.pending tid = some e' → 0 < tid := by
      intro tid e' he'
      by_cases ht : tid = request.tid
      · rwa [ht]
      · exact h.positive tid e' (by rwa [hpending, Function.update_of_ne ht] at he')
    rw [heq]
    cases isCommit with
    | false => exact h.append rfl rfl hindexed hpositive rfl (by simp [Server.decision])
    | true =>
      refine h.applyTxn (e := { e with status := .committed }) rfl rfl rfl hindexed hpositive ?_
      intro x _
      rw [net_committed_snoc]
      rfl

theorem syncEntry (h : Replayed c s.clusterId s.data) {e : LogEntry} (hpos : 0 < e.tid) :
    Replayed c s.clusterId (s.syncEntry c true e).data := by
  have hw : s.wal.Indexed := h.indexed
  obtain ⟨hindexed, hpending⟩ := WAL.insertEntry_spec hw (Server.fromLogEntry e)
  have hpositive : ∀ tid e', (s.wal.insertEntry true (Server.fromLogEntry e)).pending tid = some e' →
      0 < tid := by
    intro tid e' he'
    rw [hpending] at he'
    unfold WAL.insertPending at he'
    by_cases ht : tid = e.tid
    · rwa [ht]
    · have ht' : tid ≠ (Server.fromLogEntry e).tid := ht
      cases hs : (Server.fromLogEntry e).status <;>
        simp only [hs, Function.update_of_ne ht'] at he' <;> exact h.positive tid e' he'
  rw [Server.syncEntry_eq]
  by_cases hs : (Server.fromLogEntry e).status = .committed
  · simp only [hs, if_true]
    refine h.applyTxn (e := Server.fromLogEntry e) rfl rfl rfl hindexed hpositive ?_
    intro x _
    rw [net_committed_snoc, if_pos hs]
  · simp only [hs, if_false]
    exact h.append rfl rfl hindexed hpositive rfl hs

end Replayed

namespace Server

variable {c : Constants} {fs : FileSystem} {s : Server}

theorem syncEntries_replayed (hfs : fs.working) {logs : List LogEntry}
    (hpos : ∀ e ∈ logs, 0 < e.tid) (i : ℕ) (h : Replayed c s.clusterId s.data) :
    Replayed c s.clusterId (s.syncEntries c fs i logs).data := by
  induction logs generalizing i s with
  | nil => exact h
  | cons e logs ih =>
    have hcluster : (s.syncEntry c true e).clusterId = s.clusterId :=
      congrArg (fun p => p.2.1) (syncEntry_identity true e)
    have hhead := h.syncEntry (hpos e List.mem_cons_self)
    rw [← hcluster] at hhead ⊢
    rw [syncEntries, hfs i]
    exact ih (fun e he => hpos e (List.mem_cons_of_mem _ he)) (i + 1) hhead

end Server

/-! ### Runs of one server -/

/-- The tids of the transactions that a message brings are positive. -/
def Request.tidsPositive : Request → Prop
  | .tpcPrepare r | .transfer r => 0 < r.tid
  | .accept r => 0 < r.r.tid
  | _ => True

def Input.tidsPositive : Input → Prop
  | .request r => r.tidsPositive
  | .reply (.sync _) .ok (.sync r) => ∀ e ∈ r.logs, 0 < e.tid
  | _ => True

namespace Server

/-- A server left to any sequence of handlers. -/
def step (c : Constants) (s : Server) (e : Input × FileSystem) : Option Server :=
  some (s.handle c e.2 e.1)

theorem Acted.replayed {c : Constants} {fs : FileSystem} {s : Server} {input : Input} {r : Handled}
    (hacted : Acted c fs s input r) (h : Replayed c s.clusterId s.data) (hcluster : 0 < s.clusterId)
    (hfs : fs.working) (hpos : input.tidsPositive) : Replayed c s.clusterId r.server.data := by
  have heffect := hacted.effect
  generalize r.response = response, r.server.data = d at heffect ⊢
  cases heffect with
  | kept => exact h
  | leaderPrepared request => exact h.prepareTransaction hfs hpos _
  | followerPrepared request => exact h.prepareTransaction hfs hpos _
  | leaderCommitted request => exact h.commitTransaction hfs _ _
  | followerCommitted request => exact h.commitTransaction hfs _ _
  | decided request isCommit response hconn =>
    exact h.processTpcDecision hcluster hfs hconn request isCommit
  | synced request response => exact syncEntries_replayed hfs hpos 0 h

/-- The invariant holds after any handlers with a working file system. -/
theorem runs_replayed (c : Constants) {id : ℤ} (hid : 0 < id) (disk : Disk)
    {es : List (Input × FileSystem)} {s : Server}
    (h : Transition.Runs (step c) (fun _ e => e.2.working ∧ e.1.tidsPositive) (init c id disk) es s) :
    0 < s.clusterId ∧ Replayed c s.clusterId s.data := by
  have hpos : ∀ {s : Server}, s.identity = (init c id disk).identity → 0 < s.clusterId := by
    intro s hidentity
    rw [show s.clusterId = c.getClusterIdFromServerId id from congrArg (fun p => p.2.1) hidentity]
    exact c.clusterIdFromServerId_pos hid
  have hinv : s.identity = (init c id disk).identity ∧ Replayed c s.clusterId s.data := by
    refine h.invariant (I := fun s => s.identity = (init c id disk).identity ∧
      Replayed c s.clusterId s.data) ⟨rfl, replayed_init c id disk⟩ ?_
    rintro s ⟨input, fs⟩ t ⟨hidentity, hreplayed⟩ ⟨hfs, htids⟩ hstep
    obtain rfl := Option.some.inj hstep
    have hacted : Acted c fs s input _ := react_acted input
    have hsame := hacted.identity
    refine ⟨hsame.trans hidentity, ?_⟩
    rw [show (s.handle c fs input).clusterId = s.clusterId from congrArg (fun p => p.2.1) hsame]
    exact hacted.replayed hreplayed (hpos hidentity) hfs htids
  exact ⟨hpos hinv.1, hinv.2⟩

/-- After any handlers, the balance of a client is ten plus what the committed entries of
the log paid to it less what it paid, and the store holds its text. -/
theorem balances_replay_log (c : Constants) {id : ℤ} (hid : 0 < id) (disk : Disk)
    {es : List (Input × FileSystem)} {s : Server}
    (h : Transition.Runs (step c) (fun _ e => e.2.working ∧ e.1.tidsPositive) (init c id disk) es s)
    {x : ℤ} (hx : 1 ≤ x ∧ x ≤ totalClients) (hin : s.isClientInCluster c x = true) :
    s.balances x = 10 + credits (committed s.log) x - debits (committed s.log) x ∧
      s.db (decimal x) = some (decimal (s.balances x)) := by
  have hinv := runs_replayed c hid disk h
  have hclient : c.IsClientOf s.clusterId x := ⟨hx.1, hx.2, by simpa using hin⟩
  refine ⟨?_, hinv.2.stored x hclient⟩
  have hbalance := hinv.2.balances x hclient
  rw [Server.data_balances, Server.data_log] at hbalance
  rw [hbalance, net, add_sub_assoc]

/-- A follower accepts a cross-shard transfer out of client 1, then the client commits it. -/
def crossShardInputs : List (Input × FileSystem) :=
  [.prepare ⟨⟨1, 2⟩, -1⟩, .accept ⟨⟨1, 2⟩, ⟨⟨1, 1500, 3⟩, 7⟩⟩, .commit ⟨⟨1, 2⟩⟩, .tpcCommit ⟨7⟩].map
    fun r => (.request r, .allOpen)

theorem balances_replay_log_crossShard :
    ∃ s, Transition.run (step .standard) (init .standard 1 .empty) crossShardInputs = some s ∧
      s.balances 1 = 7 ∧
      s.balances 1 = 10 + credits (committed s.log) 1 - debits (committed s.log) 1 ∧
      s.db (decimal 1) = some (decimal (s.balances 1)) := by
  refine ⟨_, rfl, by decide +kernel, ?_⟩
  have hrun : Transition.run (step .standard) (init .standard 1 .empty) crossShardInputs = some _ := rfl
  refine balances_replay_log .standard (by decide) .empty
    (Transition.runs_of_forall (P := fun e => e.2.working ∧ e.1.tidsPositive) hrun ?_)
    (by decide) (by decide +kernel)
  simp [crossShardInputs, FileSystem.allOpen_working, Input.tidsPositive, Request.tidsPositive]

end Server
end TpcBank
