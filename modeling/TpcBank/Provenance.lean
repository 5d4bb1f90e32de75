import TpcBank.Rounds
import TpcBank.LogEffects

/-! Where the entries of the logs come from: every entry of a server goes back to a request
that the client sent to the cluster of the server, and every decided one to a decision. -/
namespace TpcBank
open Transition

theorem Constants.cluster_zero (c : Constants) : c.getClusterIdFromClientId 0 = 0 := by
  simp [Constants.getClusterIdFromClientId, ceilDiv]

namespace Server

variable {c : Constants} {fs : FileSystem} {s : Server} {input : Input} {r : Handled}

/-- Where the accepted request comes from. -/
theorem Acted.acceptVal_cases (h : Acted c fs s input r) :
    r.server.acceptVal = s.acceptVal ∨
      (∃ isCrossShard, input = .request (.poll isCrossShard r.server.acceptVal)) ∨
      ∃ q : AcceptReq, input = .request (.accept q) ∧ r.server.acceptVal = q.r := by
  cases h with
  | accepting isCrossShard request => exact .inr (.inl ⟨isCrossShard, rfl⟩)
  | accepted request => exact .inr (.inr ⟨request, rfl, rfl⟩)
  | _ => exact .inl rfl

/-- Both clients are in the cluster only if they are in one cluster. -/
theorem inCluster_eq_two {txn : Transaction} :
    s.inCluster c txn = 2 ↔ c.getClusterIdFromClientId txn.sender = s.clusterId ∧
      c.getClusterIdFromClientId txn.receiver = s.clusterId := by
  unfold inCluster
  simp only [isClientInCluster_iff]
  split_ifs <;> simp [*]

theorem inCluster_eq_one {txn : Transaction} (h : s.inCluster c txn = 1) :
    c.getClusterIdFromClientId txn.sender ≠ c.getClusterIdFromClientId txn.receiver := by
  unfold inCluster at h
  simp only [isClientInCluster_iff] at h
  intro heq
  rw [heq] at h
  split_ifs at h <;> omega

end Server

namespace Network

/-- The client sends a Transfer only inside a cluster and a prepare only across clusters. -/
def Classified (c : Constants) : Event → Prop
  | .call _ (.transfer r) =>
      c.getClusterIdFromClientId r.txn.sender = c.getClusterIdFromClientId r.txn.receiver
  | .call _ (.tpcPrepare r) =>
      c.getClusterIdFromClientId r.txn.sender ≠ c.getClusterIdFromClientId r.txn.receiver
  | _ => True

/-- The client sent a request to a server of a cluster. -/
def Issued (c : Constants) (n : Network) (clusterId : ℤ) (request : Request) : Prop :=
  ∃ dst, c.getClusterIdFromServerId dst = clusterId ∧ n.Sent none dst request

/-- The client sent a decision for a tid. -/
def Decided (n : Network) (isCommit : Bool) (tid : ℤ) : Prop :=
  ∃ dst, n.Sent none dst (.decision isCommit ⟨tid⟩)

/-- What stands behind an entry in the log of a server of a cluster. -/
structure Vouched (c : Constants) (n : Network) (clusterId : ℤ) (e : WALEntry) : Prop where
  issued : Issued c n clusterId (.poll (e.type = .cross) ⟨e.txn, e.tid⟩)
  intra : e.type = .intra → e.status = .committed
  committed : e.type = .cross → e.status = .committed → n.Decided true e.tid
  aborted : e.type = .cross → e.status = .aborted → n.Decided false e.tid

/-- Everything a server holds of a transaction goes back to the client. -/
structure Provenance (c : Constants) (n : Network) : Prop where
  routed : Routed c n
  indexed : ∀ x, (n.servers x).wal.Indexed
  classified : ∀ dst isCrossShard r, n.Sent none dst (.poll isCrossShard r) →
    (c.getClusterIdFromClientId r.txn.sender = c.getClusterIdFromClientId r.txn.receiver ↔
      isCrossShard = false)
  accepts : ∀ p dst q, n.Sent (some p) dst (.accept q) →
    ∃ isCrossShard, Issued c n (c.getClusterIdFromServerId p) (.poll isCrossShard q.r)
  held : ∀ x, (n.servers x).acceptVal = {} ∨ ∃ isCrossShard,
    Issued c n (c.getClusterIdFromServerId x) (.poll isCrossShard (n.servers x).acceptVal)
  pending : ∀ x, 0 < c.getClusterIdFromServerId x → ∀ tid e,
    (n.servers x).wal.pending tid = some e →
      Issued c n (c.getClusterIdFromServerId x) (.tpcPrepare ⟨e.txn, tid⟩)
  logs : ∀ x, 0 < c.getClusterIdFromServerId x → ∀ e ∈ (n.servers x).log,
    Vouched c n (c.getClusterIdFromServerId x) e
  syncs : ∀ src dst q res, n.Answered src dst (.sync q) (.sync res) →
    0 < c.getClusterIdFromServerId dst → ∀ e ∈ res.logs,
      Vouched c n (c.getClusterIdFromServerId dst) (Server.fromLogEntry e)

variable {c : Constants} {n n' : Network} {e : Event}

theorem Issued.step {clusterId : ℤ} {request : Request} (h : Issued c n clusterId request)
    (hstep : Stepped c n e n') : Issued c n' clusterId request :=
  h.imp fun _ hs => ⟨hs.1, hs.2.step hstep⟩

theorem Decided.step {isCommit : Bool} {tid : ℤ} (h : n.Decided isCommit tid)
    (hstep : Stepped c n e n') : n'.Decided isCommit tid :=
  h.imp fun _ hs => hs.step hstep

theorem Vouched.step {clusterId : ℤ} {w : WALEntry} (h : Vouched c n clusterId w)
    (hstep : Stepped c n e n') : Vouched c n' clusterId w :=
  ⟨h.issued.step hstep, h.intra, fun ht hs => (h.committed ht hs).step hstep,
    fun ht hs => (h.aborted ht hs).step hstep⟩

theorem provenance_init (c : Constants) (disk : ℤ → Disk) : Provenance c (init c disk) where
  routed := routed_init c disk
  indexed := by
    intro x tid position h
    cases h
  classified := by
    rintro dst x r ⟨call, hmem, -⟩
    cases hmem
  accepts := by
    rintro p dst q ⟨call, hmem, -⟩
    cases hmem
  held := fun _ => .inl rfl
  pending := by
    intro x _ tid e h
    cases h
  logs := by
    intro x _ e he
    cases he
  syncs := by
    rintro src dst q res ⟨call, hmem, -⟩
    cases hmem

namespace Provenance

variable {fs : FileSystem} {input : Input} {r : Handled} {p : ℤ}

/-- A poll works on a request of the client. -/
theorem issued_poll (h : Provenance c n) (hacts : Acts n e p fs input) (isCrossShard : Bool)
    {request : TransferReq} (hinput : input = .request (.poll isCrossShard request)) :
    Issued c n (c.getClusterIdFromServerId p) (.poll isCrossShard request) := by
  subst hinput
  obtain ⟨src, hs⟩ := hacts.request_sent
  obtain rfl := h.routed.src_of_fromClient hs (by cases isCrossShard <;> rfl)
  exact ⟨p, rfl, hs⟩

/-- An Accept carries a request of the client to the cluster of the server. -/
theorem issued_accept (h : Provenance c n) (hacts : Acts n e p fs input) {q : AcceptReq}
    (hinput : input = .request (.accept q)) :
    ∃ isCrossShard, Issued c n (c.getClusterIdFromServerId p) (.poll isCrossShard q.r) := by
  subst hinput
  obtain ⟨src, hs⟩ := hacts.request_sent
  obtain ⟨p', rfl, hpeer⟩ := h.routed.accept hs
  rw [(Constants.mem_peers.mp hpeer).2.2]
  exact h.accepts p' p q hs

theorem issued_decision (h : Provenance c n) (hacts : Acts n e p fs input) {isCommit : Bool}
    {request : TpcTid} (hinput : input = .request (.decision isCommit request)) :
    n.Decided isCommit request.tid := by
  subst hinput
  obtain ⟨src, hs⟩ := hacts.request_sent
  obtain rfl := h.routed.src_of_fromClient hs (by cases isCommit <;> rfl)
  exact ⟨p, hs⟩

/-- A Sync reply comes from a server of the same cluster. -/
theorem vouched_sync (h : Provenance c n) (hacts : Acts n e p fs input) {q : SyncReq}
    {res : SyncRes} (hinput : input = .reply (.sync q) .ok (.sync res))
    (hpos : 0 < c.getClusterIdFromServerId p) :
    ∀ w ∈ res.logs, Vouched c n (c.getClusterIdFromServerId p) (Server.fromLogEntry w) := by
  subst hinput
  obtain ⟨dst, ha⟩ := hacts.reply_answered
  rw [← h.routed.sync ha.sent] at hpos ⊢
  exact h.syncs _ _ _ _ ha hpos

/-- The request that a transaction with one client in the cluster goes back to is a prepare. -/
theorem issued_cross (h : Provenance c n) {s : Server} {request : TransferReq}
    (hissued : ∃ isCrossShard, Issued c n (c.getClusterIdFromServerId p)
      (.poll isCrossShard request)) (hone : s.inCluster c request.txn = 1) :
    Issued c n (c.getClusterIdFromServerId p) (.tpcPrepare request) := by
  obtain ⟨isCrossShard, dst, hcluster, hs⟩ := hissued
  cases isCrossShard with
  | true => exact ⟨dst, hcluster, hs⟩
  | false =>
    have hsame := (h.classified dst false request hs).mpr rfl
    exact absurd hsame (Server.inCluster_eq_one hone)

/-- The accepted request that a Commit applies goes back to a Transfer. -/
theorem issued_held (h : Provenance c n) (hpos : 0 < c.getClusterIdFromServerId p)
    (htwo : (n.servers p).inCluster c (n.servers p).acceptVal.txn = 2) :
    Issued c n (c.getClusterIdFromServerId p) (.transfer (n.servers p).acceptVal) := by
  rw [Server.inCluster_eq_two, h.routed.clusterId] at htwo
  obtain ⟨hsender, hreceiver⟩ := htwo
  rcases h.held p with hdefault | ⟨isCrossShard, dst, hcluster, hs⟩
  · -- the default request has the client 0, which is in no cluster
    rw [hdefault] at hsender
    have hzero := c.cluster_zero
    dsimp only at hsender
    omega
  · have hsame := (h.classified dst isCrossShard _ hs).mp (hsender.trans hreceiver.symm)
    subst hsame
    exact ⟨dst, hcluster, hs⟩

/-- A decided entry is of a prepared transaction. -/
theorem vouched_decided {clusterId : ℤ} {isCommit : Bool} {w : WALEntry}
    (hissued : Issued c n clusterId (.tpcPrepare ⟨w.txn, w.tid⟩))
    (hdecided : n.Decided isCommit w.tid) (htype : w.type = .cross) :
    Vouched c n clusterId { w with status := Server.decision isCommit } := by
  refine ⟨?_, ?_, ?_, ?_⟩
  · rw [show decide (w.type = .cross) = true from decide_eq_true htype]
    exact hissued
  · intro hintra
    rw [htype] at hintra
    cases hintra
  · intro _ hstatus
    cases isCommit with
    | true => exact hdecided
    | false => cases hstatus
  · intro _ hstatus
    cases isCommit with
    | true => cases hstatus
    | false => exact hdecided

/-- A prepared entry is of a cross-shard transaction. -/
theorem issued_prepared {clusterId : ℤ} {w : WALEntry} (h : Vouched c n clusterId w)
    (hstatus : w.status = .prepared) : Issued c n clusterId (.tpcPrepare ⟨w.txn, w.tid⟩) := by
  have htype : w.type = .cross := by
    cases ht : w.type with
    | cross => rfl
    | intra =>
      have hcommitted := h.intra ht
      rw [hstatus] at hcommitted
      cases hcommitted
  have hissued := h.issued
  rw [show decide (w.type = .cross) = true from decide_eq_true htype] at hissued
  exact hissued

/-- Entries are appended to the log of a server. -/
theorem logs_append (h : Provenance c n) (hstep : Stepped c n e n')
    (hpos : 0 < c.getClusterIdFromServerId p) {new : List WALEntry}
    (hnew : ∀ w ∈ new, Vouched c n' (c.getClusterIdFromServerId p) w) :
    ∀ w ∈ (n.servers p).log ++ new, Vouched c n' (c.getClusterIdFromServerId p) w :=
  List.forall_mem_append.mpr ⟨fun w hw => (h.logs p hpos w hw).step hstep, hnew⟩

theorem pending_step (h : Provenance c n) (hstep : Stepped c n e n')
    (hpos : 0 < c.getClusterIdFromServerId p) (tid : ℤ) (w : WALEntry)
    (hw : (n.servers p).wal.pending tid = some w) :
    Issued c n' (c.getClusterIdFromServerId p) (.tpcPrepare ⟨w.txn, tid⟩) :=
  (h.pending p hpos tid w hw).step hstep

/-- A server prepares a request that the client has issued. -/
theorem prepared_handled (h : Provenance c n) (hstep : Stepped c n e n')
    (hpos : 0 < c.getClusterIdFromServerId p) {request : TransferReq} (ballot : Ballot)
    (hissued : Issued c n' (c.getClusterIdFromServerId p) (.tpcPrepare request)) :
    (∀ w ∈ (n.servers p).log ++ [preparedEntry request ballot],
      Vouched c n' (c.getClusterIdFromServerId p) w) ∧
      ∀ tid w, Function.update (n.servers p).wal.pending request.tid
        (some (preparedEntry request ballot)) tid = some w →
          Issued c n' (c.getClusterIdFromServerId p) (.tpcPrepare ⟨w.txn, tid⟩) := by
  constructor
  · apply h.logs_append hstep hpos
    intro w hw
    obtain rfl := List.mem_singleton.mp hw
    exact ⟨hissued, nofun, nofun, nofun⟩
  · intro tid w hw
    by_cases htid : tid = request.tid
    · subst htid
      rw [Function.update_self] at hw
      obtain rfl := Option.some.inj hw
      exact hissued
    · rw [Function.update_of_ne htid] at hw
      exact h.pending_step hstep hpos tid w hw

/-- A server commits a transfer that the client has issued. -/
theorem committed_handled (h : Provenance c n) (hstep : Stepped c n e n')
    (hpos : 0 < c.getClusterIdFromServerId p) {request : TransferReq} (ballot : Ballot)
    (hissued : Issued c n' (c.getClusterIdFromServerId p) (.transfer request)) :
    ∀ w ∈ (n.servers p).log ++ [committedEntry request ballot],
      Vouched c n' (c.getClusterIdFromServerId p) w := by
  apply h.logs_append hstep hpos
  intro w hw
  obtain rfl := List.mem_singleton.mp hw
  exact ⟨hissued, fun _ => rfl, nofun, nofun⟩

/-- The entries and the undecided transactions of a server after one of its handlers. -/
theorem logs_handled (h : Provenance c n) (hstep : Stepped c n e n') (hacts : Acts n e p fs input)
    (hpos : 0 < c.getClusterIdFromServerId p) {response : Option Response} {log : List WALEntry}
    {pending : ℤ → Option WALEntry}
    (heffect : (n.servers p).LogEffect c input response log pending) :
    (∀ w ∈ log, Vouched c n' (c.getClusterIdFromServerId p) w) ∧
      ∀ tid w, pending tid = some w →
        Issued c n' (c.getClusterIdFromServerId p) (.tpcPrepare ⟨w.txn, tid⟩) := by
  have holdLog : ∀ w ∈ (n.servers p).log, Vouched c n' (c.getClusterIdFromServerId p) w :=
    fun w hw => (h.logs p hpos w hw).step hstep
  have holdPending := h.pending_step hstep hpos
  cases heffect with
  | kept => exact ⟨holdLog, holdPending⟩
  | leaderPrepared request hproposes =>
    exact h.prepared_handled hstep hpos _ ((h.issued_poll hacts true rfl).step hstep)
  | followerPrepared request response hconn hprom hnum hone =>
    have hissued := h.issued_cross (h.issued_accept hacts rfl) hone
    exact h.prepared_handled hstep hpos _ (hissued.step hstep)
  | leaderCommitted request hcommits =>
    have hissued := (h.issued_poll hacts false rfl).step hstep
    exact ⟨h.committed_handled hstep hpos _ hissued, holdPending⟩
  | followerCommitted request response hreleases htwo =>
    have hissued := (h.issued_held hpos htwo).step hstep
    exact ⟨h.committed_handled hstep hpos _ hissued, holdPending⟩
  | decided isCommit request w response hconn hpending htid htype =>
    have hissued := holdPending _ _ hpending
    have hdecided := (h.issued_decision hacts rfl).step hstep
    constructor
    · split_ifs
      · apply h.logs_append hstep hpos
        intro w' hw'
        obtain rfl := List.mem_singleton.mp hw'
        rw [← htid] at hissued hdecided
        exact vouched_decided hissued hdecided htype
      · exact holdLog
    · intro tid w' hw'
      by_cases ht : tid = request.tid
      · subst ht
        simp at hw'
      · rw [Function.update_of_ne ht] at hw'
        exact holdPending tid w' hw'
  | synced request res hack =>
    have hvouched := h.vouched_sync hacts rfl hpos
    constructor
    · apply h.logs_append hstep hpos
      intro w hw
      obtain ⟨entry, hentry, rfl⟩ := List.mem_map.mp hw
      exact (hvouched entry hentry).step hstep
    · refine Server.syncPending_invariant (I := fun pending => ∀ tid w, pending tid = some w →
        Issued c n' (c.getClusterIdFromServerId p) (.tpcPrepare ⟨w.txn, tid⟩)) holdPending ?_
      intro pending entry hentry ih tid w hw
      rcases Server.insertPending_some hw with hold | ⟨hstatus, rfl, rfl⟩
      · exact ih tid w hold
      · have hissued := issued_prepared ((hvouched entry hentry).step hstep) hstatus
        exact hissued

theorem step (h : Provenance c n) (hstep : Stepped c n e n') (hworking : e.working)
    (hclassified : Classified c e) : Provenance c n' := by
  have hrouted := h.routed.step hstep
  have hindexed := hstep.server_invariant (I := fun _ s => s.wal.Indexed) h.indexed
    fun id _ _ _ hacts hr => (hr.effect.logEffect (hacts.working hworking) (h.indexed id)).1
  have hlogs := hstep.server_invariant (I := fun x s => 0 < c.getClusterIdFromServerId x →
      (∀ w ∈ s.log, Vouched c n' (c.getClusterIdFromServerId x) w) ∧
      ∀ tid w, s.wal.pending tid = some w →
        Issued c n' (c.getClusterIdFromServerId x) (.tpcPrepare ⟨w.txn, tid⟩))
    (fun x hx => ⟨fun w hw => (h.logs x hx w hw).step hstep,
      fun tid w hw => (h.pending x hx tid w hw).step hstep⟩)
    fun id _ _ _ hacts hr hx => h.logs_handled hstep hacts hx
      (hr.effect.logEffect (hacts.working hworking) (h.indexed id)).2
  have hheld := hstep.server_invariant (I := fun x s => s.acceptVal = {} ∨ ∃ isCrossShard,
      Issued c n' (c.getClusterIdFromServerId x) (.poll isCrossShard s.acceptVal))
    (fun x => (h.held x).imp_right fun hx => hx.imp fun _ hi => hi.step hstep) ?_
  · refine ⟨hrouted, hindexed, ?_, ?_, hheld, fun x hx => (hlogs x hx).2,
      fun x hx => (hlogs x hx).1, ?_⟩
    · intro dst x r hs
      rcases hstep.client_before hs with hold | ⟨rfl, -⟩
      · exact h.classified dst x r hold
      · cases x with
        | true => exact iff_of_false hclassified (by simp)
        | false => exact iff_of_true hclassified rfl
    · intro p dst q hs
      have hold : n.Sent (some p) dst (.accept q) → ∃ isCrossShard,
          Issued c n' (c.getClusterIdFromServerId p) (.poll isCrossShard q.r) :=
        fun hs => (h.accepts p dst q hs).imp fun _ hi => hi.step hstep
      rcases hstep.sent_before hs with hs | ⟨fs, input, r', hacts, hr, -, ho⟩
      · exact hold hs
      · obtain ⟨x, hinput, -⟩ := hr.sent_accept ho
        exact ⟨x, (h.issued_poll hacts x hinput).step hstep⟩
    · intro src dst q res ha hpos w hw
      rcases hstep.answered_before ha with hold | ⟨fs, r', hacts, hr, -, -, hres⟩
      · exact (h.syncs src dst q res hold hpos w hw).step hstep
      · have hsync := hr.response_sync rfl hres
        simp only [Response.sync.injEq] at hsync
        rw [hsync] at hw
        exact (h.logs dst hpos _ (Server.mem_processSyncCall hw)).step hstep
  · intro id fs input r hacts hr
    rcases hr.acceptVal_cases with hsame | ⟨x, hinput⟩ | ⟨q, hinput, hval⟩
    · rw [hsame]
      exact (h.held id).imp_right fun hx => hx.imp fun _ hi => hi.step hstep
    · exact .inr ⟨x, (h.issued_poll hacts x hinput).step hstep⟩
    · rw [hval]
      exact .inr ((h.issued_accept hacts hinput).imp fun _ hi => hi.step hstep)

end Provenance

theorem reaches_provenance {disk : ℤ → Disk} {es : List Event}
    (h : Reaches c (fun _ e => e.working ∧ Classified c e) disk es n) : Provenance c n :=
  h.invariant (provenance_init c disk) fun _ _ _ hn hguard hstep =>
    hn.step (step_stepped hstep) hguard.1 hguard.2

end Network
end TpcBank
