import TpcBank.LoneLeader
import TpcBank.Shards
import TpcBank.CsvReader

/-! Whether the balances of a lone leader stay within an `int`. The accept phase only checks that
the sender has the amount, which bounds both balances when no amount is negative and neither of
them when one is. -/
namespace TpcBank
open Transition Ledger

namespace Server

variable {c : Constants} {fs : FileSystem} {s s' : Server} {input : Input} {r : Handled}
  {book : ℤ → Request} {txn : Transaction}

/-- What a lone leader of transfers handles: transfers with both clients in the cluster and an
`int` as amount, and anything else but a cross-shard prepare, an Accept, a Commit or a Sync reply
with entries. -/
def TransferInput (c : Constants) (clusterId : ℤ) : Input → Prop
  | .request (.transfer request) => IsInt request.txn.amount ∧
      c.getClusterIdFromClientId request.txn.sender = clusterId ∧
      c.getClusterIdFromClientId request.txn.receiver = clusterId
  | .request (.tpcPrepare _) | .request (.accept _) | .request (.commit _) => False
  | .reply (.sync _) _ response => response.toSync.logs = []
  | _ => True

/-! ### The property -/

/-- The subtraction and the addition of `commitTransaction` are within an `int`. -/
def CommitFits (s : Server) (fs : FileSystem) (request : TransferReq) : Prop :=
  let entry := (s.wal.commitTransaction fs request s.acceptNum).2
  let s' := s.addBalance entry.txn.sender (-entry.txn.amount)
  IsInt (s'.balances entry.txn.sender) ∧
    IsInt ((s'.addBalance entry.txn.receiver entry.txn.amount).balances entry.txn.receiver)

/-- A poll that commits does not overflow. -/
def ArithmeticFits (s : Server) (e : Input × FileSystem) : Prop :=
  match e.1 with
  | .request (.transfer request) => s.Commits request → s.CommitFits e.2 request
  | _ => True

/-! ### The condition -/

/-- Both balances of a transaction would stay within an `int`, the sender's one also before the
receiver's is changed. -/
def Fits (balances : ℤ → ℤ) (txn : Transaction) : Prop :=
  IsInt (balances txn.sender - txn.amount) ∧ IsInt (movedBalances balances txn txn.receiver)

instance (z : ℤ) : Decidable (IsInt z) :=
  inferInstanceAs (Decidable (_ ∧ _))

instance (balances : ℤ → ℤ) (txn : Transaction) : Decidable (Fits balances txn) :=
  inferInstanceAs (Decidable (_ ∧ _))

/-- Whether the transfer in its accept phase fitted when the phase began. -/
def fitted (c : Constants) (s : Server) (e : Input × FileSystem) (fits : Bool) : Bool :=
  match e.1 with
  | .request (.transfer request) =>
      if s.Proposes c request then Decidable.decide (Fits s.balances request.txn) else fits
  | _ => fits

/-- A server beside which that is kept. -/
abbrev fittedStep (c : Constants) : Server × Bool → Input × FileSystem → Option (Server × Bool) :=
  withGhost (step c) (fitted c)

/-- A transfer that is committed to the WAL fitted when its accept phase began. -/
def CommitsFitted (p : Server × Bool) (e : Input × FileSystem) : Prop :=
  match e.1 with
  | .request (.transfer request) => p.1.Commits request → e.2.opens 0 = true → p.2 = true
  | _ => True

/-! ### The invariant -/

/-- What a lone leader of transfers keeps: nothing is ever prepared, and the balances of the
accept phase are still those it began with. -/
structure Transferring (c : Constants) (clusterId : ℤ) (book : ℤ → Request)
    (p : Server × Bool) : Prop where
  cluster : p.1.clusterId = clusterId
  phases : p.1.Phases
  unprepared : ∀ tid, p.1.wal.transferIndex tid = none
  sentinel : p.1.balances (-1) = 0
  running : p.1.awaitAcceptDecision = true → p.1.paxosTid = p.1.acceptVal.tid ∧
    (book p.1.acceptVal.tid).polled = some p.1.acceptVal ∧
    p.2 = Decidable.decide (Fits p.1.balances p.1.acceptVal.txn)

theorem transferring_init (c : Constants) (book : ℤ → Request) (id : ℤ) (disk : Disk) :
    Transferring c (c.getClusterIdFromServerId id) book (init c id disk, false) where
  cluster := rfl
  phases := ⟨nofun, nofun, nofun⟩
  unprepared := fun _ => rfl
  sentinel := by simp [init]
  running := nofun

theorem commitFits_iff (request : TransferReq) : s.CommitFits fs request ↔
    Fits s.balances (s.wal.commitTransaction fs request s.acceptNum).2.txn := by
  generalize hr : s.wal.commitTransaction fs request s.acceptNum = r
  unfold CommitFits Fits
  simp only [hr, addBalance, movedBalances, Function.update_self, sub_eq_add_neg]
  by_cases hsame : r.2.txn.sender = r.2.txn.receiver
  · simp [hsame]
  · have hne : r.2.txn.receiver ≠ r.2.txn.sender := Ne.symm hsame
    simp [hsame, Function.update_of_ne hne]

theorem fits_notFound (h : s.balances (-1) = 0) : Fits s.balances WALEntry.notFound.txn := by
  unfold Fits
  rw [movedBalances_notFound]
  unfold WALEntry.notFound IsInt
  simp [h]

theorem commitTransaction_txn (request : TransferReq) :
    movedBalances s.balances (s.wal.commitTransaction fs request s.acceptNum).2.txn =
      if fs.opens 0 then movedBalances s.balances request.txn else s.balances := by
  unfold WAL.commitTransaction
  split_ifs
  · rfl
  · exact movedBalances_notFound s.balances

theorem fitted_of_await (hphases : s.Phases) (hacc : s.awaitAcceptDecision = true)
    (e : Input × FileSystem) (fits : Bool) : fitted c s e fits = fits := by
  unfold fitted
  split
  · rw [if_neg]
    rintro ⟨-, hprep, -⟩
    rw [hphases.one hprep] at hacc
    cases hacc
  · rfl

namespace Transferring

variable {clusterId : ℤ} {fits fits' : Bool}

/-- A handler that leaves the balances and the index alone. -/
theorem frame (h : Transferring c clusterId book (s, fits)) (hphases : s'.Phases)
    (hcluster : s'.clusterId = s.clusterId)
    (hindex : s'.wal.transferIndex = s.wal.transferIndex) (hbalances : s'.balances = s.balances)
    (hawait : s'.awaitAcceptDecision = true → s.awaitAcceptDecision = true ∧
      s'.acceptVal = s.acceptVal ∧ s'.paxosTid = s.paxosTid ∧ fits' = fits) :
    Transferring c clusterId book (s', fits') where
  cluster := hcluster.trans h.cluster
  phases := hphases
  unprepared := fun tid => (congrFun hindex tid).trans (h.unprepared tid)
  sentinel := (congrFun hbalances (-1)).trans h.sentinel
  running := by
    intro hafter
    obtain ⟨hbefore, hval, htid, rfl⟩ := hawait hafter
    show s'.paxosTid = s'.acceptVal.tid ∧ (book s'.acceptVal.tid).polled = some s'.acceptVal ∧
      fits' = Decidable.decide (Fits s'.balances s'.acceptVal.txn)
    rw [hval, htid, hbalances]
    exact h.running hbefore

/-- No decision finds a transaction. -/
theorem decision (h : Transferring c clusterId book (s, fits)) (hcluster : 0 < clusterId)
    (request : TpcTid) (isCommit : Bool) : s.processTpcDecision c fs request isCommit = s := by
  have hindexed : s.wal.Indexed := by
    intro tid position hi
    rw [h.unprepared tid] at hi
    cases hi
  apply processTpcDecision_unknown isCommit (by rw [h.cluster]; exact hcluster) hindexed
  exact hindexed.pending_eq_none.mpr (h.unprepared _)

/-- The transaction that a poll commits has the clients of the request, or of the failed open. -/
theorem commit_sentinel (h : Transferring c clusterId book (s, fits)) (hcluster : 0 < clusterId)
    {request : TransferReq} (hinput : TransferInput c clusterId (.request (.transfer request))) :
    movedBalances s.balances (s.wal.commitTransaction fs request s.acceptNum).2.txn (-1) = 0 := by
  have hzero : s.balances (-1) = 0 := h.sentinel
  obtain ⟨-, hsender, hreceiver⟩ := hinput
  have hne : ∀ x, c.getClusterIdFromClientId x = clusterId → x ≠ -1 := by
    rintro x hx rfl
    have := c.sentinel_client
    omega
  rw [commitTransaction_txn]
  split_ifs
  · rw [movedBalances, if_neg (hne _ hsender), if_neg (hne _ hreceiver), hzero, sub_zero, add_zero]
  · exact hzero

theorem acted (h : Transferring c clusterId book (s, fits)) (hacted : Acted c fs s input r)
    (hcluster : 0 < clusterId) (hinput : TransferInput c clusterId input)
    (hbook : ∀ q request, input = .request q → q.polled = some request → book request.tid = q) :
    Transferring c clusterId book (r.server, fitted c s (input, fs) fits) := by
  have hphases := hacted.phases h.phases
  have hfits : s.awaitAcceptDecision = true → fitted c s (input, fs) fits = fits := fun hacc =>
    fitted_of_await h.phases hacc (input, fs) fits
  cases hacted with
  | opened isCrossShard request hown hprep hacc =>
    refine h.frame hphases rfl rfl rfl fun hawait => ?_
    rw [show s.awaitAcceptDecision = true from hawait] at hacc
    cases hacc
  | rejected isCrossShard request hown hprep =>
    refine h.frame hphases rfl rfl rfl fun hawait => ?_
    have hone := h.phases.one hprep
    rw [show s.awaitAcceptDecision = true from hawait] at hone
    cases hone
  | accepting isCrossShard request d hown hprep hmaj hcond hd =>
    cases isCrossShard with
    | true => exact hinput.elim
    | false =>
      subst hd
      refine ⟨h.cluster, hphases, h.unprepared, h.sentinel, fun _ => ⟨?_, ?_, ?_⟩⟩
      · exact hown.2 (h.phases.prepare hprep)
      · dsimp only
        rw [hbook _ request rfl rfl]
        rfl
      · exact if_pos ⟨hown, hprep, hmaj, hcond⟩
  | finished => exact hinput.elim
  | committed request d hown hprep hacc hmaj hd =>
    subst hd
    rw [commitTransaction_eq] at hphases ⊢
    refine ⟨h.cluster, hphases, fun tid => ?_, h.commit_sentinel hcluster hinput, nofun⟩
    have hindex : (s.wal.commitTransaction fs request s.acceptNum).1.transferIndex =
        s.wal.transferIndex := by
      unfold WAL.commitTransaction
      split_ifs <;> rfl
    exact (congrFun hindex tid).trans (h.unprepared tid)
  | failed isCrossShard request hown hprep hacc hmaj hfail =>
    exact h.frame hphases rfl rfl rfl nofun
  | accepted => exact hinput.elim
  | released => exact hinput.elim
  | decided isCommit request d locks hconn hd hlocks =>
    rw [h.decision hcluster] at hd
    subst hd
    exact h.frame hphases rfl rfl rfl fun hawait => ⟨hawait, rfl, rfl, hfits hawait⟩
  | synced request response d hack hd =>
    have hnone : response.logs = [] := hinput
    rw [hnone, syncEntries_nil] at hd
    subst hd
    exact h.frame hphases rfl rfl rfl fun hawait => ⟨hawait, rfl, rfl, hfits hawait⟩
  | _ => exact h.frame hphases rfl rfl rfl fun hawait => ⟨hawait, rfl, rfl, hfits hawait⟩

/-- A poll in the accept phase is a poll of the transfer of the phase. -/
theorem polled (h : Transferring c clusterId book (s, fits)) {request : TransferReq}
    (hbook : book request.tid = .transfer request) (hown : s.Owns request.tid)
    (hacc : s.awaitAcceptDecision = true) : request = s.acceptVal := by
  obtain ⟨htid, hpolled, -⟩ := h.running hacc
  have hsame : request.tid = s.acceptVal.tid := (hown.2 (h.phases.accept hacc)).symm.trans htid
  have hpolled : (book s.acceptVal.tid).polled = some s.acceptVal := hpolled
  rw [← hsame, hbook] at hpolled
  exact Option.some.inj hpolled

/-- A poll that commits overflows exactly when its transfer did not fit to begin with. -/
theorem fits_iff (h : Transferring c clusterId book (s, fits)) {e : Input × FileSystem}
    (hbook : ∀ q request, e.1 = .request q → q.polled = some request → book request.tid = q) :
    s.ArithmeticFits e ↔ CommitsFitted (s, fits) e := by
  unfold ArithmeticFits CommitsFitted
  split
  · rename_i request hrequest
    refine forall_congr' fun hcommits => ?_
    have hval := h.polled (hbook _ request hrequest rfl) hcommits.1 hcommits.2.2.1
    have hfits : fits = Decidable.decide (Fits s.balances s.acceptVal.txn) :=
      (h.running hcommits.2.2.1).2.2
    rw [commitFits_iff, hfits, hval]
    unfold WAL.commitTransaction
    split_ifs with hopen
    · simp [hopen]
    · simp [hopen, fits_notFound h.sentinel]
  · rfl

end Transferring

/-! ### Amounts that are not negative -/

/-- No transfer has a negative amount. -/
def Unsigned : Input → Prop
  | .request (.transfer request) => 0 ≤ request.txn.amount
  | _ => True

/-- No client is overdrawn, the clients together have what they began with, and the transfer in
its accept phase is covered and fits. -/
structure Funded (c : Constants) (clusterId : ℤ) (p : Server × Bool) : Prop where
  solvent : ∀ x ∈ c.clientsOf clusterId, 0 ≤ p.1.balances x
  total : ∑ x ∈ c.clientsOf clusterId, p.1.balances x = 10 * (c.clientsOf clusterId).card
  running : p.1.awaitAcceptDecision = true → p.2 = true ∧ 0 ≤ p.1.acceptVal.txn.amount ∧
    p.1.acceptVal.txn.amount ≤ p.1.balances p.1.acceptVal.txn.sender

theorem mem_clientsOf {clusterId x : ℤ} (hcluster : 1 ≤ clusterId ∧ clusterId ≤ c.numClusters) :
    x ∈ c.clientsOf clusterId ↔ c.getClusterIdFromClientId x = clusterId := by
  rw [Constants.clientsOf, Finset.mem_filter, Finset.mem_Icc]
  constructor
  · exact And.right
  · rintro rfl
    exact ⟨Constants.clientCluster_mem_iff.mp hcluster, rfl⟩

theorem card_clientsOf_le (clusterId : ℤ) : (c.clientsOf clusterId).card ≤ 3000 := by
  refine (Finset.card_filter_le _ _).trans ?_
  rw [Int.card_Icc]
  decide

theorem funded_init (c : Constants) (id : ℤ) (disk : Disk) :
    Funded c (c.getClusterIdFromServerId id) (init c id disk, false) := by
  have hten : ∀ x ∈ c.clientsOf (c.getClusterIdFromServerId id), (init c id disk).balances x = 10 := by
    intro x hx
    rw [Constants.clientsOf, Finset.mem_filter, Finset.mem_Icc] at hx
    exact if_pos ⟨hx.1.1, hx.1.2, decide_eq_true hx.2⟩
  refine ⟨fun x hx => ?_, ?_, fun hacc => absurd hacc Bool.false_ne_true⟩
  · rw [show (init c id disk).balances x = 10 from hten x hx]
    decide
  · rw [Finset.sum_congr rfl hten, Finset.sum_const, nsmul_eq_mul, mul_comm]

namespace Funded

variable {clusterId : ℤ} {fits fits' : Bool}

/-- Nobody has more than everybody. -/
theorem balance_le (h : Funded c clusterId (s, fits)) {x : ℤ} (hx : x ∈ c.clientsOf clusterId) :
    s.balances x ≤ 30000 := by
  have hcard := card_clientsOf_le (c := c) clusterId
  have htotal : ∑ x ∈ c.clientsOf clusterId, s.balances x = 10 * (c.clientsOf clusterId).card :=
    h.total
  have hle := Finset.single_le_sum h.solvent hx
  dsimp only at hle
  omega

/-- What the accept phase checks is enough. -/
theorem fits_of_covered (h : Funded c clusterId (s, fits)) (hamount : 0 ≤ txn.amount)
    (hcover : txn.amount ≤ s.balances txn.sender) (hsender : txn.sender ∈ c.clientsOf clusterId)
    (hreceiver : txn.receiver ∈ c.clientsOf clusterId) : Fits s.balances txn := by
  have hs := h.balance_le hsender
  have hr := h.balance_le hreceiver
  have hr0 : 0 ≤ s.balances txn.receiver := h.solvent _ hreceiver
  unfold Fits movedBalances IsInt
  rw [if_pos rfl]
  split_ifs <;> omega

theorem frame (h : Funded c clusterId (s, fits)) (hbalances : s'.balances = s.balances)
    (hawait : s'.awaitAcceptDecision = true → s.awaitAcceptDecision = true ∧
      s'.acceptVal = s.acceptVal ∧ fits' = fits) : Funded c clusterId (s', fits') := by
  refine ⟨?_, ?_, fun hafter => ?_⟩
  · rw [hbalances]
    exact h.solvent
  · rw [hbalances]
    exact h.total
  · obtain ⟨hbefore, hval, rfl⟩ := hawait hafter
    show fits' = true ∧ 0 ≤ s'.acceptVal.txn.amount ∧
      s'.acceptVal.txn.amount ≤ s'.balances s'.acceptVal.txn.sender
    rw [hval, hbalances]
    exact h.running hbefore

/-- A transfer between two clients of the cluster that its sender can pay. -/
theorem moved (h : Funded c clusterId (s, fits)) (hamount : 0 ≤ txn.amount)
    (hcover : txn.amount ≤ s.balances txn.sender) (hsender : txn.sender ∈ c.clientsOf clusterId)
    (hreceiver : txn.receiver ∈ c.clientsOf clusterId)
    (hbalances : s'.balances = movedBalances s.balances txn)
    (hafter : s'.awaitAcceptDecision = false) : Funded c clusterId (s', fits') := by
  constructor
  · intro x hx
    show 0 ≤ s'.balances x
    rw [hbalances]
    refine movedBalances_nonneg (h.solvent x hx) hamount ?_
    rintro rfl
    exact hcover
  · show ∑ x ∈ c.clientsOf clusterId, s'.balances x = _
    let e : WALEntry := ⟨0, 0, 0, txn, .intra, .committed⟩
    have heffect := e.posting.sum_effect (c.clientsOf clusterId)
    have hmoved : ∀ x, s'.balances x = s.balances x + e.posting.effect x := by
      intro x
      rw [hbalances]
      exact movedBalances_eq s.balances e x
    rw [if_pos (show e.posting.target ∈ c.clientsOf clusterId from hreceiver),
      if_pos (show e.posting.source ∈ c.clientsOf clusterId from hsender), sub_self] at heffect
    rw [Finset.sum_congr rfl fun x _ => hmoved x, Finset.sum_add_distrib, heffect, add_zero]
    exact h.total
  · intro hawait
    rw [show s'.awaitAcceptDecision = true from hawait] at hafter
    cases hafter

theorem acted (h : Funded c clusterId (s, fits)) (htransferring : Transferring c clusterId book (s, fits))
    (hacted : Acted c fs s input r) (hcluster : 1 ≤ clusterId ∧ clusterId ≤ c.numClusters)
    (hinput : TransferInput c clusterId input) (hunsigned : Unsigned input)
    (hbook : ∀ q request, input = .request q → q.polled = some request → book request.tid = q) :
    Funded c clusterId (r.server, fitted c s (input, fs) fits) := by
  have hfits : s.awaitAcceptDecision = true → fitted c s (input, fs) fits = fits := fun hacc =>
    fitted_of_await htransferring.phases hacc (input, fs) fits
  have hphases : s.Phases := htransferring.phases
  cases hacted with
  | opened isCrossShard request hown hprep hacc =>
    refine h.frame rfl fun hawait => ?_
    rw [show s.awaitAcceptDecision = true from hawait] at hacc
    cases hacc
  | rejected isCrossShard request hown hprep =>
    refine h.frame rfl fun hawait => ?_
    have hone := hphases.one hprep
    rw [show s.awaitAcceptDecision = true from hawait] at hone
    cases hone
  | accepting isCrossShard request d hown hprep hmaj hcond hd =>
    cases isCrossShard with
    | true => exact hinput.elim
    | false =>
      subst hd
      obtain ⟨-, hsender, hreceiver⟩ := hinput
      have hs : s.clusterId = clusterId := htransferring.cluster
      have hcover := (conditions_met hcond).2 (hsender.trans hs.symm)
      have hfit := h.fits_of_covered hunsigned hcover ((mem_clientsOf hcluster).mpr hsender)
        ((mem_clientsOf hcluster).mpr hreceiver)
      refine ⟨h.solvent, h.total, fun _ => ⟨?_, hunsigned, hcover⟩⟩
      exact (if_pos ⟨hown, hprep, hmaj, hcond⟩).trans (decide_eq_true hfit)
  | finished => exact hinput.elim
  | committed request d hown hprep hacc hmaj hd =>
    subst hd
    rw [commitTransaction_eq]
    have hbalances : movedBalances s.balances
        (s.wal.commitTransaction fs request s.acceptNum).2.txn = _ := commitTransaction_txn request
    obtain ⟨-, hsender, hreceiver⟩ := hinput
    have hval := htransferring.polled (hbook _ request rfl rfl) hown hacc
    obtain ⟨-, -, hcover⟩ := h.running hacc
    split_ifs at hbalances with hopen
    · rw [← hval] at hcover
      exact h.moved hunsigned hcover ((mem_clientsOf hcluster).mpr hsender)
        ((mem_clientsOf hcluster).mpr hreceiver) hbalances rfl
    · exact h.frame hbalances nofun
  | failed isCrossShard request hown hprep hacc hmaj hfail => exact h.frame rfl nofun
  | accepted => exact hinput.elim
  | released => exact hinput.elim
  | decided isCommit request d locks hconn hd hlocks =>
    rw [htransferring.decision (by omega)] at hd
    subst hd
    exact h.frame rfl fun hawait => ⟨hawait, rfl, hfits hawait⟩
  | synced request response d hack hd =>
    have hnone : response.logs = [] := hinput
    rw [hnone, syncEntries_nil] at hd
    subst hd
    exact h.frame rfl fun hawait => ⟨hawait, rfl, hfits hawait⟩
  | _ => exact h.frame rfl fun hawait => ⟨hawait, rfl, hfits hawait⟩

end Funded

/-! ### Runs -/

/-- In a run of a lone leader of transfers with distinct tids no commit overflows exactly when every
transfer that is committed fitted when its accept phase began, which is so when no amount is
negative. -/
theorem commits_fit_iff (c : Constants) {id : ℤ} (hid : 1 ≤ id ∧ id ≤ c.numClusters * c.clusterSize)
    (disk : Disk) {es : List (Input × FileSystem)} {p : Server × Bool}
    (hrun : run (fittedStep c) (init c id disk, false) es = some p)
    (hes : ∀ e ∈ es, TransferInput c (c.getClusterIdFromServerId id) e.1) (htids : DistinctTids es) :
    (Runs (fittedStep c) (fun p e => p.1.ArithmeticFits e) (init c id disk, false) es p ↔
        Runs (fittedStep c) CommitsFitted (init c id disk, false) es p) ∧
      ((∀ e ∈ es, Unsigned e.1) →
        Runs (fittedStep c) (fun p e => p.1.ArithmeticFits e) (init c id disk, false) es p) := by
  obtain ⟨book, hbook⟩ := htids.exists_book
  have hcluster : 1 ≤ c.getClusterIdFromServerId id ∧
      c.getClusterIdFromServerId id ≤ c.numClusters := by
    have hpos := c.clusterIdFromServerId_pos (show 0 < id by omega)
    exact ⟨by omega, Constants.clusterIdFromServerId_le hid.2⟩
  have hstep : ∀ p e q, Transferring c (c.getClusterIdFromServerId id) book p → e ∈ es →
      fittedStep c p e = some q → Transferring c (c.getClusterIdFromServerId id) book q := by
    rintro ⟨s, fits⟩ ⟨input, fs⟩ q h he hstep
    obtain ⟨hnext, hfits⟩ := withGhost_eq_some.mp hstep
    have hserver : s.handle c fs input = q.1 := Option.some.inj hnext
    have hacted : Acted c fs s input _ := react_acted input
    rw [show q = (s.handle c fs input, fitted c s (input, fs) fits) from Prod.ext hserver.symm hfits]
    exact h.acted hacted (by omega) (hes _ he) (hbook _ he)
  have hinit := transferring_init c book id disk
  have hmem := runs_of_forall (P := fun e => e ∈ es) hrun fun _ he => he
  have hiff : Runs (fittedStep c) (fun p e => p.1.ArithmeticFits e) (init c id disk, false) es p ↔
      Runs (fittedStep c) CommitsFitted (init c id disk, false) es p :=
    hmem.congr hinit hstep fun p e hp he => hp.fits_iff (hbook e he)
  refine ⟨hiff, fun hunsigned => hiff.mpr ?_⟩
  -- with no negative amount the ghost is true throughout the accept phase
  refine (hmem.congr (P := fun _ e => e ∈ es) (Q := CommitsFitted)
    (I := fun p => Transferring c (c.getClusterIdFromServerId id) book p ∧
      Funded c (c.getClusterIdFromServerId id) p) ⟨hinit, funded_init c id disk⟩ ?_ ?_).mp hmem
  · rintro ⟨s, fits⟩ ⟨input, fs⟩ q ⟨h, hfunded⟩ he hs
    refine ⟨hstep _ _ _ h he hs, ?_⟩
    obtain ⟨hnext, hfits⟩ := withGhost_eq_some.mp hs
    have hserver : s.handle c fs input = q.1 := Option.some.inj hnext
    have hacted : Acted c fs s input _ := react_acted input
    rw [show q = (s.handle c fs input, fitted c s (input, fs) fits) from Prod.ext hserver.symm hfits]
    exact hfunded.acted h hacted hcluster (hes _ he) (hunsigned _ he) (hbook _ he)
  · rintro p e ⟨-, hfunded⟩ he
    refine iff_of_true he ?_
    unfold CommitsFitted
    split
    · exact fun hcommits _ => (hfunded.running hcommits.2.2.1).1
    · trivial

instance (clusterId : ℤ) (input : Input) : Decidable (TransferInput c clusterId input) := by
  refine Input.decidable (fun r => ?_) (fun r status response => ?_) input
  · apply Request.decidable (P := fun r => TransferInput c clusterId (.request r))
    all_goals
      intros
      dsimp only [TransferInput]
      infer_instance
  · apply Request.decidable (P := fun r => TransferInput c clusterId (.reply r status response))
    all_goals
      intros
      dsimp only [TransferInput]
      infer_instance

/-- Server 1 gets a transfer from client 1 to client 2 accepted by server 2. -/
def acceptedInputs (amount : ℤ) : List (Input × FileSystem) :=
  [.request (.transfer ⟨⟨1, 2, amount⟩, 1⟩),
    .reply (.prepare ⟨⟨1, 1⟩, -1⟩) .ok (.prepare { ack := true, ballot := ⟨1, 1⟩ }),
    .request (.transfer ⟨⟨1, 2, amount⟩, 1⟩),
    .reply (.accept ⟨⟨1, 1⟩, ⟨⟨1, 2, amount⟩, 1⟩⟩) .ok (.accept ⟨true, ⟨1, 1⟩⟩)].map
      fun input => (input, .allOpen)

/-- The poll that commits it. -/
def commitPoll (amount : ℤ) : Input × FileSystem :=
  (.request (.transfer ⟨⟨1, 2, amount⟩, 1⟩), .allOpen)

theorem commits_fit_three : ∃ p,
    run (fittedStep .standard) (init .standard 1 .empty, false)
      (acceptedInputs 3 ++ [commitPoll 3]) = some p ∧ p.1.balances 1 = 7 ∧
      Runs (fittedStep .standard) (fun p e => p.1.ArithmeticFits e)
        (init .standard 1 .empty, false) (acceptedInputs 3 ++ [commitPoll 3]) p := by
  have hrun : run (fittedStep .standard) (init .standard 1 .empty, false)
    (acceptedInputs 3 ++ [commitPoll 3]) = some _ := rfl
  refine ⟨_, hrun, by decide +kernel, (commits_fit_iff .standard (by decide) .empty hrun ?_
    (by decide +kernel)).2 ?_⟩
  · have hall : (acceptedInputs 3 ++ [commitPoll 3]).all (fun e => Decidable.decide
        (TransferInput .standard (Constants.standard.getClusterIdFromServerId 1) e.1)) = true := by
      decide +kernel
    exact fun e he => of_decide_eq_true (List.all_eq_true.mp hall e he)
  · simp [acceptedInputs, commitPoll, Unsigned]

/-- A transfer of the least `int` passes the check of the accept phase, and overflows. -/
theorem not_commits_fit_minimum :
    ¬ ∃ p, Runs (fittedStep .standard) (fun p e => p.1.ArithmeticFits e)
      (init .standard 1 .empty, false) (acceptedInputs (-2 ^ 31) ++ [commitPoll (-2 ^ 31)]) p := by
  rintro ⟨p, hrun⟩
  obtain ⟨q, hq, hcheck⟩ := (Option.any_eq_true _ _).mp
    (show (run (fittedStep .standard) (init .standard 1 .empty, false)
      (acceptedInputs (-2 ^ 31))).any (fun q => Decidable.decide (q.1.balances 1 = 10 ∧
        q.1.Commits ⟨⟨1, 2, -2 ^ 31⟩, 1⟩)) = true by decide +kernel)
  obtain ⟨hten, hcommits⟩ := of_decide_eq_true hcheck
  have hfits := commitFits_iff _ |>.mp ((hrun.of_snoc (runs_of_run hq)).2 hcommits)
  obtain ⟨-, hlt⟩ : IsInt (q.1.balances 1 - -2 ^ 31) := hfits.1
  rw [hten] at hlt
  omega

end Server
end TpcBank
