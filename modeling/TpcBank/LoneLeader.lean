import TpcBank.Replay
import TpcBank.Library.Reservation

/-! A leader that is the only proposer of its cluster isolates its transactions: each holds its
clients locked from its accept phase on, so the balance that was checked is still there when the
transaction is applied. -/
namespace TpcBank
open Reservation

namespace Server

variable {c : Constants} {fs : FileSystem} {s s' : Server} {input : Input} {r : Handled}
  {book : ℤ → Request}

/-- The transactions in flight: the undecided prepared ones, and the transfer inside the cluster
that is in its accept phase. -/
def InFlight (c : Constants) (s : Server) (request : TransferReq) : Prop :=
  (∃ e, s.wal.pending request.tid = some e ∧ e.txn = request.txn) ∨
    (s.awaitAcceptDecision = true ∧ s.inCluster c s.acceptVal.txn = 2 ∧ request = s.acceptVal)

/-- The transactions in flight hold their clients locked and share none, and no client of the
cluster is overdrawn. -/
structure Isolated (c : Constants) (s : Server) : Prop where
  locked : ∀ request, s.InFlight c request → c.items s.clusterId request.txn ⊆ s.locks
  disjoint : ∀ request request', s.InFlight c request → s.InFlight c request' →
    request ≠ request' →
      Disjoint (c.items s.clusterId request.txn) (c.items s.clusterId request'.txn)
  solvent : ∀ x, s.isClientInCluster c x = true → 0 ≤ s.balances x

/-- What a lone leader handles: transfers with both clients in the cluster, cross-shard prepares
with exactly one, amounts that are not negative, and anything else but an Accept, a Commit or a
Sync reply with entries. -/
def LoneInput (c : Constants) (clusterId : ℤ) : Input → Prop
  | .request (.transfer request) => 0 ≤ request.txn.amount ∧
      c.getClusterIdFromClientId request.txn.sender = clusterId ∧
      c.getClusterIdFromClientId request.txn.receiver = clusterId
  | .request (.tpcPrepare request) => 0 ≤ request.txn.amount ∧
      ¬ (c.getClusterIdFromClientId request.txn.sender = clusterId ↔
        c.getClusterIdFromClientId request.txn.receiver = clusterId)
  | .request (.accept _) | .request (.commit _) => False
  | .reply (.sync _) _ response => response.toSync.logs = []
  | _ => True

/-- The polls among some inputs. -/
def polls (es : List (Input × FileSystem)) : List Request :=
  es.filterMap fun e =>
    match e.1 with
    | .request q => q.polled.map fun _ => q
    | .reply _ _ _ => none

theorem mem_polls {es : List (Input × FileSystem)} {e : Input × FileSystem} {q : Request}
    {request : TransferReq} (he : e ∈ es) (hq : e.1 = .request q)
    (hpolled : q.polled = some request) : q ∈ polls es :=
  List.mem_filterMap.mpr ⟨e, he, by simp [hq, hpolled]⟩

/-- The polls with one tid are polls of one request. -/
def DistinctTids (es : List (Input × FileSystem)) : Prop :=
  ∀ q ∈ polls es, ∀ q' ∈ polls es,
    q.polled.map TransferReq.tid = q'.polled.map TransferReq.tid → q = q'

instance (es : List (Input × FileSystem)) : Decidable (DistinctTids es) :=
  inferInstanceAs (Decidable (∀ q ∈ polls es, _))

/-- Distinct tids can be looked up. -/
theorem DistinctTids.exists_book {es : List (Input × FileSystem)} (h : DistinctTids es) :
    ∃ book : ℤ → Request, ∀ e ∈ es, ∀ q request, e.1 = .request q →
      q.polled = some request → book request.tid = q := by
  have hchoice : ∀ tid, ∃ q' : Request, ∀ e ∈ es, ∀ q request, e.1 = .request q →
      q.polled = some request → request.tid = tid → q' = q := by
    intro tid
    by_cases hsome : ∃ e ∈ es, ∃ q request, e.1 = .request q ∧ q.polled = some request ∧
        request.tid = tid
    · obtain ⟨e, he, q, request, hq, hpolled, rfl⟩ := hsome
      refine ⟨q, fun e' he' q' request' hq' hpolled' htid' => ?_⟩
      refine h q (mem_polls he hq hpolled) q' (mem_polls he' hq' hpolled') ?_
      rw [hpolled, hpolled', Option.map_some, Option.map_some, htid']
    · exact ⟨.logs, fun e he q request hq hpolled htid =>
        absurd ⟨e, he, q, request, hq, hpolled, htid⟩ hsome⟩
  choose book hbook using hchoice
  exact ⟨book, fun e he q request hq hpolled => hbook _ e he q request hq hpolled rfl⟩

/-! ### The invariant -/

/-- What a transaction takes from a client. -/
def takes (request : TransferReq) (x : ℤ) : ℤ :=
  if request.txn.sender = x then request.txn.amount else 0

/-- The transactions in flight as reservations of the clients of the cluster. -/
abbrev Reserved (c : Constants) (s : Server) : Prop :=
  Sound (fun request : TransferReq => c.items s.clusterId request.txn) takes
    {x | c.getClusterIdFromClientId x = s.clusterId} (s.InFlight c) s.locks s.balances

/-- What a lone leader keeps; `book` tells the request of each tid. -/
structure Lone (c : Constants) (book : ℤ → Request) (s : Server) : Prop where
  indexed : s.wal.Indexed
  phases : s.Phases
  reserved : s.Reserved c
  running : s.awaitAcceptDecision = true →
    s.paxosTid = s.acceptVal.tid ∧ (book s.acceptVal.tid).polled = some s.acceptVal
  prepared : ∀ tid e, s.wal.pending tid = some e → book tid = .tpcPrepare ⟨e.txn, tid⟩ ∧
    0 ≤ e.txn.amount ∧ s.inCluster c e.txn = 1

theorem lone_init (c : Constants) (book : ℤ → Request) (id : ℤ) (disk : Disk) :
    (init c id disk).Lone c book := by
  have hnone : ∀ request, ¬ (init c id disk).InFlight c request := by
    rintro request (⟨e, he, -⟩ | ⟨hawait, -⟩)
    · cases he
    · cases hawait
  constructor
  · exact (replayed_init c id disk).indexed
  · exact ⟨nofun, nofun, nofun⟩
  · refine ⟨fun request h => absurd h (hnone request), fun request _ h => absurd h (hnone request),
      fun request h => absurd h (hnone request), fun x _ => ?_⟩
    show (0 : ℤ) ≤ if _ then 10 else 0
    split_ifs <;> decide
  · nofun
  · nofun

theorem Lone.isolated (h : s.Lone c book) : s.Isolated c where
  locked := h.reserved.locked
  disjoint := h.reserved.disjoint
  solvent := fun x hx => h.reserved.nonneg x (isClientInCluster_iff.mp hx)

/-- A handler that leaves the data, the locks and the accept phase alone, or ends the phase. -/
theorem Lone.frame (h : s.Lone c book) (hphases : s'.Phases) (hcluster : s'.clusterId = s.clusterId)
    (hwal : s'.wal = s.wal) (hlocks : s'.locks = s.locks) (hbalances : s'.balances = s.balances)
    (hawait : s'.awaitAcceptDecision = true → s.awaitAcceptDecision = true ∧
      s'.acceptVal = s.acceptVal ∧ s'.paxosTid = s.paxosTid) : s'.Lone c book := by
  have hcount : ∀ txn, s'.inCluster c txn = s.inCluster c txn := by
    intro txn
    have hsame : s'.isClientInCluster c = s.isClientInCluster c := by
      funext x
      simp [isClientInCluster, hcluster]
    simp only [inCluster, hsame]
  constructor
  · rw [hwal]
    exact h.indexed
  · exact hphases
  · unfold Reserved
    rw [hcluster, hlocks, hbalances]
    refine h.reserved.mono ?_ subset_rfl
    rintro request (⟨e, he, htxn⟩ | ⟨hafter, htwo, heq⟩)
    · rw [hwal] at he
      exact .inl ⟨e, he, htxn⟩
    · obtain ⟨hbefore, hval, -⟩ := hawait hafter
      rw [hcount, hval] at htwo
      exact .inr ⟨hbefore, htwo, heq.trans hval⟩
  · intro hafter
    obtain ⟨hbefore, hval, htid⟩ := hawait hafter
    rw [htid, hval]
    exact h.running hbefore
  · intro tid e he
    rw [hwal] at he
    rw [hcount]
    exact h.prepared tid e he

/-! ### The clients of a poll -/

/-- Of the clients of a cross-shard request one is in the cluster. -/
theorem inCluster_crossShard {request : TransferReq}
    (h : LoneInput c s.clusterId (.request (.tpcPrepare request))) :
    s.inCluster c request.txn = 1 := by
  obtain ⟨-, hone⟩ := h
  unfold inCluster isClientInCluster
  simp only [decide_eq_true_eq]
  split_ifs <;> simp_all

/-- Both clients of a transfer are in the cluster. -/
theorem inCluster_transfer {request : TransferReq}
    (h : LoneInput c s.clusterId (.request (.transfer request))) :
    s.inCluster c request.txn = 2 := by
  obtain ⟨-, hsender, hreceiver⟩ := h
  simp [inCluster, isClientInCluster, hsender, hreceiver]

theorem items_transfer {request : TransferReq}
    (h : LoneInput c s.clusterId (.request (.transfer request))) :
    c.items s.clusterId request.txn = {request.txn.sender, request.txn.receiver} := by
  obtain ⟨-, hsender, hreceiver⟩ := h
  ext x
  rw [Constants.mem_items, Finset.mem_insert, Finset.mem_singleton]
  constructor
  · exact And.left
  · rintro (rfl | rfl)
    · exact ⟨.inl rfl, hsender⟩
    · exact ⟨.inr rfl, hreceiver⟩

/-- The end of a transfer unlocks its clients and no others. -/
theorem unlock_transfer {request : TransferReq} (locks : Finset ℤ)
    (h : LoneInput c s.clusterId (.request (.transfer request))) :
    (locks.erase request.txn.sender).erase request.txn.receiver =
      locks \ c.items s.clusterId request.txn := by
  rw [items_transfer h]
  ext x
  simp only [Finset.mem_erase, Finset.mem_sdiff, Finset.mem_insert, Finset.mem_singleton]
  constructor
  · rintro ⟨hr, hs, hx⟩
    exact ⟨hx, fun hor => hor.elim hs hr⟩
  · rintro ⟨hx, hor⟩
    exact ⟨fun hr => hor (.inr hr), fun hs => hor (.inl hs), hx⟩

/-! ### The accept phase begins -/

/-- Met conditions: the clients of the cluster are free, and the sender has the amount. -/
theorem conditions_met {txn : Transaction} (h : s.conditionsNotMet c txn = false) :
    Disjoint (c.items s.clusterId txn) s.locks ∧
      (c.getClusterIdFromClientId txn.sender = s.clusterId → txn.amount ≤ s.balances txn.sender) := by
  unfold conditionsNotMet at h
  simp only [Bool.or_eq_false_iff, Bool.and_eq_false_imp, isClientInCluster_iff,
    decide_eq_false_iff_not, not_lt] at h
  obtain ⟨⟨hsender, hreceiver⟩, hbalance⟩ := h
  refine ⟨Finset.disjoint_left.mpr fun x hx => ?_, hbalance⟩
  obtain ⟨rfl | rfl, hcluster⟩ := Constants.mem_items.mp hx
  · exact hsender hcluster
  · exact hreceiver hcluster

/-- The accept phase reserves the clients of its request. -/
theorem Lone.reserve (h : s.Lone c book) {request : TransferReq}
    (hcond : s.conditionsNotMet c request.txn = false) (hcluster : s'.clusterId = s.clusterId)
    (hbalances : s'.balances = s.balances)
    (hlocks : s.locks ∪ c.items s.clusterId request.txn ⊆ s'.locks)
    (hval : s'.acceptVal = request) (hpending : ∀ tid e, s'.wal.pending tid = some e →
      s.wal.pending tid = some e ∨ tid = request.tid ∧ e.txn = request.txn) :
    s'.Reserved c := by
  obtain ⟨hfree, hbalance⟩ := conditions_met hcond
  unfold Reserved
  rw [hcluster, hbalances]
  refine h.reserved.reserve (r := request) hfree ?_ ?_ hlocks
  · intro x hx
    obtain ⟨-, hin⟩ := Constants.mem_items.mp hx
    unfold takes
    split_ifs with hsender
    · subst hsender
      exact hbalance hin
    · exact h.reserved.nonneg x hin
  · rintro request' (⟨e, he, htxn⟩ | ⟨-, -, heq⟩)
    · rcases hpending _ e he with hold | ⟨htid, heq⟩
      · exact .inl (.inl ⟨e, hold, htxn⟩)
      · right
        cases request
        cases request'
        simp_all
    · exact .inr (heq.trans hval)

/-- What is prepared when the accept phase begins: what was, and a cross-shard request. -/
theorem Lone.pending_accept (h : s.Lone c book) (hfs : fs.working) (isCrossShard : Bool)
    (request : TransferReq) {tid : ℤ} {e : WALEntry}
    (he : (if isCrossShard then (s.prepareTransaction fs request s.promisedNum).data
      else s.data).wal.pending tid = some e) : s.wal.pending tid = some e ∨
      isCrossShard = true ∧ tid = request.tid ∧ e.txn = request.txn := by
  cases isCrossShard with
  | false => exact .inl he
  | true =>
    have hspec := (WAL.prepareTransaction_spec (hfs 0) h.indexed request s.promisedNum).2
    rw [if_pos rfl, data_wal, prepareTransaction_eq, hspec] at he
    by_cases ht : tid = request.tid
    · subst ht
      rw [Function.update_self] at he
      obtain rfl := Option.some.inj he
      exact .inr ⟨rfl, rfl, rfl⟩
    · rw [Function.update_of_ne ht] at he
      exact .inl he

/-- The accept phase begins with a request whose conditions are met. -/
theorem Lone.startAccept (h : s.Lone c book) (hfs : fs.working) (hphases : s'.Phases)
    {isCrossShard : Bool} {request : TransferReq}
    (hinput : LoneInput c s.clusterId (.request (.poll isCrossShard request)))
    (hbook : book request.tid = .poll isCrossShard request) (hown : s.Owns request.tid)
    (hprep : s.awaitPrepareDecision = true) (hcond : s.conditionsNotMet c request.txn = false)
    (hcluster : s'.clusterId = s.clusterId)
    (hwal : s'.wal = (if isCrossShard then (s.prepareTransaction fs request s.promisedNum).data
      else s.data).wal)
    (hbalances : s'.balances = s.balances)
    (hlocks : s.locks ∪ c.items s.clusterId request.txn ⊆ s'.locks)
    (hval : s'.acceptVal = request) (htid : s'.paxosTid = s.paxosTid) : s'.Lone c book := by
  have hpending : ∀ tid e, s'.wal.pending tid = some e → s.wal.pending tid = some e ∨
      isCrossShard = true ∧ tid = request.tid ∧ e.txn = request.txn := by
    intro tid e he
    rw [hwal] at he
    exact h.pending_accept hfs isCrossShard request he
  constructor
  · rw [hwal]
    cases isCrossShard with
    | false => exact h.indexed
    | true => exact (WAL.prepareTransaction_spec (hfs 0) h.indexed request s.promisedNum).1
  · exact hphases
  · exact h.reserve hcond hcluster hbalances hlocks hval
      fun tid e he => (hpending tid e he).imp_right And.right
  · intro _
    rw [htid, hval, hbook, Request.polled_poll]
    exact ⟨hown.2 (h.phases.prepare hprep), rfl⟩
  · intro tid e he
    have hcount : s'.inCluster c e.txn = s.inCluster c e.txn := by
      unfold inCluster isClientInCluster
      rw [hcluster]
    rw [hcount]
    rcases hpending tid e he with hold | ⟨rfl, rfl, htxn⟩
    · exact h.prepared tid e hold
    · rw [htxn]
      exact ⟨hbook, hinput.1, inCluster_crossShard hinput⟩

/-! ### Transactions end -/

theorem movedBalances_nonneg {balances : ℤ → ℤ} {txn : Transaction} {x : ℤ} (hx : 0 ≤ balances x)
    (hamount : 0 ≤ txn.amount) (hcover : txn.sender = x → txn.amount ≤ balances x) :
    0 ≤ movedBalances balances txn x := by
  unfold movedBalances
  split_ifs with hsender hreceiver hreceiver
  · omega
  · have := hcover hsender
    omega
  · omega
  · omega

/-- A reservation that is in flight covers the movement of its transaction. -/
theorem Lone.covers (h : s.Lone c book) {request : TransferReq} (hin : s.InFlight c request)
    (hamount : 0 ≤ request.txn.amount) {x : ℤ} (hx : x ∈ c.items s.clusterId request.txn) :
    0 ≤ movedBalances s.balances request.txn x := by
  obtain ⟨-, hcluster⟩ := Constants.mem_items.mp hx
  refine movedBalances_nonneg (h.reserved.nonneg x hcluster) hamount fun hsender => ?_
  have hcover := h.reserved.covered request hin x hx
  unfold takes at hcover
  rwa [if_pos hsender] at hcover

/-- A poll in the accept phase is a poll of the request of the phase. -/
theorem Lone.polled (h : s.Lone c book) {isCrossShard : Bool} {request : TransferReq}
    (hbook : book request.tid = .poll isCrossShard request) (hown : s.Owns request.tid)
    (hacc : s.awaitAcceptDecision = true) : request = s.acceptVal := by
  obtain ⟨htid, hpolled⟩ := h.running hacc
  have heq : request.tid = s.acceptVal.tid := (hown.2 (h.phases.accept hacc)).symm.trans htid
  rw [← heq, hbook, Request.polled_poll] at hpolled
  exact Option.some.inj hpolled

/-- The end of the accept phase of a transfer releases its clients. -/
theorem Lone.endTransfer (h : s.Lone c book) {request : TransferReq}
    (hinput : LoneInput c s.clusterId (.request (.transfer request)))
    (hbook : book request.tid = .transfer request) (hown : s.Owns request.tid)
    (hacc : s.awaitAcceptDecision = true) (hphases : s'.Phases)
    (hcluster : s'.clusterId = s.clusterId) (hindexed : s'.wal.Indexed)
    (hpending : s'.wal.pending = s.wal.pending)
    (hlocks : s'.locks = (s.locks.erase request.txn.sender).erase request.txn.receiver)
    (hbalances : s'.balances = s.balances ∨ s'.balances = movedBalances s.balances request.txn)
    (hafter : s'.awaitAcceptDecision = false) : s'.Lone c book := by
  have hamount := hinput.1
  have hpoll : book request.tid = .poll false request := hbook
  obtain rfl : request = s.acceptVal := h.polled hpoll hown hacc
  have hin : s.InFlight c s.acceptVal := .inr ⟨hacc, inCluster_transfer hinput, rfl⟩
  constructor
  · exact hindexed
  · exact hphases
  · unfold Reserved
    have hsdiff : s'.locks = s.locks \ c.items s.clusterId s.acceptVal.txn :=
      hlocks.trans (unlock_transfer s.locks hinput)
    rw [hcluster, hsdiff]
    refine h.reserved.release hin ?_ ?_ ?_
    · rintro request (⟨e, he, htxn⟩ | ⟨hawait, -⟩)
      · rw [hpending] at he
        refine ⟨.inl ⟨e, he, htxn⟩, ?_⟩
        rintro rfl
        have hprepared := (h.prepared _ e he).1
        rw [hbook] at hprepared
        cases hprepared
      · rw [hafter] at hawait
        cases hawait
    · intro x hx
      rw [items_transfer hinput, Finset.mem_insert, Finset.mem_singleton, not_or] at hx
      rcases hbalances with heq | heq
      · rw [heq]
      · rw [heq, movedBalances, if_neg (Ne.symm hx.1), if_neg (Ne.symm hx.2), sub_zero, add_zero]
    · intro x hx hkept
      rcases hbalances with heq | heq
      · rw [heq]
        exact h.reserved.nonneg x hkept
      · rw [heq]
        exact h.covers hin hamount hx
  · intro hawait
    rw [hafter] at hawait
    cases hawait
  · intro tid e he
    rw [hpending] at he
    have hprepared := h.prepared tid e he
    unfold inCluster isClientInCluster at hprepared ⊢
    rwa [hcluster]

/-- A decision releases the clients of the transaction it decides, and no others. -/
theorem Lone.decide (h : s.Lone c book) (hcluster : 0 < s.clusterId) (hfs : fs.working)
    (request : TpcTid) (isCommit : Bool) :
    (s.processTpcDecision c fs request isCommit).Lone c book := by
  by_cases hconn : s.iAmDisconnected = true
  · rwa [processTpcDecision_disconnected request isCommit hconn]
  cases hp : s.wal.pending request.tid with
  | none => rwa [processTpcDecision_unknown isCommit hcluster h.indexed hp]
  | some e =>
    obtain ⟨wal, hindexed, hpending, heq⟩ := processTpcDecision_found (c := c) isCommit
      (by simpa using hconn) hfs h.indexed hp
    obtain ⟨hbook, hamount, hone⟩ := h.prepared _ e hp
    have hin : s.InFlight c ⟨e.txn, request.tid⟩ := .inl ⟨e, hp, rfl⟩
    have hstill : ∀ tid e', wal.pending tid = some e' →
        s.wal.pending tid = some e' ∧ tid ≠ request.tid := by
      intro tid e' he'
      rw [hpending] at he'
      by_cases ht : tid = request.tid
      · subst ht
        rw [Function.update_self] at he'
        cases he'
      · rw [Function.update_of_ne ht] at he'
        exact ⟨he', ht⟩
    have hothers : ∀ request', (∃ e', wal.pending request'.tid = some e' ∧ e'.txn = request'.txn) ∨
        (s.awaitAcceptDecision = true ∧ s.inCluster c s.acceptVal.txn = 2 ∧
          request' = s.acceptVal) →
        s.InFlight c request' ∧ request' ≠ ⟨e.txn, request.tid⟩ := by
      rintro request' (⟨e', he', htxn⟩ | ⟨hawait, htwo, hval⟩)
      · obtain ⟨hold, hne⟩ := hstill _ e' he'
        refine ⟨.inl ⟨e', hold, htxn⟩, ?_⟩
        rintro rfl
        exact hne rfl
      · refine ⟨.inr ⟨hawait, htwo, hval⟩, ?_⟩
        rintro rfl
        rw [← hval, hone] at htwo
        omega
    rw [heq]
    cases isCommit with
    | false =>
      refine ⟨hindexed, ⟨h.phases.prepare, h.phases.accept, h.phases.one⟩, ?_, h.running,
        fun tid e' he' => h.prepared tid e' (hstill tid e' he').1⟩
      exact h.reserved.release hin hothers (fun _ _ => rfl) fun x _ => h.reserved.nonneg x
    | true =>
      refine ⟨hindexed, ⟨h.phases.prepare, h.phases.accept, h.phases.one⟩, ?_, h.running,
        fun tid e' he' => h.prepared tid e' (hstill tid e' he').1⟩
      refine h.reserved.release hin hothers ?_ ?_
      · intro x hx
        show clusterBalances c s.clusterId s.balances e.txn x = s.balances x
        unfold clusterBalances
        split_ifs with hcluster
        · have hne : e.txn.sender ≠ x ∧ e.txn.receiver ≠ x := by
            rw [Constants.mem_items] at hx
            constructor
            · rintro rfl
              exact hx ⟨.inl rfl, hcluster⟩
            · rintro rfl
              exact hx ⟨.inr rfl, hcluster⟩
          rw [movedBalances, if_neg hne.1, if_neg hne.2, sub_zero, add_zero]
        · rfl
      · intro x hx hkept
        show 0 ≤ clusterBalances c s.clusterId s.balances e.txn x
        rw [clusterBalances, if_pos (show c.getClusterIdFromClientId x = s.clusterId from hkept)]
        exact h.covers hin hamount hx

/-! ### One handler -/

theorem syncEntries_nil (i : ℕ) : s.syncEntries c fs i [] = s := rfl

/-- A handler of a lone leader keeps the invariant. -/
theorem Acted.lone (hacted : Acted c fs s input r) (h : s.Lone c book) (hcluster : 0 < s.clusterId)
    (hfs : fs.working) (hinput : LoneInput c s.clusterId input)
    (hbook : ∀ q request, input = .request q → q.polled = some request → book request.tid = q) :
    r.server.Lone c book := by
  have hphases := hacted.phases h.phases
  have hpoll : ∀ isCrossShard request, input = .request (.poll isCrossShard request) →
      book request.tid = .poll isCrossShard request := fun isCrossShard request heq =>
    hbook _ request heq (Request.polled_poll isCrossShard request)
  cases hacted with
  | opened isCrossShard request hown hprep hacc =>
    refine h.frame hphases rfl rfl rfl rfl fun hawait => ?_
    rw [show s.awaitAcceptDecision = true from hawait] at hacc
    cases hacc
  | rejected isCrossShard request hown hprep =>
    refine h.frame hphases rfl rfl rfl rfl fun hawait => ?_
    have hone := h.phases.one hprep
    rw [show s.awaitAcceptDecision = true from hawait] at hone
    cases hone
  | accepting isCrossShard request d hown hprep hmaj hcond hd =>
    subst hd
    refine h.startAccept hfs hphases hinput (hpoll isCrossShard request rfl) hown hprep hcond rfl rfl
      ?_ (Finset.subset_insert _ _) rfl rfl
    cases isCrossShard <;> rfl
  | finished => exact h.frame hphases rfl rfl rfl rfl nofun
  | committed request d hown hprep hacc hmaj hd =>
    subst hd
    obtain ⟨hindexed, hpending, hentry⟩ :=
      WAL.commitTransaction_spec (hfs 0) h.indexed request s.acceptNum
    refine h.endTransfer hinput (hpoll false request rfl) hown hacc hphases rfl ?_ ?_ rfl (.inr ?_) rfl
    · rw [commitTransaction_eq]
      exact hindexed
    · rw [commitTransaction_eq]
      exact hpending
    · rw [commitTransaction_eq]
      simp only [data_balances, hentry]
  | failed isCrossShard request hown hprep hacc hmaj hfail =>
    cases isCrossShard with
    | true => exact h.frame hphases rfl rfl rfl rfl nofun
    | false =>
      exact h.endTransfer hinput (hpoll false request rfl) hown hacc hphases rfl h.indexed rfl rfl
        (.inl rfl) rfl
  | accepted => exact hinput.elim
  | released => exact hinput.elim
  | decided isCommit request d locks hconn hd hlocks =>
    subst hd hlocks
    have hdecided := h.decide hcluster hfs request isCommit
    have heq : s.processTpcDecision c fs request isCommit = _ :=
      processTpcDecision_eq request isCommit hconn
    rw [heq] at hdecided ⊢
    cases isCommit <;> exact hdecided
  | synced request response d hack hd =>
    subst hd
    have hnone : response.logs = [] := hinput
    rw [hnone, syncEntries_nil] at hphases ⊢
    exact h.frame hphases rfl rfl rfl rfl fun hawait => ⟨hawait, rfl, rfl⟩
  | _ => exact h.frame hphases rfl rfl rfl rfl fun hawait => ⟨hawait, rfl, rfl⟩

instance (clusterId : ℤ) (input : Input) : Decidable (LoneInput c clusterId input) := by
  refine Input.decidable (fun r => ?_) (fun r status response => ?_) input
  · apply Request.decidable (P := fun r => LoneInput c clusterId (.request r))
    all_goals
      intros
      dsimp only [LoneInput]
      infer_instance
  · apply Request.decidable (P := fun r => LoneInput c clusterId (.reply r status response))
    all_goals
      intros
      dsimp only [LoneInput]
      infer_instance

end Server
end TpcBank
