import TpcBank.SoleLeaders

/-! A lone leader locks no client of its cluster without a reason: each belongs to a transaction
in flight, and is unlocked with it. -/
namespace TpcBank
open Reservation

namespace Server

variable {c : Constants} {fs : FileSystem} {s s' : Server} {input : Input} {r : Handled}
  {book : ℤ → Request}

/-- Every locked client of the cluster belongs to a transaction in flight. -/
def Tidy (c : Constants) (s : Server) : Prop :=
  Tight (fun request : TransferReq => c.items s.clusterId request.txn)
    {x | c.getClusterIdFromClientId x = s.clusterId} (s.InFlight c) s.locks

theorem tidy_init (c : Constants) (id : ℤ) (disk : Disk) : (init c id disk).Tidy c :=
  fun x hx => absurd hx (Finset.notMem_empty x)

/-- A handler that leaves the locks and the transactions in flight alone. -/
theorem Tidy.frame (h : s.Tidy c) (hcluster : s'.clusterId = s.clusterId)
    (hlocks : s'.locks = s.locks)
    (hflight : ∀ request, s.InFlight c request → s'.InFlight c request) : s'.Tidy c := by
  unfold Tidy
  rw [hcluster, hlocks]
  exact Tight.mono h hflight fun x hx _ => hx

/-- The accept phase locks the clients of its request. -/
theorem Tidy.startAccept (h : s.Tidy c) (request : TransferReq)
    (hcluster : s'.clusterId = s.clusterId)
    (hlocks : s'.locks = insert request.txn.receiver (s.locks ∪ c.items s.clusterId request.txn))
    (hnew : s'.InFlight c request)
    (hflight : ∀ request, s.InFlight c request → s'.InFlight c request) : s'.Tidy c := by
  unfold Tidy
  rw [hcluster, hlocks]
  refine Tight.reserve h hnew hflight fun x hx hkept => ?_
  rw [Finset.mem_insert, Finset.mem_union] at hx
  rcases hx with rfl | hold | hitem
  · exact .inr (Constants.mem_items.mpr ⟨.inr rfl, hkept⟩)
  · exact .inl hold
  · exact .inr hitem

theorem Tidy.startTransfer (h : s.Tidy c) {request : TransferReq}
    (hinput : LoneInput c s.clusterId (.request (.transfer request)))
    (hnoacc : s.awaitAcceptDecision = false) (hcluster : s'.clusterId = s.clusterId)
    (hlocks : s'.locks = insert request.txn.receiver (s.locks ∪ c.items s.clusterId request.txn))
    (hpending : s'.wal.pending = s.wal.pending) (hacc : s'.awaitAcceptDecision = true)
    (hval : s'.acceptVal = request) : s'.Tidy c := by
  have hcount : s'.inCluster c request.txn = 2 := by
    refine inCluster_transfer ?_
    rwa [hcluster]
  refine h.startAccept request hcluster hlocks (.inr ⟨hacc, by rw [hval, hcount], hval.symm⟩)
    fun request' hin => ?_
  rcases hin with ⟨e, he, htxn⟩ | ⟨hbefore, -⟩
  · left
    rw [hpending]
    exact ⟨e, he, htxn⟩
  · rw [hnoacc] at hbefore
    cases hbefore

theorem Tidy.startCrossShard (h : s.Tidy c) (hlone : s.Lone c book) {request : TransferReq}
    (hbook : book request.tid = .tpcPrepare request) (hnoacc : s.awaitAcceptDecision = false)
    (hcluster : s'.clusterId = s.clusterId)
    (hlocks : s'.locks = insert request.txn.receiver (s.locks ∪ c.items s.clusterId request.txn))
    {entry : WALEntry} (hentry : entry.txn = request.txn)
    (hpending : s'.wal.pending = Function.update s.wal.pending request.tid (some entry)) :
    s'.Tidy c := by
  have hnew : s'.wal.pending request.tid = some entry := by rw [hpending, Function.update_self]
  refine h.startAccept request hcluster hlocks (.inl ⟨entry, hnew, hentry⟩) fun request' hin => ?_
  rcases hin with ⟨e, he, htxn⟩ | ⟨hacc, -⟩
  · left
    by_cases htid : request'.tid = request.tid
    · -- what was prepared with the tid is the request of the tid
      have hsame := (hlone.prepared _ e he).1
      rw [htid, hbook] at hsame
      have htxn' : request.txn = e.txn := congrArg TransferReq.txn (Request.tpcPrepare.inj hsame)
      rw [htid, ← htxn, ← htxn']
      exact ⟨entry, hnew, hentry⟩
    · rw [hpending, Function.update_of_ne htid]
      exact ⟨e, he, htxn⟩
  · rw [hnoacc] at hacc
    cases hacc

/-- A request that is in flight after a decision, unless it is the one decided. -/
theorem InFlight.decided {request' : TransferReq} (h : s.InFlight c request')
    (request : TransferReq) {e : WALEntry} (hp : s.wal.pending request.tid = some e)
    (htxn : e.txn = request.txn) (hne : request' ≠ request)
    (hpending : s'.wal.pending = Function.update s.wal.pending request.tid none)
    (hawait : s'.awaitAcceptDecision = s.awaitAcceptDecision) (hval : s'.acceptVal = s.acceptVal)
    (hcount : s'.inCluster c s.acceptVal.txn = s.inCluster c s.acceptVal.txn) :
    s'.InFlight c request' := by
  rcases h with ⟨e', he', htxn'⟩ | ⟨hacc, htwo, heq⟩
  · left
    refine ⟨e', ?_, htxn'⟩
    have htid : request'.tid ≠ request.tid := by
      intro htid
      rw [htid, hp] at he'
      obtain rfl := Option.some.inj he'
      cases request
      cases request'
      simp_all
    rw [hpending, Function.update_of_ne htid]
    exact he'
  · right
    rw [hawait, hval, hcount]
    exact ⟨hacc, htwo, heq⟩

/-- A decision unlocks the clients of the transaction it decides. -/
theorem Tidy.decide (h : s.Tidy c) (hlone : s.Lone c book) (hcluster : 0 < s.clusterId)
    (hfs : fs.working) (request : TpcTid) (isCommit : Bool) :
    (s.processTpcDecision c fs request isCommit).Tidy c := by
  by_cases hconn : s.iAmDisconnected = true
  · rwa [processTpcDecision_disconnected request isCommit hconn]
  cases hp : s.wal.pending request.tid with
  | none => rwa [processTpcDecision_unknown isCommit hcluster hlone.indexed hp]
  | some e =>
    obtain ⟨wal, -, hpending, heq⟩ := processTpcDecision_found (c := c) isCommit
      (by simpa using hconn) hfs hlone.indexed hp
    have hreleased : ∀ {s' : Server}, s'.wal.pending = wal.pending →
        s'.awaitAcceptDecision = s.awaitAcceptDecision → s'.acceptVal = s.acceptVal →
          s'.clusterId = s.clusterId → s'.locks = s.locks \ c.items s.clusterId e.txn →
            s'.Tidy c := by
      intro s' hwal hawait hval hid hlocks
      unfold Tidy
      rw [hid, hlocks]
      refine Tight.release (r := (⟨e.txn, request.tid⟩ : TransferReq)) h fun request' hin hne => ?_
      refine hin.decided ⟨e.txn, request.tid⟩ hp rfl hne (hwal.trans hpending) hawait
        hval ?_
      unfold inCluster isClientInCluster
      rw [hid]
    rw [heq]
    cases isCommit <;> exact hreleased rfl rfl rfl rfl rfl

/-- The end of the accept phase of a transfer unlocks its clients. -/
theorem Tidy.endTransfer (h : s.Tidy c) (hlone : s.Lone c book) {request : TransferReq}
    (hinput : LoneInput c s.clusterId (.request (.transfer request)))
    (hbook : book request.tid = .transfer request) (hown : s.Owns request.tid)
    (hacc : s.awaitAcceptDecision = true) (hcluster : s'.clusterId = s.clusterId)
    (hpending : s'.wal.pending = s.wal.pending)
    (hlocks : s'.locks = (s.locks.erase request.txn.sender).erase request.txn.receiver) :
    s'.Tidy c := by
  have hpoll : book request.tid = .poll false request := hbook
  obtain rfl : request = s.acceptVal := hlone.polled hpoll hown hacc
  have hsdiff : s'.locks = s.locks \ c.items s.clusterId s.acceptVal.txn :=
    hlocks.trans (unlock_transfer s.locks hinput)
  unfold Tidy
  rw [hcluster, hsdiff]
  refine Tight.release (r := s.acceptVal) h fun request' hin hne => ?_
  rcases hin with ⟨e, he, htxn⟩ | ⟨-, -, heq⟩
  · left
    rw [hpending]
    exact ⟨e, he, htxn⟩
  · exact absurd heq hne

/-- The end of the accept phase of a cross-shard request leaves its clients to the decision. -/
theorem Tidy.endCrossShard (h : s.Tidy c) (hlone : s.Lone c book) {request : TransferReq}
    (hinput : LoneInput c s.clusterId (.request (.tpcPrepare request)))
    (hbook : book request.tid = .tpcPrepare request) (hown : s.Owns request.tid)
    (hacc : s.awaitAcceptDecision = true) (hcluster : s'.clusterId = s.clusterId)
    (hlocks : s'.locks = s.locks) (hpending : s'.wal.pending = s.wal.pending) : s'.Tidy c := by
  have hpoll : book request.tid = .poll true request := hbook
  obtain rfl : request = s.acceptVal := hlone.polled hpoll hown hacc
  refine h.frame hcluster hlocks fun request' hin => ?_
  rcases hin with ⟨e, he, htxn⟩ | ⟨-, htwo, -⟩
  · left
    rw [hpending]
    exact ⟨e, he, htxn⟩
  · rw [inCluster_crossShard hinput] at htwo
    cases htwo

/-- A handler of a lone leader keeps its locks tidy. -/
theorem Acted.tidy (hacted : Acted c fs s input r) (h : s.Tidy c) (hlone : s.Lone c book)
    (hcluster : 0 < s.clusterId) (hfs : fs.working) (hinput : LoneInput c s.clusterId input)
    (hbook : ∀ q request, input = .request q → q.polled = some request → book request.tid = q) :
    r.server.Tidy c := by
  have hpoll : ∀ isCrossShard request, input = .request (.poll isCrossShard request) →
      book request.tid = .poll isCrossShard request := fun isCrossShard request heq =>
    hbook _ request heq (Request.polled_poll isCrossShard request)
  cases hacted with
  | opened isCrossShard request hown hprep hacc => exact h.frame rfl rfl fun _ hin => hin
  | rejected isCrossShard request hown hprep => exact h.frame rfl rfl fun _ hin => hin
  | accepting isCrossShard request d hown hprep hmaj hcond hd =>
    subst hd
    have hnoacc := hlone.phases.one hprep
    cases isCrossShard with
    | true =>
      have hpending := (WAL.prepareTransaction_spec (hfs 0) hlone.indexed request s.promisedNum).2
      exact h.startCrossShard hlone (hpoll true request rfl) hnoacc rfl rfl rfl hpending
    | false => exact h.startTransfer hinput hnoacc rfl rfl rfl rfl rfl
  | finished request hown hprep hacc =>
    exact h.endCrossShard hlone hinput (hpoll true request rfl) hown hacc rfl rfl rfl
  | committed request d hown hprep hacc hmaj hd =>
    subst hd
    obtain ⟨-, hpending, -⟩ := WAL.commitTransaction_spec (hfs 0) hlone.indexed request s.acceptNum
    refine h.endTransfer hlone hinput (hpoll false request rfl) hown hacc rfl ?_ rfl
    rw [commitTransaction_eq]
    exact hpending
  | failed isCrossShard request hown hprep hacc hmaj hfail =>
    cases isCrossShard with
    | false => exact h.endTransfer hlone hinput (hpoll false request rfl) hown hacc rfl rfl rfl
    | true => exact h.endCrossShard hlone hinput (hpoll true request rfl) hown hacc rfl rfl rfl
  | accepted => exact hinput.elim
  | released => exact hinput.elim
  | decided isCommit request d locks hconn hd hlocks =>
    subst hd hlocks
    have hdecided := h.decide hlone hcluster hfs request isCommit
    have heq : s.processTpcDecision c fs request isCommit = _ :=
      processTpcDecision_eq request isCommit hconn
    rw [heq] at hdecided ⊢
    cases isCommit <;> exact hdecided
  | synced request response d hack hd =>
    subst hd
    have hnone : response.logs = [] := hinput
    rw [hnone, syncEntries_nil]
    exact h.frame rfl rfl fun _ hin => hin
  | _ => exact h.frame rfl rfl fun _ hin => hin

theorem Acted.tidy_leader (hacted : Acted c fs s input r) (h : s.Tidy c) (hlone : s.Lone c book)
    (hcluster : 0 < s.clusterId) (hfs : fs.working) (hinput : LeaderInput c s.clusterId input)
    (hbook : ∀ q request, input = .request q → q.polled = some request → book request.tid = q) :
    r.server.Tidy c := by
  rcases hinput with hinput | ⟨request, status, response, rfl, hne⟩
  · exact hacted.tidy h hlone hcluster hfs hinput hbook
  · cases hacted with
    | idle => exact h
    | synced => exact absurd rfl hne
    | syncRefused => exact h.frame rfl rfl fun _ hin => hin

end Server

namespace Network

variable {c : Constants} {L : Leaders c} {book : ℤ → Request} {n n' : Network} {e : Event}

/-- The leaders keep their locks tidy. -/
theorem SoleLed.tidy (hled : SoleLed c L book n) (hfits : Fits c L book n) (hprov : Provenance c n)
    (hstep : Stepped c n e n') (hworking : e.working) (hsync : Each (Server.NoEntries L) n e)
    (h : ∀ p, L.Leads p → (n.servers p).Tidy c) {p : ℤ} (hleads : L.Leads p) :
    (n'.servers p).Tidy c := by
  cases hstep.changeAt p with
  | same hserver =>
    rw [hserver]
    exact h p hleads
  | handled fs input r hacts hr hserver =>
    rw [hserver]
    refine hr.tidy_leader (h p hleads) (hled.lone p hleads) ?_ (hacts.working hworking)
      (hled.leaderInput hfits hprov hacts hleads hsync) (hfits.booked hprov hacts)
    rw [hprov.routed.clusterId]
    exact hleads.1

end Network
end TpcBank
